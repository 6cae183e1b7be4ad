import Grmdb.WaitShape

namespace Grmdb

open LockRequestQueue

variable {κ : Type} {locks locks' : Locks κ} {t u : TxnId} {fd : Fd} {rid : Rid}

theorem resume_upgrading {w : LockWait κ} {r : LockRequest κ} {q : LockRequestQueue κ}
    (h : (w.resume r q t).upgrading = some u) :
    q.upgrading = some u ∧ (w.upgrades = true → u ≠ t) := by
  cases w with
  | exclusiveGap _ _ _ _ isNew | exclusive _ isNew =>
    cases isNew with
    | true => exact ⟨h, by simp [LockWait.upgrades]⟩
    | false =>
      obtain ⟨hup, hu⟩ := upgrading_of_clearUpgrading h
      exact ⟨hup, fun _ => hu⟩
  | shared _ _ isNew | is _ isNew | ix _ isNew =>
    cases isNew <;> exact ⟨h, by simp [LockWait.upgrades]⟩
  | gap _ _ first => cases first <;> exact ⟨h, by simp [LockWait.upgrades]⟩

/-- Nothing comes into a queue by an `unlock`. -/
theorem RecordUnlock.back (h : RecordUnlock locks locks' t fd rid) {id : LockDataId}
    {r' : LockRequest κ} (hr : r' ∈ (locks'.queue id).requestQueue) :
    ∃ r ∈ (locks.queue id).requestQueue, Eased r r' := by
  by_cases hrec : id = .record fd rid
  · subst hrec
    obtain ⟨r, hmem, he⟩ := MapM.forall₂_mem_right h.eased_requests hr
    rw [releaseRecord_requests] at hmem
    exact ⟨r, List.mem_of_mem_eraseP hmem, he⟩
  · have hsame : (locks'.queue id).requestQueue = (locks.queue id).requestQueue := by
      by_cases htab : id = .table fd
      · subst htab
        rw [h.table]
        split <;> rfl
      · rw [h.others id hrec htab]
    exact ⟨r', hsame ▸ hr, Eased.refl r'⟩

theorem RecordUnlock.upgrading_back (h : RecordUnlock locks locks' t fd rid) {id : LockDataId}
    (hup : (locks'.queue id).upgrading = some u) : (locks.queue id).upgrading = some u := by
  by_cases hrec : id = .record fd rid
  · subst hrec
    exact (releaseRecord_upgrading (h.upgrading u hup)).1
  · by_cases htab : id = .table fd
    · subst htab
      rw [h.table] at hup
      split at hup <;> exact hup
    · rw [h.others id hrec htab] at hup
      exact hup

section Order

variable [LinearOrder κ]

theorem TableUnlock.back (h : TableUnlock locks locks' t fd)
    (hup : ∀ r ∈ (locks.queue (.table fd)).requestQueue,
      (locks.queue (.table fd)).upgrading = some r.txnId → r.lockMode = .exlucsive)
    {id : LockDataId} {r' : LockRequest κ} (hr : r' ∈ (locks'.queue id).requestQueue) :
    ∃ r ∈ (locks.queue id).requestQueue, Eased r r' := by
  by_cases htab : id = .table fd
  · subst htab
    rw [h.requests] at hr
    obtain ⟨r, hmem, he⟩ := MapM.forall₂_mem_right (regranted_settled t hup).1 hr
    rw [releaseTable_requests] at hmem
    exact ⟨r, List.mem_of_mem_eraseP hmem, he⟩
  · by_cases hrec : ∃ rid, id = .record fd rid
    · obtain ⟨rid, rfl⟩ := hrec
      exact MapM.forall₂_mem_right (Eased.of_grants (h.records rid)) hr
    · rw [h.others id htab fun rid hid => hrec ⟨rid, hid⟩] at hr
      exact ⟨r', hr, Eased.refl r'⟩

theorem TableUnlock.upgrading_back (h : TableUnlock locks locks' t fd) {id : LockDataId}
    (hup : (locks'.queue id).upgrading = some u) : (locks.queue id).upgrading = some u := by
  by_cases htab : id = .table fd
  · subst htab
    exact (releaseTable_upgrading_eq (h.upgrading u hup)).1
  · by_cases hrec : ∃ rid, id = .record fd rid
    · obtain ⟨rid, rfl⟩ := hrec
      exact h.recordUpgrading rid ▸ hup
    · rw [h.others id htab fun rid hid => hrec ⟨rid, hid⟩] at hup
      exact hup

end Order

namespace LockState

variable {s s' : LockState κ}

/-- A step of a finishing transaction that brings nothing into any queue. -/
theorem WaitShape.release (hi : s.WaitShape) (ht : s.phase t = .finishing)
    (hphase : s'.phase = s.phase)
    (hown : ∀ u, u ≠ t → ∀ id, List.Forall₂ Eased ((s.queue id).own u) ((s'.queue id).own u))
    (hback : ∀ id, ∀ r' ∈ (s'.queue id).requestQueue,
      ∃ r ∈ (s.queue id).requestQueue, Eased r r')
    (hup : ∀ id u, (s'.queue id).upgrading = some u → (s.queue id).upgrading = some u) :
    s'.WaitShape := by
  have hframe : StepFrame t s s' :=
    ⟨fun u _ => by rw [hphase], hown, fun u _ id => hup id u⟩
  refine hi.step hframe (fun w hw => ?_) (fun fd r' hr' _ => ?_) (fun id hid => ⟨?_, ?_⟩)
  · rw [hphase, ht] at hw
    cases hw
  · obtain ⟨r, hr, he⟩ := hback _ r' hr'
    rw [he.lockMode]
    exact hi.tables fd r hr
  · rw [hphase]
    exact Or.inl ht
  · intro r' hr' hrt
    obtain ⟨r, hr, he⟩ := hback id r' hr'
    rw [he.lockMode]
    exact (hi.upgrades id t (hup id t hid)).2 r hr (he.txnId.symm.trans hrt)

theorem WaitShape.wake (hi : s.WaitShape) {w : LockWait κ} (hp : s.phase t = .waiting w)
    (r : LockRequest κ) (ids : List LockDataId) (keys : List (HeldKey κ)) :
    ((((s.put w.id (w.resume r (s.queue w.id) t)).setPhase t .running).enter t ids).hold
      keys).WaitShape := by
  have hqueue : ∀ id, ((((s.put w.id (w.resume r (s.queue w.id) t)).setPhase t .running).enter t
      ids).hold keys).queue id = (s.put w.id (w.resume r (s.queue w.id) t)).queue id :=
    fun _ => rfl
  have hreq : ∀ id, ((s.put w.id (w.resume r (s.queue w.id) t)).queue id).requestQueue =
      (s.queue id).requestQueue := by
    intro id
    by_cases hid : id = w.id
    · subst hid
      rw [queue_put_self, resume_requests]
    · rw [queue_put_other hid]
  have hup : ∀ id u, ((s.put w.id (w.resume r (s.queue w.id) t)).queue id).upgrading = some u →
      (s.queue id).upgrading = some u ∧ (id = w.id → w.upgrades = true → u ≠ t) := by
    intro id u h
    by_cases hid : id = w.id
    · subst hid
      rw [queue_put_self] at h
      obtain ⟨hold, hne⟩ := resume_upgrading h
      exact ⟨hold, fun _ => hne⟩
    · rw [queue_put_other hid] at h
      exact ⟨h, fun heq => absurd heq hid⟩
  refine hi.step (t := t) ⟨fun u hu => ?_, fun u _ id => ?_, fun u _ id h => (hup id u h).1⟩
    (fun w' hw => ?_) (fun fd r' hr' _ => ?_) (fun id hid => ?_)
  · simp [hold, enter, setPhase, hu]
  · rw [hqueue, own, own, hreq]
    exact Eased.list_refl _
  · simp [hold, enter, setPhase] at hw
  · rw [hqueue, hreq] at hr'
    exact hi.tables fd r' hr'
  · -- the transaction upgraded where it has waited, and does so no longer
    obtain ⟨hold, hne⟩ := hup id t hid
    rcases (hi.upgrades id t hold).1 with hfin | ⟨w', hw, rfl, hwup⟩
    · simp [hp] at hfin
    · cases hp.symm.trans hw
      exact absurd rfl (hne rfl hwup)

theorem WaitShape.finish (hi : s.WaitShape) (ht : s.phase t = .running) :
    (s.setPhase t .finishing).WaitShape := by
  refine hi.step (t := t) ⟨fun u hu => by simp [setPhase, hu], fun u _ id => Eased.list_refl _,
    fun u _ id h => h⟩ (fun w hw => ?_) (fun fd r hr _ => hi.tables fd r hr) (fun id hid => ?_)
  · simp [setPhase] at hw
  · exact absurd hid (hi.not_running ht id)

theorem WaitShape.upgrades_exclusive (hi : s.WaitShape) (id : LockDataId) :
    ∀ r ∈ (s.queue id).requestQueue, (s.queue id).upgrading = some r.txnId →
      r.lockMode = .exlucsive :=
  fun r hr hup => (hi.upgrades id r.txnId hup).2 r hr rfl

theorem WaitShape.unlockRecord (hi : s.WaitShape) (ht : s.phase t = .finishing)
    (ids : TxnId → List LockDataId) :
    LockState.WaitShape { s with
      locks := Grmdb.unlockRecord s.locks t fd rid
      lockSet := ids } := by
  by_cases hfind : (s.locks.queue (.record fd rid)).find t = none
  · rw [unlockRecord_none hfind]
    exact ⟨hi.waits, hi.tables, hi.upgrades⟩
  · have h := unlockRecord_queues hfind
    exact hi.release ht rfl (fun u hu id => h.eased (Or.inl hu)) (fun id r' hr' => h.back hr')
      fun id u hup => h.upgrading_back hup

variable [LinearOrder κ]

theorem WaitShape.unlockTable (hi : s.WaitShape) (ht : s.phase t = .finishing)
    {locks : Locks κ} (hu : Grmdb.unlockTable s.locks t fd = some locks)
    (ids : TxnId → List LockDataId) :
    LockState.WaitShape { s with locks := locks, lockSet := ids } := by
  by_cases hfind : (s.locks.queue (.table fd)).find t = none
  · rw [unlockTable_none hfind hu]
    exact ⟨hi.waits, hi.tables, hi.upgrades⟩
  · have h := unlockTable_queues hfind hu
    have hup := hi.upgrades_exclusive (.table fd)
    exact hi.release ht rfl (fun u hu id => h.eased hup (Or.inl hu))
      (fun id r' hr' => h.back hup hr') fun id u hup => h.upgrading_back hup

theorem waitShape_step {e : LockEv κ} (hi : s.WaitShape) (hone : s.OneEach)
    (h : s.step e = some s') : s'.WaitShape := by
  cases e with
  | lockSharedOnRecord t fd rid =>
    simp only [step] at h
    split at h
    next ht =>
      cases Option.some.inj h
      exact hi.call (calls_shared ht fd rid) (by simp)
    next => simp at h
  | lockExclusiveOnRecordGap t fd rid index key =>
    simp only [step] at h
    split at h
    next ht =>
      cases Option.some.inj h
      exact hi.call (calls_exclusiveGap ht hone fd rid index key) (by simp)
    next => simp at h
  | lockGAPOnTable t fd lower upper index =>
    simp only [step] at h
    split at h
    next ht =>
      cases Option.some.inj h
      exact hi.call (calls_GAP ht fd lower upper index _) (by simp)
    next => simp at h
  | lockISOnTable t fd =>
    simp only [step] at h
    split at h
    next ht =>
      obtain ⟨⟨q, out⟩, hcall, rfl⟩ := Option.map_eq_some_iff.mp h
      exact hi.call (calls_IS ht hcall) (by simp)
    next => simp at h
  | lockIXOnTable t fd =>
    simp only [step] at h
    split at h
    next ht =>
      cases Option.some.inj h
      exact hi.call (calls_IX ht fd) (by simp)
    next => simp at h
  | lockExclusiveOnTable t fd =>
    simp only [step] at h
    split at h
    next ht =>
      cases Option.some.inj h
      exact hi.call (calls_exclusive ht hone fd) (by simp)
    next => simp at h
  | wake t =>
    simp only [step] at h
    split at h
    next w hp =>
      split at h
      next r hr =>
        split at h
        next =>
          cases Option.some.inj h
          exact hi.wake hp r _ _
        next => simp at h
      next => simp at h
    next => simp at h
  | finish t =>
    simp only [step] at h
    split at h
    next ht =>
      cases Option.some.inj h
      exact hi.finish ht
    next => simp at h
  | unlock t id =>
    simp only [step] at h
    split at h
    next ht =>
      cases id with
      | table fd =>
        obtain ⟨locks, hu, rfl⟩ := Option.map_eq_some_iff.mp h
        exact hi.unlockTable ht.1 hu _
      | record fd rid =>
        cases Option.some.inj h
        exact hi.unlockRecord ht.1 _
    next => simp at h

end LockState

end Grmdb
