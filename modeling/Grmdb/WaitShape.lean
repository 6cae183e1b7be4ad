import Grmdb.LockWaits
import Grmdb.UnlockQueues

namespace Grmdb

open LockRequestQueue

variable {κ : Type}

/-- A step of `t`: what the other transactions have in the queues stays, and may be granted. -/
structure StepFrame (t : TxnId) (s s' : LockState κ) : Prop where
  phase : ∀ u, u ≠ t → s'.phase u = s.phase u
  own : ∀ u, u ≠ t → ∀ id, List.Forall₂ Eased ((s.queue id).own u) ((s'.queue id).own u)
  upgrading : ∀ u, u ≠ t → ∀ id, (s'.queue id).upgrading = some u →
    (s.queue id).upgrading = some u

theorem mem_own {q : LockRequestQueue κ} {t : TxnId} {r : LockRequest κ} :
    r ∈ q.own t ↔ r ∈ q.requestQueue ∧ r.txnId = t := by
  simp [LockRequestQueue.own]

theorem LockRequestQueue.own_eq_singleton {q : LockRequestQueue κ} {t : TxnId} {r : LockRequest κ}
    (h : (q.own t).length ≤ 1) (hr : r ∈ q.requestQueue) (hrt : r.txnId = t) : q.own t = [r] := by
  have hmem : r ∈ q.own t := mem_own.mpr ⟨hr, hrt⟩
  cases hown : q.own t with
  | nil => simp [hown] at hmem
  | cons a rest =>
    obtain rfl : rest = [] := by simpa [hown] using h
    rw [hown] at hmem
    rw [List.mem_singleton.mp hmem]

theorem LockWait.fits_eased {w : LockWait κ} {r r' : LockRequest κ} (h : w.fits r)
    (he : Eased r r') : w.fits r' := by
  cases w with
  | exclusiveGap | exclusive => exact he.lockMode.trans h
  | gap =>
    refine ⟨he.lockMode.trans h.1, fun hnil => h.2 ?_⟩
    have hlen := he.gaps.length_eq
    rw [hnil] at hlen
    exact List.length_eq_zero_iff.mp hlen
  | shared | is | ix => trivial

namespace LockState

/-- A transaction has at most one request in a queue. -/
structure OneEach (s : LockState κ) : Prop where
  single : ∀ t id, ((s.queue id).own t).length ≤ 1
  upgrades : ∀ t id, (s.queue id).upgrading = some t → (s.queue id).own t ≠ []
  records : ∀ fd rid, ∀ r ∈ (s.queue (.record fd rid)).requestQueue,
    r.lockMode = .shared ∨ r.lockMode = .exlucsive

theorem OneEach.own_eq {s : LockState κ} (h : s.OneEach) {id : LockDataId} {r : LockRequest κ}
    (hr : r ∈ (s.queue id).requestQueue) : (s.queue id).own r.txnId = [r] :=
  own_eq_singleton (h.single r.txnId id) hr rfl

theorem OneEach.eq_of_txnId {s : LockState κ} (h : s.OneEach) {id : LockDataId}
    {r o : LockRequest κ} (hr : r ∈ (s.queue id).requestQueue)
    (ho : o ∈ (s.queue id).requestQueue) (heq : o.txnId = r.txnId) : o = r := by
  have hmem : o ∈ (s.queue id).own r.txnId := mem_own.mpr ⟨ho, heq⟩
  rw [h.own_eq hr] at hmem
  exact List.mem_singleton.mp hmem

theorem OneEach.request {s : LockState κ} (h : s.OneEach) {w : LockWait κ} {r : LockRequest κ}
    (hr : r ∈ (s.queue w.id).requestQueue) : w.request (s.queue w.id) r.txnId = some r := by
  have hown := h.own_eq hr
  unfold LockWait.request
  split
  · show ((s.queue w.id).own r.txnId).getLast? = some r
    rw [hown]
    rfl
  · rw [find_eq_head, hown]
    rfl

theorem AccountInv.oneEach {s : LockState κ} (h : s.AccountInv) : s.OneEach := by
  refine ⟨fun t id => ?_, fun t id hup hnil => ?_, fun fd rid r hr => ?_⟩
  · simpa [feet, footprint] using (h t).single id
  · refine (h t).upgrades id ?_ ?_ <;> simp [feet, footprint, hup, hnil]
  · refine (h r.txnId).records fd rid r.lockMode ?_
    exact List.mem_map.mpr ⟨r, mem_own.mpr ⟨hr, rfl⟩, rfl⟩

/-- The requests that transactions wait with. -/
structure WaitShape (s : LockState κ) : Prop where
  waits : ∀ t w, s.phase t = .waiting w →
    ∃ r ∈ (s.queue w.id).requestQueue, r.txnId = t ∧ w.fits r
  tables : ∀ fd, ∀ r ∈ (s.queue (.table fd)).requestQueue, r.lockMode ≠ .shared
  upgrades : ∀ id t, (s.queue id).upgrading = some t →
    (s.phase t = .finishing ∨ ∃ w, s.phase t = .waiting w ∧ w.id = id ∧ w.upgrades = true) ∧
    ∀ r ∈ (s.queue id).requestQueue, r.txnId = t → r.lockMode = .exlucsive

theorem WaitShape.not_running {s : LockState κ} (hi : s.WaitShape) {t : TxnId}
    (ht : s.phase t = .running) (id : LockDataId) : (s.queue id).upgrading ≠ some t := by
  intro hup
  rcases (hi.upgrades id t hup).1 with h | ⟨w, hw, _⟩
  · simp [ht] at h
  · simp [ht] at hw

theorem waitShape_fresh : (fresh : LockState κ).WaitShape := by
  constructor <;> simp [fresh, queue, empty]

theorem WaitShape.step {s s' : LockState κ} {t : TxnId} (hi : s.WaitShape)
    (hf : StepFrame t s s')
    (hwaits : ∀ w, s'.phase t = .waiting w →
      ∃ r ∈ (s'.queue w.id).requestQueue, r.txnId = t ∧ w.fits r)
    (htables : ∀ fd, ∀ r ∈ (s'.queue (.table fd)).requestQueue, r.txnId = t →
      r.lockMode ≠ .shared)
    (hupgrades : ∀ id, (s'.queue id).upgrading = some t →
      (s'.phase t = .finishing ∨ ∃ w, s'.phase t = .waiting w ∧ w.id = id ∧ w.upgrades = true) ∧
      ∀ r ∈ (s'.queue id).requestQueue, r.txnId = t → r.lockMode = .exlucsive) :
    s'.WaitShape := by
  have hback : ∀ u, u ≠ t → ∀ id, ∀ r' ∈ (s'.queue id).requestQueue, r'.txnId = u →
      ∃ r ∈ (s.queue id).requestQueue, r.txnId = u ∧ Eased r r' := by
    intro u hu id r' hr' hru
    obtain ⟨r, hr, he⟩ := MapM.forall₂_mem_right (hf.own u hu id) (mem_own.mpr ⟨hr', hru⟩)
    exact ⟨r, (mem_own.mp hr).1, (mem_own.mp hr).2, he⟩
  refine ⟨fun u w hw => ?_, fun fd r' hr' => ?_, fun id u hup => ?_⟩
  · by_cases hu : u = t
    · subst hu
      exact hwaits w hw
    · rw [hf.phase u hu] at hw
      obtain ⟨r, hr, hru, hfits⟩ := hi.waits u w hw
      obtain ⟨r', hr', he⟩ := MapM.forall₂_mem_left (hf.own u hu w.id) (mem_own.mpr ⟨hr, hru⟩)
      exact ⟨r', (mem_own.mp hr').1, (mem_own.mp hr').2, LockWait.fits_eased hfits he⟩
  · by_cases hu : r'.txnId = t
    · exact htables fd r' hr' hu
    · obtain ⟨r, hr, _, he⟩ := hback _ hu _ r' hr' rfl
      rw [he.lockMode]
      exact hi.tables fd r hr
  · by_cases hu : u = t
    · subst hu
      exact hupgrades id hup
    · obtain ⟨hp, hx⟩ := hi.upgrades id u (hf.upgrading u hu id hup)
      rw [hf.phase u hu]
      refine ⟨hp, fun r' hr' hru => ?_⟩
      obtain ⟨r, hr, hru₀, he⟩ := hback u hu id r' hr' hru
      rw [he.lockMode]
      exact hx r hr hru₀

/-- A lock call of `t` that works on the queue `id`; what it does to another queue is to take the
requests of `t` out of it, if anything. -/
structure Calls (m : LockMode) (id : LockDataId) (t : TxnId) (wait : Bool → LockWait κ)
    (out : Outcome) (s s' : LockState κ) : Prop where
  running : s.phase t = .running
  phase : s'.phase t = out.phase wait
  others : ∀ u, u ≠ t → s'.phase u = s.phase u
  frame : ∀ x, CallFrame t (s.queue x) (s'.queue x)
  wait_id : ∀ b, (wait b).id = id
  upgrades : m = .exlucsive → (wait false).upgrades = true
  here : OwnCall m (fun r => ∀ b, (wait b).fits r) t (s.queue id) (s'.queue id) out
  elsewhere : ∀ x, x ≠ id →
    OwnCall .exlucsive (fun _ => True) t (s.queue x) (s'.queue x) (.returns true)

theorem Calls.stepFrame {m : LockMode} {id : LockDataId} {t : TxnId} {wait : Bool → LockWait κ}
    {out : Outcome} {s s' : LockState κ} (h : Calls m id t wait out s s') : StepFrame t s s' :=
  ⟨h.others, fun u hu x => (h.frame x).own u hu ▸ Eased.list_refl _,
    fun u hu x => ((h.frame x).upgrading u hu).mp⟩

theorem WaitShape.call {m : LockMode} {id : LockDataId} {t : TxnId} {wait : Bool → LockWait κ}
    {out : Outcome} {s s' : LockState κ} (hi : s.WaitShape) (h : Calls m id t wait out s s')
    (hm : ∀ fd, id = .table fd → m ≠ .shared) : s'.WaitShape := by
  have hnot := hi.not_running h.running
  refine hi.step h.stepFrame (fun w hw => ?_) (fun fd r hr hrt => ?_) (fun x hup => ?_)
  · rw [h.phase] at hw
    cases out with
    | waits b =>
      obtain ⟨_, r, hr, hrt, hfits⟩ := h.here.waits b rfl
      cases TxnPhase.waiting.inj hw
      rw [h.wait_id b]
      exact ⟨r, hr, hrt, hfits b⟩
    | returns => cases hw
    | aborts => cases hw
  · have hold : ∀ o ∈ (s.queue (.table fd)).requestQueue, o.txnId = t ∧
        r.lockMode = o.lockMode → r.lockMode ≠ .shared := by
      intro o ho hro
      rw [hro.2]
      exact hi.tables fd o ho
    by_cases hx : LockDataId.table fd = id
    · rw [hx] at hr hold
      rcases h.here.modes r hr hrt with hmode | ⟨o, ho, hro⟩
      · rw [hmode]
        exact hm fd hx.symm
      · exact hold o ho hro
    · rcases (h.elsewhere _ hx).modes r hr hrt with hmode | ⟨o, ho, hro⟩
      · simp [hmode]
      · exact hold o ho hro
  · by_cases hx : x = id
    · subst hx
      rcases h.here.upgrading hup with hold | ⟨hx, hout, hmode⟩
      · exact absurd hold (hnot _)
      · refine ⟨?_, hmode⟩
        rw [h.phase]
        rcases hout with rfl | rfl
        · exact Or.inl rfl
        · exact Or.inr ⟨wait false, rfl, h.wait_id false, h.upgrades hx⟩
    · rcases (h.elsewhere x hx).upgrading hup with hold | ⟨_, hout, _⟩
      · exact absurd hold (hnot _)
      · rcases hout with hout | hout <;> cases hout

/-- A call on one queue. -/
theorem calls_put {m : LockMode} {id : LockDataId} {t : TxnId} {wait : Bool → LockWait κ}
    {out : Outcome} {s : LockState κ} {q : LockRequestQueue κ} (ht : s.phase t = .running)
    (hframe : CallFrame t (s.queue id) q)
    (hown : OwnCall m (fun r => ∀ b, (wait b).fits r) t (s.queue id) q out)
    (hid : ∀ b, (wait b).id = id) (hup : m = .exlucsive → (wait false).upgrades = true) :
    Calls m id t wait out s ((s.put id q).finishCall t wait out) := by
  refine ⟨ht, finishCall_phase_self (s := s.put id q) ht wait out,
    fun u hu => finishCall_phase_other hu wait out, fun x => ?_, hid, hup, ?_, fun x hx => ?_⟩
  · rw [finishCall_queue]
    by_cases hx : x = id
    · subst hx
      rw [queue_put_self]
      exact hframe
    · rw [queue_put_other hx]
      exact CallFrame.refl t _
  · rw [finishCall_queue, queue_put_self]
    exact hown
  · rw [finishCall_queue, queue_put_other hx]
    exact OwnCall.refl (by simp)

section Calls

variable {s s' : LockState κ} {t : TxnId}

theorem calls_shared (ht : s.phase t = .running) (fd : Fd) (rid : Rid) :
    Calls .shared (.record fd rid) t (.shared fd rid)
      ((s.queue (.record fd rid)).lockSharedOnRecord t).2 s
      ((s.put (.record fd rid) ((s.queue (.record fd rid)).lockSharedOnRecord t).1).finishCall t
        (.shared fd rid) ((s.queue (.record fd rid)).lockSharedOnRecord t).2) :=
  calls_put ht (lockSharedOnRecord_frame _ t)
    ((lockSharedOnRecord_ownCall _ t).imp fun _ _ _ => trivial) (fun _ => rfl) (by simp)

theorem calls_IS (ht : s.phase t = .running) {fd : Fd} {q : LockRequestQueue κ} {out : Outcome}
    (h : (s.queue (.table fd)).lockISOnTable t = some (q, out)) :
    Calls .intensionShared (.table fd) t (.is fd) out s
      ((s.put (.table fd) q).finishCall t (.is fd) out) :=
  calls_put ht (lockISOnTable_frame h) ((lockISOnTable_ownCall h).imp fun _ _ _ => trivial)
    (fun _ => rfl) (by simp)

theorem calls_IX (ht : s.phase t = .running) (fd : Fd) :
    Calls .intensionExlucsive (.table fd) t (.ix fd) ((s.queue (.table fd)).lockIXOnTable t).2 s
      ((s.put (.table fd) ((s.queue (.table fd)).lockIXOnTable t).1).finishCall t (.ix fd)
        ((s.queue (.table fd)).lockIXOnTable t).2) :=
  calls_put ht (lockIXOnTable_frame _ t) ((lockIXOnTable_ownCall _ t).imp fun _ _ _ => trivial)
    (fun _ => rfl) (by simp)

theorem calls_exclusive (ht : s.phase t = .running) (hone : s.OneEach) (fd : Fd) :
    Calls .exlucsive (.table fd) t (.exclusive fd)
      ((s.queue (.table fd)).lockExclusiveOnTable t).2 s
      ((s.put (.table fd) ((s.queue (.table fd)).lockExclusiveOnTable t).1).finishCall t
        (.exclusive fd) ((s.queue (.table fd)).lockExclusiveOnTable t).2) :=
  calls_put ht (lockExclusiveOnTable_frame _ t)
    ((lockExclusiveOnTable_ownCall (hone.single t (.table fd))).imp fun _ hr _ => hr)
    (fun _ => rfl) (fun _ => rfl)

variable [LinearOrder κ]

theorem calls_GAP (ht : s.phase t = .running) (fd : Fd) (lower upper : κ) (index : IndexId)
    (first : Bool → Bool) :
    Calls .gap (.table fd) t (fun isNew => .gap fd isNew (first isNew))
      ((s.queue (.table fd)).lockGAPOnTable t lower upper index).2 s
      ((s.put (.table fd) ((s.queue (.table fd)).lockGAPOnTable t lower upper index).1).finishCall
        t (fun isNew => .gap fd isNew (first isNew))
        ((s.queue (.table fd)).lockGAPOnTable t lower upper index).2) :=
  calls_put ht (lockGAPOnTable_frame _ t lower upper index)
    ((lockGAPOnTable_ownCall _ t lower upper index).imp fun _ hr _ => hr) (fun _ => rfl) (by simp)

theorem calls_exclusiveGap (ht : s.phase t = .running) (hone : s.OneEach) (fd : Fd) (rid : Rid)
    (index : IndexId) (key : κ) :
    Calls .exlucsive (.record fd rid) t (.exclusiveGap fd rid index key)
      ((s.queue (.record fd rid)).lockExclusiveOnRecordGap (s.queue (.table fd)) t rid index
        key).2.2 s
      (((s.put (.record fd rid) ((s.queue (.record fd rid)).lockExclusiveOnRecordGap
        (s.queue (.table fd)) t rid index key).1).put (.table fd)
        ((s.queue (.record fd rid)).lockExclusiveOnRecordGap (s.queue (.table fd)) t rid index
          key).2.1).finishCall t (.exclusiveGap fd rid index key)
        ((s.queue (.record fd rid)).lockExclusiveOnRecordGap (s.queue (.table fd)) t rid index
          key).2.2) := by
  obtain ⟨hrec, htab⟩ := lockExclusiveOnRecordGap_frame (s.queue (.record fd rid))
    (s.queue (.table fd)) t rid index key
  have hown : OwnCall .exlucsive (fun r => ∀ b, (LockWait.exclusiveGap fd rid index key b).fits r)
      t (s.queue (.record fd rid)) ((s.queue (.record fd rid)).lockExclusiveOnRecordGap
        (s.queue (.table fd)) t rid index key).1 ((s.queue (.record fd
          rid)).lockExclusiveOnRecordGap (s.queue (.table fd)) t rid index key).2.2 :=
    (exclusiveOnRecord_ownCall (hone.single t (.record fd rid)) _ _).imp fun _ hr _ => hr
  have htable : OwnCall .exlucsive (fun _ => True) t (s.queue (.table fd))
      ((s.queue (.record fd rid)).lockExclusiveOnRecordGap (s.queue (.table fd)) t rid index
        key).2.1 (.returns true) := by
    have h : OwnCall .exlucsive (fun _ => True) t
        { s.queue (.table fd) with insertKeys := (s.queue (.table fd)).insertKeys ++
          [⟨key, index, t, rid, (s.queue (.table fd)).keyInGap t index key⟩] } _ (.returns true) :=
      exclusiveOnRecord_ownTable (s.queue (.record fd rid)) _ t
        ((s.queue (.table fd)).keyInGap t index key)
    exact ⟨h.waits, h.modes, h.upgrading, h.ids⟩
  generalize (s.queue (.record fd rid)).lockExclusiveOnRecordGap (s.queue (.table fd)) t rid index
    key = result at *
  obtain ⟨queueRec, queueTable, out⟩ := result
  dsimp only at *
  have hqueue : ∀ x, (((s.put (.record fd rid) queueRec).put (.table fd) queueTable).finishCall t
      (.exclusiveGap fd rid index key) out).queue x =
      if x = .record fd rid then queueRec else if x = .table fd then queueTable
      else s.queue x := by
    intro x
    rw [finishCall_queue]
    by_cases htx : x = .table fd
    · subst htx
      simp
    · rw [queue_put_other htx]
      by_cases hrx : x = .record fd rid
      · subst hrx
        simp
      · rw [queue_put_other hrx, if_neg hrx, if_neg htx]
  refine ⟨ht, finishCall_phase_self (s := (s.put _ _).put _ _) ht _ out,
    fun u hu => finishCall_phase_other hu _ out, fun x => ?_, fun _ => rfl, fun _ => rfl, ?_,
    fun x hx => ?_⟩
  · rw [hqueue]
    split
    next hx => exact hx ▸ hrec
    next =>
      split
      next hx => exact hx ▸ htab
      next => exact CallFrame.refl t _
  · rw [hqueue, if_pos rfl]
    exact hown
  · rw [hqueue, if_neg hx]
    split
    next hx => exact hx ▸ htable
    next => exact OwnCall.refl (by simp)

end Calls

end LockState

end Grmdb
