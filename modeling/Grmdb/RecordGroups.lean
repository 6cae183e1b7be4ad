import Grmdb.WaitRun

namespace Grmdb

open LockRequestQueue

variable {κ : Type} {t : TxnId}

/-- Group mode X stands for a granted exclusive lock. -/
def LockRequestQueue.GroupX (q : LockRequestQueue κ) : Prop :=
  q.groupMode = .x → ∃ o ∈ q.requestQueue, o.holdsX = true

namespace LockRequestQueue

variable {q : LockRequestQueue κ}

theorem mem_withdraw_of_ne {o : LockRequest κ} (ho : o ∈ q.requestQueue) (hne : o.txnId ≠ t) :
    o ∈ (q.withdraw t).requestQueue := by
  rw [withdraw_requests]
  exact List.mem_filter.mpr ⟨ho, by simpa using hne⟩

theorem mem_update_of_ne {f : LockRequest κ → LockRequest κ} (hf : ∀ r, (f r).txnId = r.txnId)
    {o : LockRequest κ} (ho : o ∈ q.requestQueue) (hne : o.txnId ≠ t) :
    o ∈ (q.update t f).requestQueue := by
  have hmem : o ∈ (q.update t f).own o.txnId := by
    rw [own_update_other hne hf]
    exact mem_own.mpr ⟨ho, rfl⟩
  exact (mem_own.mp hmem).1

theorem find_eq_none {o : LockRequest κ} (h : q.find t = none) (ho : o ∈ q.requestQueue) :
    o.txnId ≠ t := by
  simpa using List.find?_eq_none.mp h o ho

/-- A holder that is another transaction's stays while `t` dies or waits. -/
theorem GroupX.orDie (h : q.groupMode = .x → ∃ o ∈ q.requestQueue, o.txnId ≠ t ∧ o.holdsX = true)
    (isNew : Bool) : (q.orDie t isNew).1.GroupX := by
  unfold LockRequestQueue.orDie
  split
  · intro hx
    rw [withdraw_groupMode] at hx
    obtain ⟨o, ho, hne, hholds⟩ := h hx
    exact ⟨o, mem_withdraw_of_ne ho hne, hholds⟩
  · intro hx
    obtain ⟨o, ho, _, hholds⟩ := h hx
    exact ⟨o, ho, hholds⟩

theorem GroupX.orDieBoth (h : q.groupMode = .x →
      ∃ o ∈ q.requestQueue, o.txnId ≠ t ∧ o.holdsX = true)
    (queueTable : LockRequestQueue κ) (isNew : Bool) :
    (q.orDieBoth queueTable t isNew).1.GroupX ∧
      (q.orDieTableFirst queueTable t isNew).1.GroupX := by
  have hleft : (q.withdraw t).GroupX := by
    intro hx
    rw [withdraw_groupMode] at hx
    obtain ⟨o, ho, hne, hholds⟩ := h hx
    exact ⟨o, mem_withdraw_of_ne ho hne, hholds⟩
  have hstays : q.GroupX := by
    intro hx
    obtain ⟨o, ho, _, hholds⟩ := h hx
    exact ⟨o, ho, hholds⟩
  unfold LockRequestQueue.orDieBoth LockRequestQueue.orDieTableFirst
  constructor
  · split
    · exact hleft
    · split <;> exact hstays
  · split
    · exact hstays
    · split
      · exact hleft
      · exact hstays

theorem sharedNew_groupX (h : q.GroupX) (hn : q.groupMode = .x → q.find t = none) :
    (q.sharedNew t).1.GroupX := by
  unfold sharedNew
  split
  · intro hx
    cases hx
  next hx =>
    refine GroupX.orDie (fun hg => ?_) true
    obtain ⟨o, ho, hholds⟩ := h hg
    exact ⟨o, List.mem_append_left _ ho, find_eq_none (hn hg) ho, hholds⟩

theorem exists_of_otherHoldsX (h : q.otherHoldsX t = true) :
    ∃ o ∈ q.requestQueue, o.txnId ≠ t ∧ o.holdsX = true := by
  obtain ⟨o, ho, hx⟩ := List.any_eq_true.mp h
  simp only [Bool.and_eq_true, decide_eq_true_eq] at hx
  exact ⟨o, ho, hx.1, hx.2⟩

theorem lockSharedOnRecord_groupX (h : q.GroupX) : (q.lockSharedOnRecord t).1.GroupX := by
  have hother : ∀ b, (∃ o ∈ q.requestQueue, o.txnId ≠ t ∧ o.holdsX = true) →
      ∃ o ∈ (q.update t fun r => { r with granted := b }).requestQueue,
        o.txnId ≠ t ∧ o.holdsX = true := by
    rintro b ⟨o, ho, hne, hholds⟩
    exact ⟨o, mem_update_of_ne (by simp) ho hne, hne, hholds⟩
  unfold lockSharedOnRecord
  split
  next hn => exact sharedNew_groupX h fun _ => hn
  next r hr =>
    split
    next hx =>
      split
      next ho => exact GroupX.orDie (fun _ => hother false (exists_of_otherHoldsX ho)) false
      next ho =>
        intro _
        obtain ⟨o, hmem, hholds⟩ := h hx
        have hg : GrantsFor (fun _ => True) q.requestQueue
            (q.update t fun r => { r with granted := true }).requestQueue :=
          GrantsFor.updateFirst (fun _ h => h) trivial
        refine ⟨o, hg.mem_granted hmem ?_, hholds⟩
        simp only [LockRequest.holdsX, Bool.and_eq_true] at hholds
        exact hholds.1
    next hx =>
      split
      next hs =>
        intro hg
        exact absurd hg hx
      next => exact sharedNew_groupX h fun hg => absurd hg hx

theorem exclusiveNew_groupX (h : q.GroupX) (hn : q.find t = none)
    (queueTable : LockRequestQueue κ) (isWaited : Bool) :
    (exclusiveOnRecord.exclusiveNew q queueTable t isWaited).1.GroupX := by
  have hgiven : ({ q with groupMode := .x }.push
      (⟨t, .exlucsive, true, []⟩ : LockRequest κ)).GroupX :=
    fun _ => ⟨_, List.mem_append_right _ (List.mem_singleton.mpr rfl), rfl⟩
  have hwaiting := @GroupX.orDieBoth κ t (q.push ⟨t, .exlucsive, false, []⟩) (fun hg => by
    obtain ⟨o, ho, hholds⟩ := h hg
    exact ⟨o, List.mem_append_left _ ho, find_eq_none hn ho, hholds⟩) queueTable true
  unfold exclusiveOnRecord.exclusiveNew
  dsimp only
  split
  · split
    · exact hwaiting.2
    · exact hgiven
  · split
    · exact hgiven
    · exact hwaiting.1

theorem exclusiveOnRecord_groupX (h : q.GroupX) (hsingle : (q.own t).length ≤ 1)
    (hmodes : ∀ r ∈ q.requestQueue, r.lockMode = .shared ∨ r.lockMode = .exlucsive)
    (queueTable : LockRequestQueue κ) (isWaited : Bool) :
    (q.exclusiveOnRecord queueTable t isWaited).1.GroupX := by
  unfold exclusiveOnRecord
  split
  next a ha =>
    obtain ⟨hmem, hat⟩ := find_mem ha
    split
    next hs =>
      split
      · exact h
      · dsimp only
        split
        next =>
          refine (GroupX.orDieBoth (fun hg => ?_) queueTable false).1
          obtain ⟨o, ho, hholds⟩ := h hg
          -- the transaction itself has a shared lock only
          have hne : o.txnId ≠ t := by
            intro hot
            have hown : q.own t = [a] := own_eq_singleton hsingle hmem hat
            have ho' : o ∈ q.own t := mem_own.mpr ⟨ho, hot⟩
            rw [hown] at ho'
            rw [List.mem_singleton.mp ho'] at hholds
            simp [LockRequest.holdsX, hs] at hholds
          exact ⟨o, mem_update_of_ne (q := { q with upgrading := some t }) (by simp) ho hne, hne,
            hholds⟩
        next =>
          intro _
          rw [clearUpgrading_requests]
          exact ⟨_, mem_updateFirst_find ha, rfl⟩
    next hs =>
      split
      · exact h
      next hx => exact absurd ((hmodes a hmem).resolve_left hs) hx
  next hn => exact exclusiveNew_groupX h hn queueTable isWaited

/-! `unlock` finds the group mode anew and changes it only with a grant. -/

theorem grantRecord_groupX {l : List (LockRequest κ)} {group : GroupMode}
    (h : (grantRecord l group).2 = .x) : group = .x := by
  induction l generalizing group with
  | nil => exact h
  | cons a l ih =>
    unfold grantRecord at h
    split at h
    · cases ih h
    · exact ih h

theorem regrantRecord_groupX {upgrading : Option TxnId} {before after : List (LockRequest κ)}
    {group : GroupMode} (hgroup : group = .x → ∃ o ∈ before ++ after, o.holdsX = true)
    (hup : ∀ r ∈ after, upgrading = some r.txnId → r.lockMode = .exlucsive)
    (h : (regrantRecord upgrading before after group).2 = .x) :
    ∃ o ∈ (regrantRecord upgrading before after group).1, o.holdsX = true := by
  induction after generalizing before group with
  | nil =>
    rw [regrantRecord] at h ⊢
    simpa using hgroup h
  | cons a after ih =>
    rw [regrantRecord] at h ⊢
    have hround : (regrantRecordOne upgrading before after a group).1.holdsX = true ∨
        regrantRecordOne upgrading before after a group = (a, group) := by
      unfold regrantRecordOne
      split
      · exact Or.inr rfl
      · split
        next hx => exact Or.inl (by simp [LockRequest.holdsX, hx.2])
        next =>
          split
          next hu => exact Or.inl (by simp [LockRequest.holdsX, hup a List.mem_cons_self hu.1])
          next => exact Or.inr rfl
    have hone : (regrantRecordOne upgrading before after a group).2 = .x →
        ∃ o ∈ before ++ [(regrantRecordOne upgrading before after a group).1] ++ after,
          o.holdsX = true := by
      intro hx
      rcases hround with hholds | heq
      · exact ⟨_, by simp, hholds⟩
      · rw [heq] at hx ⊢
        simpa using hgroup hx
    exact ih hone (fun r hr => hup r (List.mem_cons_of_mem a hr)) h

theorem releaseRecord_groupX (q : LockRequestQueue κ) (t : TxnId)
    (hup : ∀ r ∈ q.requestQueue, q.upgrading = some r.txnId → r.lockMode = .exlucsive) :
    (q.releaseRecord t).grantLockRecord.GroupX ∧
      (q.releaseRecord t).grantLockRecord.regrant.GroupX := by
  have hgrant : (q.releaseRecord t).grantLockRecord.GroupX := by
    intro hx
    have hgroup := grantRecord_groupX hx
    rw [releaseRecord_groupMode] at hgroup
    obtain ⟨o, ho, hholds⟩ := (groupRecord_holder _).2 hgroup
    have hgranted : o.granted = true := by
      simp only [LockRequest.holdsX, Bool.and_eq_true] at hholds
      exact hholds.1
    exact ⟨o, (grantRecord_grants _ _).mem_granted ho hgranted, hholds⟩
  refine ⟨hgrant, fun hx => ?_⟩
  refine regrantRecord_groupX (fun hg => by simpa using hgrant hg) (fun r hr hr' => ?_) hx
  obtain ⟨r₀, hr₀, he⟩ := MapM.forall₂_mem_right (Eased.of_grants (grantRecord_grants
    (q.releaseRecord t).requestQueue (q.releaseRecord t).groupMode)) hr
  rw [he.lockMode]
  rw [releaseRecord_requests] at hr₀
  exact hup r₀ (List.mem_of_mem_eraseP hr₀)
    (he.txnId ▸ (releaseRecord_upgrading (q := q) (t := t) hr').1)

end LockRequestQueue

namespace LockState

variable {s s' : LockState κ}

def RecordGroups (s : LockState κ) : Prop := ∀ fd rid, (s.queue (.record fd rid)).GroupX

theorem recordGroups_fresh : (fresh : LockState κ).RecordGroups := by
  intro fd rid hx
  cases hx

/-- A call that leaves the records alone. -/
theorem RecordGroups.tableCall (hi : s.RecordGroups) (fd : Fd) (q : LockRequestQueue κ)
    (wait : Bool → LockWait κ) (out : Outcome) :
    ((s.put (.table fd) q).finishCall t wait out).RecordGroups := by
  intro fd' rid
  rw [finishCall_queue, queue_put_other (by simp)]
  exact hi fd' rid

theorem RecordGroups.wake (hi : s.RecordGroups) (hw : s.WaitShape) (hone : s.OneEach)
    {w : LockWait κ} {r : LockRequest κ} (hp : s.phase t = .waiting w)
    (hr : w.request (s.queue w.id) t = some r) (hready : w.ready r = true)
    (ids : List LockDataId) (keys : List (HeldKey κ)) :
    ((((s.put w.id (w.resume r (s.queue w.id) t)).setPhase t .running).enter t ids).hold
      keys).RecordGroups := by
  intro fd rid
  show ((s.put w.id (w.resume r (s.queue w.id) t)).queue (.record fd rid)).GroupX
  by_cases hid : .record fd rid = w.id
  · rw [hid, queue_put_self]
    obtain ⟨r', hmem, hrt, hfits⟩ := hw.waits t w hp
    have hreq := hone.request hmem
    rw [hrt, hr] at hreq
    cases Option.some.inj hreq
    have hold := hi fd rid
    rw [hid] at hold
    intro hx
    rw [resume_requests]
    cases w with
    | shared fd' rid' isNew =>
      cases isNew with
      | true => exact hold hx
      | false =>
        refine hold ?_
        by_contra hno
        simp only [LockWait.resume, if_neg hno] at hx
        cases hx
    | exclusiveGap fd' rid' index key isNew =>
      refine ⟨r, hmem, ?_⟩
      have hg : r.granted = true := hready
      have hm : r.lockMode = .exlucsive := hfits
      simp [LockRequest.holdsX, hg, hm]
    | gap | is | ix | exclusive => cases hid
  · rw [queue_put_other hid]
    exact hi fd rid

variable [LinearOrder κ]

theorem recordGroups_step {e : LockEv κ} (hi : s.RecordGroups) (hw : s.WaitShape)
    (hone : s.OneEach) (h : s.step e = some s') : s'.RecordGroups := by
  cases e with
  | lockSharedOnRecord t fd rid =>
    simp only [step] at h
    split at h
    next ht =>
      cases Option.some.inj h
      intro fd' rid'
      rw [finishCall_queue]
      by_cases hid : LockDataId.record fd' rid' = .record fd rid
      · rw [hid, queue_put_self]
        exact lockSharedOnRecord_groupX (hi fd rid)
      · rw [queue_put_other hid]
        exact hi fd' rid'
    next => simp at h
  | lockExclusiveOnRecordGap t fd rid index key =>
    simp only [step] at h
    split at h
    next ht =>
      cases Option.some.inj h
      intro fd' rid'
      rw [finishCall_queue, queue_put_other (by simp)]
      by_cases hid : LockDataId.record fd' rid' = .record fd rid
      · rw [hid, queue_put_self]
        exact exclusiveOnRecord_groupX (hi fd rid) (hone.single t _) (hone.records fd rid) _ _
      · rw [queue_put_other hid]
        exact hi fd' rid'
    next => simp at h
  | lockGAPOnTable t fd lower upper index =>
    simp only [step] at h
    split at h
    next ht =>
      cases Option.some.inj h
      exact hi.tableCall fd _ _ _
    next => simp at h
  | lockISOnTable t fd =>
    simp only [step] at h
    split at h
    next ht =>
      obtain ⟨⟨q, out⟩, hcall, rfl⟩ := Option.map_eq_some_iff.mp h
      exact hi.tableCall fd _ _ _
    next => simp at h
  | lockIXOnTable t fd =>
    simp only [step] at h
    split at h
    next ht =>
      cases Option.some.inj h
      exact hi.tableCall fd _ _ _
    next => simp at h
  | lockExclusiveOnTable t fd =>
    simp only [step] at h
    split at h
    next ht =>
      cases Option.some.inj h
      exact hi.tableCall fd _ _ _
    next => simp at h
  | wake t =>
    simp only [step] at h
    split at h
    next w hp =>
      split at h
      next r hr =>
        split at h
        next hready =>
          cases Option.some.inj h
          exact hi.wake hw hone hp hr hready _ _
        next => simp at h
      next => simp at h
    next => simp at h
  | finish t =>
    simp only [step] at h
    split at h
    next ht =>
      cases Option.some.inj h
      exact hi
    next => simp at h
  | unlock t id =>
    simp only [step] at h
    split at h
    next ht =>
      cases id with
      | table fd =>
        obtain ⟨locks, hu, rfl⟩ := Option.map_eq_some_iff.mp h
        by_cases hfind : (s.locks.queue (.table fd)).find t = none
        · rw [unlockTable_none hfind hu]
          exact hi
        · have hspec := unlockTable_queues hfind hu
          intro fd' rid
          show (locks.queue (.record fd' rid)).GroupX
          by_cases hfd : fd' = fd
          · subst hfd
            intro hx
            rw [hspec.recordGroup] at hx
            obtain ⟨o, ho, hholds⟩ := hi fd' rid hx
            obtain ⟨o', ho', he⟩ := MapM.forall₂_mem_left (Eased.of_grants (hspec.records rid)) ho
            exact ⟨o', ho', he.holdsX hholds⟩
          · rw [hspec.others _ (by simp) (by simp [hfd])]
            exact hi fd' rid
      | record fd rid =>
        cases Option.some.inj h
        by_cases hfind : (s.locks.queue (.record fd rid)).find t = none
        · rw [unlockRecord_none hfind]
          exact hi
        · have hspec := unlockRecord_queues hfind
          intro fd' rid'
          show ((Grmdb.unlockRecord s.locks t fd rid).queue (.record fd' rid')).GroupX
          by_cases hid : LockDataId.record fd' rid' = .record fd rid
          · rw [hid]
            obtain ⟨q, hq, hreq, hgroup⟩ := hspec.result
            obtain ⟨hgrant, hregrant⟩ := releaseRecord_groupX (s.locks.queue (.record fd rid)) t
              (hw.upgrades_exclusive (.record fd rid))
            unfold GroupX
            rw [hreq, hgroup]
            rcases hq with rfl | ⟨_, rfl⟩
            · exact hregrant
            · exact hgrant
          · rw [hspec.others _ hid (by simp)]
            exact hi fd' rid'
    next => simp at h

end LockState

end Grmdb
