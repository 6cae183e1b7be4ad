import Grmdb.RecordExclusion
import Grmdb.TableCalls
import Grmdb.TableRelease

namespace Grmdb

open Runs

variable {κ : Type}

/-- `lock_exclusive_on_record_gap` leaves the table queue alone, or its transaction dies there. -/
theorem exclusiveOnRecord_table (queueRec queueTable : LockRequestQueue κ) (t : TxnId)
    (isWaited : Bool) :
    (queueRec.exclusiveOnRecord queueTable t isWaited).2.1 = queueTable ∨
      (queueRec.exclusiveOnRecord queueTable t isWaited).2.1 = queueTable.withdraw t ∧
        queueTable.groupMode = .gap := by
  have hboth : ∀ (q : LockRequestQueue κ) (isNew : Bool),
      (q.orDieBoth queueTable t isNew).2.1 = queueTable ∨
      (q.orDieBoth queueTable t isNew).2.1 = queueTable.withdraw t ∧
        queueTable.groupMode = .gap := by
    intro q isNew
    unfold LockRequestQueue.orDieBoth
    split
    · exact Or.inl rfl
    · split
      next hd => exact Or.inr ⟨rfl, hd.1⟩
      next => exact Or.inl rfl
  have hfirst : ∀ (q : LockRequestQueue κ) (isNew : Bool),
      (q.orDieTableFirst queueTable t isNew).2.1 = queueTable ∨
      (q.orDieTableFirst queueTable t isNew).2.1 = queueTable.withdraw t ∧
        queueTable.groupMode = .gap := by
    intro q isNew
    unfold LockRequestQueue.orDieTableFirst
    split
    next hd => exact Or.inr ⟨rfl, hd.1⟩
    next => split <;> exact Or.inl rfl
  have hnew : (LockRequestQueue.exclusiveOnRecord.exclusiveNew queueRec queueTable t
        isWaited).2.1 = queueTable ∨
      (LockRequestQueue.exclusiveOnRecord.exclusiveNew queueRec queueTable t
        isWaited).2.1 = queueTable.withdraw t ∧ queueTable.groupMode = .gap := by
    unfold LockRequestQueue.exclusiveOnRecord.exclusiveNew
    dsimp only
    split
    · split
      · exact hfirst _ _
      · exact Or.inl rfl
    · split
      · exact Or.inl rfl
      · exact hboth _ _
  unfold LockRequestQueue.exclusiveOnRecord
  split
  · split
    · split
      · exact Or.inl rfl
      · dsimp only
        split
        · exact hboth _ _
        · exact Or.inl rfl
    · split
      · exact Or.inl rfl
      · exact hnew
  · exact hnew

theorem clearUpgrading_upgrading (q : LockRequestQueue κ) (t : TxnId) :
    (q.clearUpgrading t).upgrading = if q.upgrading = some t then none else q.upgrading := by
  unfold LockRequestQueue.clearUpgrading
  split <;> rfl

namespace LockState

/-- No other transaction has anything on a table that is locked in EXLUCSIVE mode. -/
def TablesExclusive (s : LockState κ) : Prop :=
  ∀ fd, TableExclusive (s.queue (.table fd)).requestQueue

def TabInv (s : LockState κ) : Prop :=
  ∀ fd, TabOk fd s.phase (s.queue (.table fd))

/-- A gap is asked for on a table only after an intention lock. -/
def GapAfterIS (s : LockState κ) : LockEv κ → Prop
  | .lockGAPOnTable t fd _ _ _ => (s.queue (.table fd)).find t ≠ none
  | _ => True

section Condition

variable [LinearOrder κ]

/-- What an unlock of a table has to find: the holders that stay are seen by the grants that it
makes, and it gives no key that still lies in a gap. -/
def HoldersSeen (s : LockState κ) : LockEv κ → Prop
  | .unlock t (.table fd) =>
    let q := (s.queue (.table fd)).releaseTable t
    (q.groupMode = .noLock → SeesHolders q.insertKeys q.requestQueue q.requestQueue) ∧
      ∀ k ∈ s.grantedKeys t fd, q.keyInGap k.txnId k.index k.insertKey = false
  | _ => True

end Condition

theorem tabOk_empty {phase : TxnId → TxnPhase κ} {fd : Fd} (h : ∀ t, PhaseOk fd (phase t)) :
    TabOk fd phase .empty :=
  ⟨by simp [LockRequestQueue.empty], by simp [TabXAlone, LockRequestQueue.empty],
    by simp [LockRequestQueue.empty], by simp [LockRequestQueue.empty],
    by simp [LockRequestQueue.empty], by simp [LockRequestQueue.empty], h⟩

theorem tabInv_fresh : (fresh : LockState κ).TabInv :=
  fun _ => tabOk_empty fun _ => PhaseOk.running

/-- The tables that a call does not touch. -/
theorem TabInv.elsewhere {s s' : LockState κ} (hi : s.TabInv) {t : TxnId}
    (ht : s.phase t = .running) {fd : Fd}
    (hqueue : s'.queue (.table fd) = s.queue (.table fd))
    (hphase : ∀ u, u ≠ t → s'.phase u = s.phase u)
    (hw : ∀ w, s'.phase t = .waiting w → w.id ≠ .table fd) :
    TabOk fd s'.phase (s'.queue (.table fd)) := by
  rw [hqueue]
  refine (hi fd).leave ht hphase ⟨?_, ?_, ?_⟩ ?_
  · exact fun h => hw _ h rfl
  · exact fun h => hw _ h rfl
  · exact fun _ h => hw _ h rfl
  · exact fun _ h => hw _ h rfl

theorem phase_waiting {wait : Bool → LockWait κ} {out : Outcome} {w : LockWait κ}
    (h : out.phase wait = .waiting w) : ∃ b, w = wait b := by
  cases out with
  | waits b => exact ⟨b, by simpa [Outcome.phase] using h.symm⟩
  | returns _ => simp [Outcome.phase] at h
  | aborts => simp [Outcome.phase] at h

/-- A call on the queue of one table. -/
theorem TabInv.tableCall {s : LockState κ} (hi : s.TabInv) {t : TxnId}
    (ht : s.phase t = .running) {fd : Fd} {wait : Bool → LockWait κ}
    (hwait : ∀ b, (wait b).id = .table fd) {q : LockRequestQueue κ} {out : Outcome}
    (hq : ∀ phase' : TxnId → TxnPhase κ, (∀ u, u ≠ t → phase' u = s.phase u) →
      phase' t = out.phase wait → TabOk fd phase' q) :
    ((s.put (.table fd) q).finishCall t wait out).TabInv := by
  intro fd'
  have hself : ((s.put (.table fd) q).finishCall t wait out).phase t = out.phase wait :=
    finishCall_phase_self (s := s.put (.table fd) q) ht wait out
  by_cases hfd : fd' = fd
  · subst hfd
    rw [finishCall_queue, queue_put_self]
    exact hq _ (fun u hu => finishCall_phase_other hu wait out) hself
  · refine hi.elsewhere ht ?_ (fun u hu => finishCall_phase_other hu wait out) ?_
    · rw [finishCall_queue, queue_put_other (by simpa using hfd)]
    · intro w hw
      rw [hself] at hw
      obtain ⟨b, rfl⟩ := phase_waiting hw
      rw [hwait b]
      simpa using Ne.symm hfd

theorem TabInv.recordCall {s : LockState κ} (hi : s.TabInv) {t : TxnId}
    (ht : s.phase t = .running) {fd : Fd} {rid : Rid} {wait : Bool → LockWait κ}
    (hwait : ∀ b, (wait b).id = .record fd rid) (q : LockRequestQueue κ) (out : Outcome) :
    ((s.put (.record fd rid) q).finishCall t wait out).TabInv := by
  intro fd'
  refine hi.elsewhere ht ?_ (fun u hu => finishCall_phase_other hu wait out) ?_
  · rw [finishCall_queue, queue_put_other (by simp)]
  · intro w hw
    rw [finishCall_phase_self (s := s.put (.record fd rid) q) ht] at hw
    obtain ⟨b, rfl⟩ := phase_waiting hw
    simp [hwait b]

theorem TabInv.finish {s : LockState κ} (hi : s.TabInv) {t : TxnId} (ht : s.phase t = .running) :
    (s.setPhase t .finishing).TabInv := by
  intro fd
  refine hi.elsewhere ht rfl (fun u hu => by simp [setPhase, hu]) ?_
  simp [setPhase]

theorem request_mem {q : LockRequestQueue κ} {t : TxnId} {w : LockWait κ} {r : LockRequest κ}
    (hr : w.request q t = some r) : r ∈ q.requestQueue ∧ r.txnId = t := by
  unfold LockWait.request at hr
  split at hr
  · have hmem := List.mem_of_getLast? hr
    simpa using hmem
  · exact LockRequestQueue.find_mem hr

/-- A wait for a table that is over: the request is granted, unless the wait was for a gap. -/
theorem request_granted {fd : Fd} {phase : TxnId → TxnPhase κ} {q : LockRequestQueue κ}
    (h : TabOk fd phase q) {t : TxnId} {w : LockWait κ} {r : LockRequest κ}
    (hp : phase t = .waiting w) (hr : w.request q t = some r) (hready : w.ready r = true) :
    ∀ o ∈ q.requestQueue, o.txnId = t → o.granted = true := by
  intro o ho hot
  obtain ⟨hrmem, hrt⟩ := request_mem hr
  have heq : o = r := List.inj_on_of_nodup_map h.nodup ho hrmem (by rw [hot, hrt])
  by_contra hg
  have hg' : o.granted = false := by simpa using hg
  obtain ⟨_, _, w', hw', _, hawait⟩ := (h.requests o ho).waits hg'
  rw [hot, hp] at hw'
  cases hw'
  cases w <;> simp_all [LockWait.awaitsGrant, LockWait.ready]

theorem exclusive_tabX {fd : Fd} {phase : TxnId → TxnPhase κ} {q : LockRequestQueue κ}
    (h : TabOk fd phase q) {t : TxnId} {isNew : Bool} {r : LockRequest κ}
    (hp : phase t = .waiting (.exclusive fd isNew))
    (hr : (LockWait.exclusive fd isNew).request q t = some r)
    (hready : (LockWait.exclusive fd isNew : LockWait κ).ready r = true) :
    q.groupMode = .tabX := by
  obtain ⟨hmem, hrt⟩ := request_mem hr
  have hmode := (h.requests r hmem).exclusive isNew (by rw [hrt]; exact hp)
  have hg : r.granted = true := hready
  exact (h.alone r hmem (by simp [LockRequest.holdsX, hmode, hg])).1

theorem TabInv.wake {s : LockState κ} (hi : s.TabInv) {t : TxnId} {w : LockWait κ}
    {r : LockRequest κ} (hp : s.phase t = .waiting w) (hr : w.request (s.queue w.id) t = some r)
    (hready : w.ready r = true) (ids : List LockDataId) (keys : List (HeldKey κ)) :
    ((((s.put w.id (w.resume r (s.queue w.id) t)).setPhase t .running).enter t ids).hold
      keys).TabInv := by
  intro fd
  show TabOk fd (fun x => if x = t then .running else s.phase x)
    ((s.put w.id (w.resume r (s.queue w.id) t)).queue (.table fd))
  have hold := hi fd
  -- the transaction holds what it has on the table
  have hgranted : ∀ o ∈ (s.queue (.table fd)).requestQueue, o.txnId = t → o.granted = true := by
    intro o ho hot
    by_cases hid : w.id = .table fd
    · rw [hid] at hr
      exact request_granted hold hp hr hready o ho hot
    · by_contra hg
      obtain ⟨_, _, w', hw', hid', _⟩ := (hold.requests o ho).waits (by simpa using hg)
      rw [hot, hp] at hw'
      cases hw'
      exact hid hid'
  have hwoken : ∀ q' : LockRequestQueue κ,
      q'.requestQueue = (s.queue (.table fd)).requestQueue →
      q'.groupMode = (s.queue (.table fd)).groupMode → q'.upgrading ≠ some t →
      (∀ u, u ≠ t → (q'.upgrading = some u ↔ (s.queue (.table fd)).upgrading = some u)) →
      TabOk fd (fun x => if x = t then .running else s.phase x) q' := by
    intro q' hq hgroup hup hupo
    refine hold.call (t := t) (fun u hu => by simp [hu]) ?_ ?_ ?_ ?_ ?_ hupo
      (fun hu => absurd hu hup) ?_ ?_
    · exact hq ▸ hold.nodup
    · rw [hq, hgroup]
      exact hold.alone
    · exact hgroup ▸ hold.group
    · rw [hq, hgroup]
      exact hold.seen
    · rw [hq]
      exact fun r hr _ => hr
    · intro o ho hot
      rw [hq] at ho
      exact requestOk_granted (hold.requests o ho).mode (hgranted o ho hot) (by simp)
    · simpa using PhaseOk.running
  have hup : w ≠ .exclusive fd false → (s.queue (.table fd)).upgrading ≠ some t := by
    intro hw hu
    have := hold.upgrader t hu
    rw [hp] at this
    cases this
    exact hw rfl
  by_cases hid : w.id = .table fd
  · rw [hid, queue_put_self]
    rw [hid] at hr
    have hphase := hold.phases t
    rw [hp] at hphase
    obtain ⟨his, hix, hgap⟩ := hphase
    have hsame : w ≠ .exclusive fd false → w.resume r (s.queue (.table fd)) t =
        s.queue (.table fd) → TabOk fd (fun x => if x = t then .running else s.phase x)
          (w.resume r (s.queue (.table fd)) t) := by
      intro hw he
      rw [he]
      exact hwoken _ rfl rfl (hup hw) fun _ _ => Iff.rfl
    cases w with
    | shared fd' rid isNew => simp [LockWait.id] at hid
    | exclusiveGap fd' rid index key isNew => simp [LockWait.id] at hid
    | gap fd' isNew first =>
      cases first with
      | false => exact hsame (by simp) rfl
      | true => simp_all [LockWait.id]
    | is fd' isNew =>
      cases isNew with
      | false => simp_all [LockWait.id]
      | true => exact hsame (by simp) rfl
    | ix fd' isNew =>
      cases isNew with
      | false => simp_all [LockWait.id]
      | true => exact hsame (by simp) rfl
    | exclusive fd' isNew =>
      obtain rfl : fd' = fd := by simpa [LockWait.id] using hid
      have htab : (s.queue (.table fd')).groupMode = .tabX :=
        exclusive_tabX hold hp hr hready
      cases isNew with
      | false =>
        refine hwoken _ (clearUpgrading_requests _ t) ?_ ?_ fun u hu => ?_
        · rw [htab]
          exact clearUpgrading_groupMode _ t
        · rw [LockWait.resume, clearUpgrading_upgrading]
          split
          · simp
          next hne => exact hne
        · rw [LockWait.resume, clearUpgrading_upgrading]
          exact clear_upgrading_iff hu
      | true =>
        refine hwoken _ rfl ?_ (hup (by simp)) fun _ _ => Iff.rfl
        rw [htab]
        rfl
  · rw [queue_put_other (Ne.symm hid)]
    refine hwoken _ rfl rfl (hup ?_) fun _ _ => Iff.rfl
    rintro rfl
    exact hid rfl

theorem TabInv.unlockRecord {s : LockState κ} (hi : s.TabInv) (t : TxnId) (fd : Fd) (rid : Rid)
    (lockSet : TxnId → List LockDataId) :
    TabInv { s with locks := unlockRecord s.locks t fd rid, lockSet := lockSet } := by
  intro fd'
  obtain ⟨hother, htable, _⟩ := unlockRecord_cases (rfl : Grmdb.unlockRecord s.locks t fd rid = _)
  show TabOk fd' s.phase ((Grmdb.unlockRecord s.locks t fd rid (.table fd')).getD .empty)
  by_cases hfd : fd' = fd
  · subst hfd
    rcases htable with htable | htable
    · rw [htable]
      exact hi fd'
    · rw [htable]
      have hold := hi fd'
      unfold queue at hold
      cases hq : s.locks (.table fd') with
      | none => simpa [hq] using hold
      | some q =>
        rw [hq] at hold
        exact hold.congr rfl rfl rfl
  · rw [hother _ (by simp) (by simpa using hfd)]
    exact hi fd'

section Order

variable [LinearOrder κ]

theorem exclusiveGap_table (queueRec queueTable : LockRequestQueue κ) (t : TxnId) (rid : Rid)
    (index : IndexId) (key : κ) :
    ((queueRec.lockExclusiveOnRecordGap queueTable t rid index key).2.1.requestQueue =
        queueTable.requestQueue ∧
      (queueRec.lockExclusiveOnRecordGap queueTable t rid index key).2.1.groupMode =
        queueTable.groupMode ∧
      (queueRec.lockExclusiveOnRecordGap queueTable t rid index key).2.1.upgrading =
        queueTable.upgrading) ∨
    ∃ mid : LockRequestQueue κ, mid.requestQueue = queueTable.requestQueue ∧
      mid.groupMode = queueTable.groupMode ∧ mid.upgrading = queueTable.upgrading ∧
      (queueRec.lockExclusiveOnRecordGap queueTable t rid index key).2.1 = mid.withdraw t ∧
      queueTable.groupMode = .gap := by
  unfold LockRequestQueue.lockExclusiveOnRecordGap
  dsimp only
  generalize hmid : ({ queueTable with insertKeys := queueTable.insertKeys ++
    [⟨key, index, t, rid, queueTable.keyInGap t index key⟩] } : LockRequestQueue κ) = mid
  have hsame : mid.requestQueue = queueTable.requestQueue ∧
      mid.groupMode = queueTable.groupMode ∧ mid.upgrading = queueTable.upgrading := by
    rw [← hmid]
    exact ⟨rfl, rfl, rfl⟩
  rcases exclusiveOnRecord_table queueRec mid t (queueTable.keyInGap t index key) with
    hq | ⟨hq, hgap⟩
  · rw [hq]
    exact Or.inl hsame
  · exact Or.inr ⟨mid, hsame.1, hsame.2.1, hsame.2.2, hq, hsame.2.1 ▸ hgap⟩

theorem TabInv.exclusiveGap {s : LockState κ} (hi : s.TabInv) {t : TxnId}
    (ht : s.phase t = .running) (fd : Fd) (rid : Rid) (index : IndexId) (key : κ) :
    (((s.put (.record fd rid) ((s.queue (.record fd rid)).lockExclusiveOnRecordGap
      (s.queue (.table fd)) t rid index key).1).put (.table fd)
      ((s.queue (.record fd rid)).lockExclusiveOnRecordGap (s.queue (.table fd)) t rid index
        key).2.1).finishCall t (.exclusiveGap fd rid index key)
      ((s.queue (.record fd rid)).lockExclusiveOnRecordGap (s.queue (.table fd)) t rid index
        key).2.2).TabInv := by
  intro fd'
  generalize hcall : (s.queue (.record fd rid)).lockExclusiveOnRecordGap (s.queue (.table fd)) t
    rid index key = call
  have hphase : ∀ u, u ≠ t → (((s.put (.record fd rid) call.1).put (.table fd)
      call.2.1).finishCall t (.exclusiveGap fd rid index key) call.2.2).phase u = s.phase u :=
    fun u hu => finishCall_phase_other hu _ _
  have hself : (((s.put (.record fd rid) call.1).put (.table fd) call.2.1).finishCall t
      (.exclusiveGap fd rid index key) call.2.2).phase t =
        call.2.2.phase (.exclusiveGap fd rid index key) :=
    finishCall_phase_self (s := (s.put _ _).put _ _) ht _ _
  have hwait : ∀ w, call.2.2.phase (.exclusiveGap fd rid index key) = .waiting w →
      w.id ≠ .table fd' := by
    intro w hw
    obtain ⟨b, rfl⟩ := phase_waiting hw
    simp [LockWait.id]
  by_cases hfd : fd' = fd
  · subst hfd
    rw [finishCall_queue, queue_put_self]
    generalize (((s.put (.record fd' rid) call.1).put (.table fd') call.2.1).finishCall t
      (.exclusiveGap fd' rid index key) call.2.2).phase = phase' at hphase hself ⊢
    have hok : PhaseOk fd' (call.2.2.phase (.exclusiveGap fd' rid index key)) :=
      ⟨fun h => hwait _ h rfl, fun h => hwait _ h rfl, fun _ h => hwait _ h rfl⟩
    have hold := hi fd'
    rcases exclusiveGap_table (s.queue (.record fd' rid)) (s.queue (.table fd')) t rid index key
      with ⟨hq, hg, hup⟩ | ⟨mid, hmid, hg, hup, hq⟩
    · rw [hcall] at hq hg hup
      exact (hold.leave ht hphase (by rw [hself]; exact hok)
        (by rw [hself]; exact fun _ h => hwait _ h rfl)).congr hq hg hup
    · rw [hcall] at hq
      rw [hq.1]
      refine hold.withdraw hphase (hmid ▸ hold.nodup) ?_ (hg ▸ hold.group) (by simp [hg, hq.2])
        (by rw [hmid]; exact fun r hr _ => hr) (by simp [hup]) (by rw [hself]; exact hok)
      rw [hmid, hg]
      exact hold.alone
  · refine hi.elsewhere ht ?_ hphase (by rw [hself]; exact hwait)
    rw [finishCall_queue, queue_put_other (by simpa using hfd), queue_put_other (by simp)]

theorem TabInv.unlockTable {s : LockState κ} (hi : s.TabInv) {t : TxnId} {fd : Fd}
    {locks : Locks κ} (ht : s.phase t = .finishing) (hseen : s.HoldersSeen (.unlock t (.table fd)))
    (hu : unlockTable s.locks t fd = some locks) (lockSet : TxnId → List LockDataId) :
    TabInv { s with locks := locks, lockSet := lockSet } := by
  intro fd'
  show TabOk fd' s.phase ((locks (.table fd')).getD .empty)
  rcases unlockTable_cases hu with ⟨rfl, _⟩ | ⟨q, hq, hf, hcase⟩
  · exact hi fd'
  · have hqueue : s.queue (.table fd) = q := by simp [queue, hq]
    obtain ⟨hsees, hkeys⟩ := hseen
    rw [hqueue] at hsees hkeys
    rcases hcase with ⟨_, _, rfl⟩ | ⟨out, hspec, rfl⟩
    · by_cases hfd : fd' = fd
      · subst hfd
        rw [Locks.set_self]
        exact tabOk_empty (hi fd').phases
      · rw [Locks.set_other (by simpa using hfd)]
        exact hi fd'
    · by_cases hfd : fd' = fd
      · subst hfd
        rw [Locks.set_self]
        have hold := hi fd'
        rw [hqueue] at hold
        have hgroup : out.2.2 = (q.releaseTable t).grantLockTable.groupMode := by
          rcases hspec.newGroup with hg | ⟨k, hk, hgk, hin⟩
          · exact hg
          · have hno := hkeys k ((mem_grantedKeys hq hf k).mpr ⟨hk, hgk⟩)
            have hsame := grantTable_keyInGap (q.releaseTable t).upgrading
              (q.releaseTable t).insertKeys [] (q.releaseTable t).requestQueue
              (q.releaseTable t).groupMode k.txnId k.index k.insertKey
            have hin' : (q.releaseTable t).keyInGap k.txnId k.index k.insertKey = true :=
              hsame.symm.trans hin
            simp [hno] at hin'
        exact (hold.release ht hsees).congr rfl hgroup rfl
      · rw [Locks.set_other (by simpa using hfd), hspec.tables _ (by simp)]
        exact hi fd'

theorem tabInv_step {s s' : LockState κ} {e : LockEv κ} (hi : s.TabInv)
    (hgood : s.GapAfterIS e ∧ s.HoldersSeen e) (h : s.step e = some s') : s'.TabInv := by
  cases e with
  | lockSharedOnRecord t fd rid =>
    simp only [step] at h
    split at h
    next ht =>
      cases Option.some.inj h
      exact hi.recordCall ht (fun _ => rfl) _ _
    next => simp at h
  | lockExclusiveOnRecordGap t fd rid index key =>
    simp only [step] at h
    split at h
    next ht =>
      cases Option.some.inj h
      exact hi.exclusiveGap ht fd rid index key
    next => simp at h
  | lockGAPOnTable t fd lower upper index =>
    simp only [step] at h
    split at h
    next ht =>
      cases Option.some.inj h
      refine hi.tableCall ht (fun _ => rfl) fun phase' hphase hpt => ?_
      exact lockGAPOnTable_ok (hi fd) ht hphase hgood.1 lower upper index hpt
    next => simp at h
  | lockISOnTable t fd =>
    simp only [step] at h
    split at h
    next ht =>
      obtain ⟨⟨q, out⟩, hcall, rfl⟩ := Option.map_eq_some_iff.mp h
      refine hi.tableCall ht (fun _ => rfl) fun phase' hphase hpt => ?_
      exact lockISOnTable_ok (hi fd) ht hphase hcall hpt
    next => simp at h
  | lockIXOnTable t fd =>
    simp only [step] at h
    split at h
    next ht =>
      cases Option.some.inj h
      refine hi.tableCall ht (fun _ => rfl) fun phase' hphase hpt => ?_
      exact lockIXOnTable_ok (hi fd) ht hphase hpt
    next => simp at h
  | lockExclusiveOnTable t fd =>
    simp only [step] at h
    split at h
    next ht =>
      cases Option.some.inj h
      refine hi.tableCall ht (fun _ => rfl) fun phase' hphase hpt => ?_
      exact lockExclusiveOnTable_ok (hi fd) ht hphase hpt
    next => simp at h
  | wake t =>
    simp only [step] at h
    split at h
    next w hp =>
      split at h
      next r hr =>
        split at h
        next hready =>
          cases Option.some.inj h
          exact hi.wake hp hr hready _ _
        next => simp at h
      next => simp at h
    next => simp at h
  | finish t =>
    simp only [step] at h
    split at h
    next ht =>
      cases Option.some.inj h
      exact hi.finish ht
    next => simp at h
  | unlock t id =>
    simp only [step] at h
    split at h
    next ht =>
      cases id with
      | table fd =>
        obtain ⟨locks, hu, rfl⟩ := Option.map_eq_some_iff.mp h
        exact hi.unlockTable ht.1 hgood.2 hu _
      | record fd rid =>
        cases Option.some.inj h
        exact hi.unlockRecord t fd rid _
    next => simp at h

/-- An exclusively locked table has one holder, and nobody else has a gap on it, in every state
that is reached by steps that meet `HoldersSeen`. -/
theorem tablesExclusive_of_holdersSeen {tr : List (LockEv κ)} {s : LockState κ}
    (h : run step fresh tr = some s) (his : MeetsAll step GapAfterIS fresh tr)
    (hseen : MeetsAll step HoldersSeen fresh tr) : s.TablesExclusive := by
  have hinv : s.TabInv :=
    run_invariant (fun _ _ _ hi hgood => tabInv_step hi hgood) tabInv_fresh
      (meetsAll_and his hseen) h
  exact fun fd => (hinv fd).alone.exclusive

instance (s : LockState κ) (e : LockEv κ) : Decidable (s.GapAfterIS e) :=
  match e with
  | .lockGAPOnTable _ _ _ _ _ => inferInstanceAs (Decidable (_ ≠ _))
  | .unlock _ _ | .lockSharedOnRecord _ _ _ | .lockExclusiveOnRecordGap _ _ _ _ _
  | .lockISOnTable _ _ | .lockIXOnTable _ _ | .lockExclusiveOnTable _ _ | .wake _ | .finish _ =>
    isTrue trivial

instance (s : LockState κ) (e : LockEv κ) : Decidable (s.HoldersSeen e) :=
  match e with
  | .unlock _ (.table _) => inferInstanceAs (Decidable (_ ∧ ∀ _ ∈ _, _))
  | .unlock _ (.record _ _) | .lockSharedOnRecord _ _ _ | .lockExclusiveOnRecordGap _ _ _ _ _
  | .lockGAPOnTable _ _ _ _ _ | .lockISOnTable _ _ | .lockIXOnTable _ _
  | .lockExclusiveOnTable _ _ | .wake _ | .finish _ => isTrue trivial

end Order

/-- A writer of the whole table waits for a scan and gets the table when the scan is over. -/
def scanThenExclusive : List (LockEv Int) :=
  [.lockISOnTable 1 3, .lockGAPOnTable 1 3 0 10 4, .lockExclusiveOnTable 0 3, .finish 1,
    .unlock 1 (.table 3), .wake 0]

theorem tablesExclusive_scanThenExclusive : ∃ s, run step fresh scanThenExclusive = some s ∧
    (s.queue (.table 3)).requestQueue = [⟨0, .exlucsive, true, []⟩] ∧ s.TablesExclusive :=
  ⟨_, rfl, rfl, tablesExclusive_of_holdersSeen
    (show run step fresh scanThenExclusive = some _ from rfl) (by decide) (by decide)⟩

/-- Transaction 0 waits to upgrade its scan to the whole table and 1 waits for the table; the end
of 2 gives it to 1 beside the gap of 0. -/
def upgradeOvertaken : List (LockEv Int) :=
  [.lockISOnTable 2 3, .lockExclusiveOnTable 1 3, .lockISOnTable 0 3, .lockGAPOnTable 0 3 0 10 4,
    .lockExclusiveOnTable 0 3, .finish 2, .unlock 2 (.table 3)]

theorem not_tablesExclusive_upgradeOvertaken : ∃ s, run step fresh upgradeOvertaken = some s ∧
    MeetsAll step GapAfterIS fresh upgradeOvertaken ∧
    (s.queue (.table 3)).requestQueue =
      [⟨1, .exlucsive, true, []⟩, ⟨0, .exlucsive, false, [⟨0, 10, 4, false⟩]⟩] ∧
    ¬ s.TablesExclusive := by
  refine ⟨_, rfl, by decide, rfl, fun h => ?_⟩
  have hno := h 3 ⟨1, .exlucsive, true, []⟩ (by decide) rfl
    ⟨0, .exlucsive, false, [⟨0, 10, 4, false⟩]⟩ (by decide) (by decide)
  cases hno.2

end LockState

end Grmdb
