import Grmdb.LockSteps
import Grmdb.RecordRelease
import Grmdb.Runs

namespace Grmdb

open Runs

variable {κ : Type}

/-- No other transaction holds a record that is locked in EXLUCSIVE mode. -/
def LockState.RecordsExclusive (s : LockState κ) : Prop :=
  ∀ fd rid, ExclusiveList (s.queue (.record fd rid)).requestQueue

def LockState.RecInv (s : LockState κ) : Prop :=
  ∀ fd rid, RecOk (.record fd rid) s.phase (s.queue (.record fd rid))

section Frame

variable [LinearOrder κ]

/-- `grant_lock` leaves every gap where it is. -/
theorem grantTableOne_keeps (upgrading : Option TxnId) (keys : List (InsertKey κ))
    (before after : List (LockRequest κ)) (r : LockRequest κ) (group : GroupMode) :
    (grantTableOne upgrading keys before after r group).1.txnId = r.txnId ∧
    (grantTableOne upgrading keys before after r group).1.lockMode = r.lockMode ∧
    ((grantTableOne upgrading keys before after r group).1.gaps = r.gaps ∨
      (grantTableOne upgrading keys before after r group).1.gaps = (resetGaps keys r).gaps) := by
  have hswitch : (grantSwitch keys r group).request.txnId = r.txnId ∧
      (grantSwitch keys r group).request.lockMode = r.lockMode ∧
      ((grantSwitch keys r group).request.gaps = r.gaps ∨
        (grantSwitch keys r group).request.granted = false ∧
        (grantSwitch keys r group).request.gaps = (resetGaps keys r).gaps) := by
    unfold grantSwitch
    split
    · simp
    · split
      · split <;> simp
      · split <;> simp
      · split <;> simp
      · split
        · simp_all [resetGaps]
        · simp
      · simp
  have hreset : (grantReset keys (grantSwitch keys r group)).request.txnId = r.txnId ∧
      (grantReset keys (grantSwitch keys r group)).request.lockMode = r.lockMode ∧
      ((grantReset keys (grantSwitch keys r group)).request.gaps = r.gaps ∨
        (grantReset keys (grantSwitch keys r group)).request.gaps = (resetGaps keys r).gaps) := by
    obtain ⟨ht, hm, hg⟩ := hswitch
    unfold grantReset
    split
    next hgap =>
      refine ⟨ht, hm, ?_⟩
      rcases hg with hg | ⟨hno, _⟩
      · right
        simp [resetGaps, hg, ht]
      · simp [hno] at hgap
    next =>
      refine ⟨ht, hm, ?_⟩
      rcases hg with hg | ⟨_, hg⟩
      · exact Or.inl hg
      · exact Or.inr hg
  unfold grantTableOne grantUpgrade
  split
  · exact hreset
  · exact hreset

theorem resetGaps_hits (keys : List (InsertKey κ)) (r : LockRequest κ) (index : IndexId) (key : κ) :
    ((resetGaps keys r).gaps.any fun g => g.hits index key) =
      r.gaps.any fun g => g.hits index key := by
  unfold resetGaps
  rw [List.any_map]
  congr 1
  funext g
  simp only [Function.comp_apply]
  split <;> rfl

theorem grantTable_keyInGap (upgrading : Option TxnId) (keys : List (InsertKey κ))
    (before after : List (LockRequest κ)) (group : GroupMode) (t : TxnId) (index : IndexId)
    (key : κ) :
    ((grantTable upgrading keys before after group).1.any fun r =>
      decide (r.txnId ≠ t) && r.gaps.any fun g => g.hits index key) =
    ((before ++ after).any fun r =>
      decide (r.txnId ≠ t) && r.gaps.any fun g => g.hits index key) := by
  induction after generalizing before group with
  | nil => simp [grantTable]
  | cons r after ih =>
    obtain ⟨ht, _, hg⟩ := grantTableOne_keeps upgrading keys before after r group
    have hits : ((grantTableOne upgrading keys before after r group).1.gaps.any
        fun g => g.hits index key) = r.gaps.any fun g => g.hits index key := by
      rcases hg with hg | hg
      · rw [hg]
      · rw [hg, resetGaps_hits]
    rw [grantTable, ih]
    simp [ht, hits]

theorem grantLockTable_grantsKey (q : LockRequestQueue κ) (fd : Fd) (locks : Locks κ)
    (k : InsertKey κ) : q.grantLockTable.grantsKey fd locks k = q.grantsKey fd locks k := by
  have hin : q.grantLockTable.keyInGap k.txnId k.index k.insertKey =
      q.keyInGap k.txnId k.index k.insertKey :=
    grantTable_keyInGap q.upgrading q.insertKeys [] q.requestQueue q.groupMode k.txnId k.index
      k.insertKey
  simp only [LockRequestQueue.grantsKey, LockRequestQueue.frees, hin]
  rfl

end Frame

theorem LockWait.shared_at (fd : Fd) (rid : Rid) (b : Bool) :
    (LockWait.shared fd rid b : LockWait κ).id = .record fd rid ∧
      (LockWait.shared fd rid b : LockWait κ).isNew = b := ⟨rfl, rfl⟩

theorem LockWait.exclusiveGap_at (fd : Fd) (rid : Rid) (index : IndexId) (key : κ) (b : Bool) :
    (LockWait.exclusiveGap fd rid index key b).id = .record fd rid ∧
      (LockWait.exclusiveGap fd rid index key b).isNew = b := ⟨rfl, rfl⟩

namespace LockState

/-- A transaction that starts to wait for another queue keeps what it has here. -/
theorem ownGranted_elsewhere {id : LockDataId} {q : LockRequestQueue κ} {t : TxnId}
    {wait : Bool → LockWait κ} (hwait : ∀ b, (wait b).id ≠ id) (out : Outcome)
    (h : OwnGranted id q t .running) : OwnGranted id q t (out.phase wait) := by
  cases out with
  | returns _ => exact h
  | waits b => simpa [Outcome.phase, OwnGranted, hwait b] using h
  | aborts => trivial

theorem RecInv.tableCall {s : LockState κ} (hi : s.RecInv) {t : TxnId} (ht : s.phase t = .running)
    {fd : Fd} {wait : Bool → LockWait κ} (hwait : ∀ b, (wait b).id = .table fd)
    (q : LockRequestQueue κ) (out : Outcome) :
    ((s.put (.table fd) q).finishCall t wait out).RecInv := by
  intro fd' rid
  rw [finishCall_queue, queue_put_other (by simp)]
  refine (hi fd' rid).phase (t := t) ?_ fun u hu => finishCall_phase_other hu wait out
  rw [finishCall_phase_self (s := s.put (.table fd) q) ht, ht]
  exact ownGranted_elsewhere (fun b => by simp [hwait b]) out

theorem RecInv.shared {s : LockState κ} (hi : s.RecInv) {t : TxnId} (ht : s.phase t = .running)
    {fd : Fd} {rid : Rid} (hsafe : (s.queue (.record fd rid)).groupMode ≠ .x →
      (s.queue (.record fd rid)).otherHoldsX t = false) :
    ((s.put (.record fd rid) ((s.queue (.record fd rid)).lockSharedOnRecord t).1).finishCall t
      (.shared fd rid) ((s.queue (.record fd rid)).lockSharedOnRecord t).2).RecInv := by
  intro fd' rid'
  rw [finishCall_queue]
  by_cases hid : LockDataId.record fd' rid' = .record fd rid
  · rw [hid, queue_put_self]
    refine lockSharedOnRecord_ok (LockWait.shared_at fd rid) (hi fd rid) ht hsafe
      (fun u hu => finishCall_phase_other hu _ _) ?_
    exact finishCall_phase_self (s := s.put _ _) ht _ _
  · rw [queue_put_other hid]
    refine (hi fd' rid').phase (t := t) ?_ fun u hu => finishCall_phase_other hu _ _
    rw [finishCall_phase_self (s := s.put _ _) ht, ht]
    exact ownGranted_elsewhere (fun b => by simpa [LockWait.id] using Ne.symm hid) _

section Order

variable [LinearOrder κ]

theorem RecInv.exclusiveGap {s : LockState κ} (hi : s.RecInv) {t : TxnId}
    (ht : s.phase t = .running) (fd : Fd) (rid : Rid) (index : IndexId) (key : κ) :
    (((s.put (.record fd rid) ((s.queue (.record fd rid)).lockExclusiveOnRecordGap
      (s.queue (.table fd)) t rid index key).1).put (.table fd)
      ((s.queue (.record fd rid)).lockExclusiveOnRecordGap (s.queue (.table fd)) t rid index
        key).2.1).finishCall t (.exclusiveGap fd rid index key)
      ((s.queue (.record fd rid)).lockExclusiveOnRecordGap (s.queue (.table fd)) t rid index
        key).2.2).RecInv := by
  intro fd' rid'
  rw [finishCall_queue, queue_put_other (by simp)]
  by_cases hid : LockDataId.record fd' rid' = .record fd rid
  · rw [hid, queue_put_self]
    refine exclusiveOnRecord_ok (LockWait.exclusiveGap_at fd rid index key) (hi fd rid) ht
      (fun u hu => finishCall_phase_other hu _ _) ?_
    exact finishCall_phase_self (s := (s.put _ _).put _ _) ht _ _
  · rw [queue_put_other hid]
    refine (hi fd' rid').phase (t := t) ?_ fun u hu => finishCall_phase_other hu _ _
    rw [finishCall_phase_self (s := (s.put _ _).put _ _) ht, ht]
    exact ownGranted_elsewhere (fun b => by simpa [LockWait.id] using Ne.symm hid) _

end Order

theorem resume_requests (w : LockWait κ) (r : LockRequest κ) (q : LockRequestQueue κ)
    (t : TxnId) : (w.resume r q t).requestQueue = q.requestQueue := by
  unfold LockWait.resume
  split <;> first | rfl | exact clearUpgrading_requests _ t

/-- The wait for a record is over: the request that was waited for is granted. -/
theorem OwnGranted.wake {q : LockRequestQueue κ} {t : TxnId} {w : LockWait κ}
    {r : LockRequest κ} {fd : Fd} {rid : Rid} (hid : w.id = .record fd rid)
    (h : OwnGranted (.record fd rid) q t (.waiting w)) (hr : w.request q t = some r)
    (hready : w.ready r = true) : OwnGranted (.record fd rid) q t .running := by
  have hgranted : r.granted = true := by
    cases w <;> simp [LockWait.id] at hid <;> simpa [LockWait.ready] using hready
  simp only [OwnGranted, hid, if_true] at h
  intro r' hr'
  unfold LockWait.request at hr
  split at hr
  next hnew =>
    rcases h hnew r' hr' with hg | hown
    · exact hg
    · have hlast : (q.own t).getLast? = some r := hr
      rw [hown] at hlast
      cases Option.some.inj hlast
      exact hgranted
  next =>
    rw [LockRequestQueue.find_eq_head, hr'] at hr
    cases Option.some.inj hr
    exact hgranted

theorem RecInv.wake {s : LockState κ} (hi : s.RecInv) {t : TxnId} {w : LockWait κ}
    {r : LockRequest κ} (hp : s.phase t = .waiting w) (hr : w.request (s.queue w.id) t = some r)
    (hready : w.ready r = true) (ids : List LockDataId) (keys : List (HeldKey κ)) :
    ((((s.put w.id (w.resume r (s.queue w.id) t)).setPhase t .running).enter t ids).hold
      keys).RecInv := by
  intro fd rid
  show RecOk _ (fun x => if x = t then .running else s.phase x)
    ((s.put w.id (w.resume r (s.queue w.id) t)).queue (.record fd rid))
  have hold := hi fd rid
  have hrunning : OwnGranted (.record fd rid) (s.queue (.record fd rid)) t .running := by
    have hown := hold.own t
    rw [hp] at hown
    by_cases hid : w.id = .record fd rid
    · rw [hid] at hr
      exact OwnGranted.wake hid hown hr hready
    · simpa [OwnGranted, hid] using hown
  have hnew : RecOk (.record fd rid) (fun x => if x = t then .running else s.phase x)
      (s.queue (.record fd rid)) :=
    hold.phase (t := t) (fun _ => by simpa using hrunning) (fun u hu => by simp [hu])
  by_cases hid : LockDataId.record fd rid = w.id
  · rw [hid, queue_put_self]
    rw [hid] at hnew
    exact hnew.congr (resume_requests w r _ t)
  · rw [queue_put_other hid]
    exact hnew

theorem recOk_empty (id : LockDataId) (phase : TxnId → TxnPhase κ) : RecOk id phase .empty := by
  refine ⟨by simp [ExclusiveList, LockRequestQueue.empty], by simp [LockRequestQueue.empty], ?_⟩
  intro t
  cases phase t with
  | running => simp [OwnGranted, OwnFirstGranted, LockRequestQueue.own, LockRequestQueue.empty]
  | waiting w => simp [OwnGranted, OwnFirstGranted, LockRequestQueue.own, LockRequestQueue.empty]
  | finishing => trivial

theorem recInv_fresh : (fresh : LockState κ).RecInv := by
  intro fd rid
  exact recOk_empty _ _

/-- What `unlock` of a record leaves in the lock table. -/
theorem unlockRecord_cases {locks locks' : Locks κ} {t : TxnId} {fd : Fd} {rid : Rid}
    (h : unlockRecord locks t fd rid = locks') :
    (∀ id, id ≠ .record fd rid → id ≠ .table fd → locks' id = locks id) ∧
    (locks' (.table fd) = locks (.table fd) ∨
      locks' (.table fd) = (locks (.table fd)).map fun queueTable => queueTable.removeKeys t) ∧
    (locks' = locks ∨ ∃ q, locks (.record fd rid) = some q ∧ q.find t ≠ none ∧
      (locks' (.record fd rid) = none ∧ (q.releaseRecord t).requestQueue = [] ∨
        locks' (.record fd rid) = some (q.releaseRecord t).grantLockRecord ∨
        locks' (.record fd rid) = some (q.releaseRecord t).grantLockRecord.regrant ∧
          ∃ queueTable, locks (.table fd) = some queueTable ∧ queueTable.groupMode ≠ .gap ∧
            queueTable.groupMode ≠ .tabX)) := by
  unfold unlockRecord at h
  split at h
  next =>
    subst h
    exact ⟨fun _ _ _ => rfl, Or.inl rfl, Or.inl rfl⟩
  next q hq =>
    split at h
    next =>
      subst h
      exact ⟨fun _ _ _ => rfl, Or.inl rfl, Or.inl rfl⟩
    next hfind =>
      have hsome : q.find t ≠ none := by simp [hfind]
      generalize hmid : (if q.groupMode = .x then
        locks.set (.table fd) ((locks (.table fd)).map fun queueTable => queueTable.removeKeys t)
        else locks) = mid at h
      have hother : ∀ id, id ≠ .table fd → mid id = locks id := by
        intro id hid
        rw [← hmid]
        split
        · exact Locks.set_other hid _
        · rfl
      have htable : mid (.table fd) = locks (.table fd) ∨ mid (.table fd) =
          (locks (.table fd)).map fun queueTable => queueTable.removeKeys t := by
        rw [← hmid]
        split
        · exact Or.inr (Locks.set_self _ _ _)
        · exact Or.inl rfl
      have hset : ∀ q' : Option (LockRequestQueue κ),
          (∀ id, id ≠ .record fd rid → id ≠ .table fd →
            mid.set (.record fd rid) q' id = locks id) ∧
          (mid.set (.record fd rid) q' (.table fd) = locks (.table fd) ∨
            mid.set (.record fd rid) q' (.table fd) =
              (locks (.table fd)).map fun queueTable => queueTable.removeKeys t) := by
        intro q'
        refine ⟨fun id hr ht => ?_, ?_⟩
        · rw [Locks.set_other hr, hother id ht]
        · rw [Locks.set_other (by simp)]
          exact htable
      dsimp only at h
      split at h
      next hempty =>
        subst h
        exact ⟨(hset _).1, (hset _).2, Or.inr ⟨q, hq, hsome, Or.inl
          ⟨Locks.set_self _ _ _, hempty.1⟩⟩⟩
      next =>
        split at h
        next queueTable hqt =>
          split at h
          next hmode =>
            subst h
            refine ⟨(hset _).1, (hset _).2, Or.inr ⟨q, hq, hsome, Or.inr (Or.inr
              ⟨Locks.set_self _ _ _, ?_⟩)⟩⟩
            rw [hqt] at htable
            rcases htable with htable | htable
            · exact ⟨queueTable, htable.symm, hmode⟩
            · obtain ⟨qt, hqt', hrem⟩ := Option.map_eq_some_iff.mp htable.symm
              rw [← hrem] at hmode
              exact ⟨qt, hqt', hmode⟩
          next =>
            subst h
            exact ⟨(hset _).1, (hset _).2, Or.inr ⟨q, hq, hsome, Or.inr (Or.inl
              (Locks.set_self _ _ _))⟩⟩
        next =>
          subst h
          exact ⟨(hset _).1, (hset _).2, Or.inr ⟨q, hq, hsome, Or.inr (Or.inl
            (Locks.set_self _ _ _))⟩⟩

theorem RecInv.unlockRecord {s : LockState κ} (hi : s.RecInv) {t : TxnId}
    (ht : s.phase t = .finishing) (fd : Fd) (rid : Rid) (lockSet : TxnId → List LockDataId) :
    RecInv { s with locks := unlockRecord s.locks t fd rid, lockSet := lockSet } := by
  intro fd' rid'
  obtain ⟨hother, _, hself⟩ := unlockRecord_cases (rfl : Grmdb.unlockRecord s.locks t fd rid = _)
  by_cases hid : LockDataId.record fd' rid' = .record fd rid
  · rw [hid]
    show RecOk _ s.phase ((Grmdb.unlockRecord s.locks t fd rid (.record fd rid)).getD .empty)
    rcases hself with hself | ⟨q, hq, _, hself⟩
    · rw [hself]
      exact hi fd rid
    · have hold : RecOk (.record fd rid) s.phase q := by
        have := hi fd rid
        simpa [queue, hq] using this
      obtain ⟨_, hgrant, hregrant⟩ := releaseRecord_ok hold ht
      rcases hself with ⟨hself, _⟩ | hself | ⟨hself, _⟩
      · rw [hself]
        exact recOk_empty _ _
      · rw [hself]
        exact hgrant
      · rw [hself]
        exact hregrant
  · show RecOk _ s.phase ((Grmdb.unlockRecord s.locks t fd rid (.record fd' rid')).getD .empty)
    rw [hother _ hid (by simp)]
    exact hi fd' rid'

section Order

variable [LinearOrder κ]

/-- The keys that `unlock` of the table by `t` finds to grant. -/
def grantedKeys (s : LockState κ) (t : TxnId) (fd : Fd) : List (InsertKey κ) :=
  match (s.queue (.table fd)).find t with
  | none => []
  | some _ =>
    let q := (s.queue (.table fd)).releaseTable t
    q.insertKeys.filter fun k => q.grantsKey fd s.locks k

/-- What the two calls that grant a record without looking at it have to find. A shared lock is
asked for while the group mode is not X: no other transaction holds the record exclusively yet.
A table unlock grants a waiting key: no other transaction holds the key's record, and none gets
it from the same unlock. -/
def GrantsApart (s : LockState κ) : LockEv κ → Prop
  | .lockSharedOnRecord t fd rid => (s.queue (.record fd rid)).groupMode ≠ .x →
    (s.queue (.record fd rid)).otherHoldsX t = false
  | .unlock t (.table fd) => ∀ k ∈ s.grantedKeys t fd,
    (s.queue (.record fd k.rid)).otherGranted k.txnId = false ∧
    ∀ k' ∈ s.grantedKeys t fd, k'.rid = k.rid → k'.txnId = k.txnId
  | _ => True

/-- `unlock` of a table either changes no record, or it has passed the loop over the keys. -/
theorem unlockTable_cases {locks locks' : Locks κ} {t : TxnId} {fd : Fd}
    (h : unlockTable locks t fd = some locks') :
    locks' = locks ∧ (∀ q, locks (.table fd) = some q → q.find t = none) ∨
    ∃ q, locks (.table fd) = some q ∧ q.find t ≠ none ∧
      ((q.releaseTable t).requestQueue = [] ∧ (q.releaseTable t).insertKeys = [] ∧
        locks' = locks.set (.table fd) none ∨
      ∃ out, KeysRegranted fd (q.releaseTable t).grantLockTable (q.releaseTable t).insertKeys locks
          (q.releaseTable t).grantLockTable.groupMode out ∧
        locks' = out.2.1.set (.table fd) (some { (q.releaseTable t).grantLockTable with
          insertKeys := out.1, groupMode := out.2.2 })) := by
  unfold Grmdb.unlockTable at h
  split at h
  next hq =>
    cases Option.some.inj h
    exact Or.inl ⟨rfl, by simp [hq]⟩
  next q hq =>
    split at h
    next hf =>
      cases Option.some.inj h
      refine Or.inl ⟨rfl, fun q' hq' => ?_⟩
      cases Option.some.inj (hq.symm.trans hq')
      exact hf
    next hf =>
      refine Or.inr ⟨q, hq, by simp [hf], ?_⟩
      dsimp only at h
      split at h
      next hempty =>
        cases Option.some.inj h
        exact Or.inl ⟨hempty.1, hempty.2, rfl⟩
      next =>
        obtain ⟨out, hout, rfl⟩ := Option.map_eq_some_iff.mp h
        exact Or.inr ⟨out, regrantKeys_spec hout, rfl⟩

theorem mem_grantedKeys {s : LockState κ} {t : TxnId} {fd : Fd} {q : LockRequestQueue κ}
    (hq : s.locks (.table fd) = some q) (hf : q.find t ≠ none) (k : InsertKey κ) :
    k ∈ s.grantedKeys t fd ↔ k ∈ (q.releaseTable t).insertKeys ∧
      (q.releaseTable t).grantLockTable.grantsKey fd s.locks k = true := by
  have hqueue : s.queue (.table fd) = q := by simp [queue, hq]
  obtain ⟨r, hr⟩ := Option.ne_none_iff_exists'.mp hf
  simp only [grantedKeys, hqueue, hr, List.mem_filter, grantLockTable_grantsKey]

theorem RecInv.unlockTable {s : LockState κ} (hi : s.RecInv) {t : TxnId} {fd : Fd}
    {locks : Locks κ} (hsafe : s.GrantsApart (.unlock t (.table fd)))
    (hu : unlockTable s.locks t fd = some locks) (lockSet : TxnId → List LockDataId) :
    RecInv { s with locks := locks, lockSet := lockSet } := by
  intro fd' rid
  show RecOk _ s.phase ((locks (.record fd' rid)).getD .empty)
  rcases unlockTable_cases hu with ⟨rfl, _⟩ | ⟨q, hq, hf, ⟨_, _, rfl⟩ | ⟨out, hspec, rfl⟩⟩
  · exact hi fd' rid
  · rw [Locks.set_other (by simp)]
    exact hi fd' rid
  · rw [Locks.set_other (by simp)]
    by_cases hfd : fd' = fd
    · subst hfd
      cases hrec : s.locks (.record fd' rid) with
      | none =>
        rw [hspec.missing rid hrec]
        exact recOk_empty _ _
      | some queueRec =>
        obtain ⟨l, hl, hg⟩ := hspec.records rid queueRec hrec
        have hold : RecOk (.record fd' rid) s.phase queueRec := by
          have := hi fd' rid
          simpa [queue, hrec] using this
        rw [hl]
        refine hold.grants hg (ExclusiveList.grants hold.exclusive hg ?_)
        rintro u ⟨k, hk, hgk, hkr, rfl⟩
        obtain ⟨hno, hsame⟩ := hsafe k ((mem_grantedKeys hq hf k).mpr ⟨hk, hgk⟩)
        refine ⟨?_, ?_⟩
        · have hrecq : s.queue (.record fd' k.rid) = queueRec := by simp [queue, hkr, hrec]
          rw [hrecq] at hno
          exact others_of_otherGranted hno
        · rintro v ⟨k', hk', hgk', hkr', rfl⟩
          exact hsame k' ((mem_grantedKeys hq hf k').mpr ⟨hk', hgk'⟩) (hkr'.trans hkr.symm)
    · rw [hspec.tables _ (fun rid' => by simp [hfd])]
      exact hi fd' rid

theorem recInv_step {s s' : LockState κ} {e : LockEv κ} (hi : s.RecInv) (hg : s.GrantsApart e)
    (h : s.step e = some s') : s'.RecInv := by
  cases e with
  | lockSharedOnRecord t fd rid =>
    simp only [step] at h
    split at h
    next ht =>
      cases Option.some.inj h
      exact hi.shared ht hg
    next => simp at h
  | lockExclusiveOnRecordGap t fd rid index key =>
    simp only [step] at h
    split at h
    next ht =>
      cases Option.some.inj h
      exact hi.exclusiveGap ht fd rid index key
    next => simp at h
  | lockGAPOnTable t fd lower upper index =>
    simp only [step] at h
    split at h
    next ht =>
      cases Option.some.inj h
      exact hi.tableCall ht (fun _ => rfl) _ _
    next => simp at h
  | lockISOnTable t fd =>
    simp only [step] at h
    split at h
    next ht =>
      obtain ⟨out, hout, rfl⟩ := Option.map_eq_some_iff.mp h
      exact hi.tableCall ht (fun _ => rfl) _ _
    next => simp at h
  | lockIXOnTable t fd =>
    simp only [step] at h
    split at h
    next ht =>
      cases Option.some.inj h
      exact hi.tableCall ht (fun _ => rfl) _ _
    next => simp at h
  | lockExclusiveOnTable t fd =>
    simp only [step] at h
    split at h
    next ht =>
      cases Option.some.inj h
      exact hi.tableCall ht (fun _ => rfl) _ _
    next => simp at h
  | wake t =>
    simp only [step] at h
    split at h
    next w hw =>
      split at h
      next r hr =>
        split at h
        next hready =>
          cases Option.some.inj h
          exact hi.wake hw hr hready _ _
        next => simp at h
      next => simp at h
    next => simp at h
  | finish t =>
    simp only [step] at h
    split at h
    next ht =>
      cases Option.some.inj h
      intro fd rid
      refine (hi fd rid).phase (t := t) (fun _ => ?_) fun u hu => by simp [setPhase, hu]
      simp [setPhase, OwnGranted]
    next => simp at h
  | unlock t id =>
    simp only [step] at h
    split at h
    next ht =>
      cases id with
      | table fd =>
        obtain ⟨locks, hlocks, rfl⟩ := Option.map_eq_some_iff.mp h
        exact hi.unlockTable hg hlocks _
      | record fd rid =>
        cases Option.some.inj h
        exact hi.unlockRecord ht.1 fd rid _
    next => simp at h

/-- A shared request beside an exclusive one of another transaction. -/
theorem not_exclusive_of_shared {s s' : LockState κ} {t : TxnId} {fd : Fd} {rid : Rid}
    (hi : s.RecInv) (hbad : ¬ s.GrantsApart (.lockSharedOnRecord t fd rid))
    (h : s.step (.lockSharedOnRecord t fd rid) = some s') : ¬ s'.RecordsExclusive := by
  simp only [GrantsApart, Classical.not_imp] at hbad
  obtain ⟨hgroup, hx⟩ := hbad
  simp only [LockRequestQueue.otherHoldsX, Bool.not_eq_false, List.any_eq_true, Bool.and_eq_true,
    decide_eq_true_eq] at hx
  obtain ⟨o, ho, hot, hox⟩ := hx
  simp only [step] at h
  split at h
  next ht =>
    cases Option.some.inj h
    have hok := hi fd rid
    have hfind : (s.queue (.record fd rid)).find t = none := by
      cases hr : (s.queue (.record fd rid)).find t with
      | none => rfl
      | some r =>
        obtain ⟨hmem, hrt⟩ := LockRequestQueue.find_mem hr
        have hown : OwnFirstGranted (s.queue (.record fd rid)) t := by
          simpa [ht, OwnGranted] using hok.own t
        rw [LockRequestQueue.find_eq_head] at hr
        have hne : r.txnId ≠ o.txnId := fun he => hot (he.symm.trans hrt)
        have := hok.exclusive o ho hox r hmem hne
        simp [hown r hr] at this
    intro hex
    have hq := hex fd rid
    rw [finishCall_queue, queue_put_self, LockRequestQueue.lockSharedOnRecord] at hq
    simp only [hfind, LockRequestQueue.sharedNew, if_pos hgroup] at hq
    have hno := hq o (by simp [LockRequestQueue.push, ho]) hox ⟨t, .shared, true, []⟩
      (by simp [LockRequestQueue.push]) (Ne.symm hot)
    cases hno
  next => simp at h

/-- A key that is granted beside another holder of its record. -/
theorem not_exclusive_of_unlockTable {s s' : LockState κ} {t : TxnId} {fd : Fd}
    (hbad : ¬ s.GrantsApart (.unlock t (.table fd)))
    (h : s.step (.unlock t (.table fd)) = some s') : ¬ s'.RecordsExclusive := by
  simp only [GrantsApart, not_forall] at hbad
  obtain ⟨k, hk, hbad⟩ := hbad
  simp only [step] at h
  split at h
  next =>
    obtain ⟨locks, hlocks, rfl⟩ := Option.map_eq_some_iff.mp h
    intro hex
    rcases unlockTable_cases hlocks with
      ⟨_, hnone⟩ | ⟨q, hq, hf, ⟨_, hempty, _⟩ | ⟨out, hspec, rfl⟩⟩
    · have hnil : s.grantedKeys t fd = [] := by
        cases hq : s.locks (.table fd) with
        | none => simp [grantedKeys, queue, hq, LockRequestQueue.find, LockRequestQueue.empty]
        | some q => simp [grantedKeys, queue, hq, hnone q hq]
      simp [hnil] at hk
    · simp [(mem_grantedKeys hq hf k), hempty] at hk
    · obtain ⟨hmem, hgk⟩ := (mem_grantedKeys hq hf k).mp hk
      obtain ⟨queueRec, hrec, r, hr, hrt, hrx⟩ := hspec.given k hmem hgk
      have hqueue := hex fd k.rid
      rw [show LockState.queue { s with
          locks := out.2.1.set (.table fd) (some { (q.releaseTable t).grantLockTable with
            insertKeys := out.1, groupMode := out.2.2 })
          lockSet := fun x => if x = t then (s.lockSet x).erase (.table fd) else s.lockSet x }
          (.record fd k.rid) = queueRec by simp [queue, Locks.set_other, hrec]] at hqueue
      refine hbad ⟨?_, ?_⟩
      · -- a holder stays one
        by_contra hother
        simp only [LockRequestQueue.otherGranted, Bool.not_eq_false, List.any_eq_true,
          Bool.and_eq_true, decide_eq_true_eq] at hother
        obtain ⟨o, ho, hot, hog⟩ := hother
        cases hold : s.locks (.record fd k.rid) with
        | none => simp [queue, hold, LockRequestQueue.empty] at ho
        | some old =>
          obtain ⟨l, hl, hg⟩ := hspec.records k.rid old hold
          cases Option.some.inj (hrec.symm.trans hl)
          have ho' : o ∈ old.requestQueue := by simpa [queue, hold] using ho
          have := hqueue r hr hrx o (hg.mem_granted ho' hog) (by rw [hrt]; exact hot)
          simp [hog] at this
      · intro k' hk' hkr
        by_contra hne
        obtain ⟨hmem', hgk'⟩ := (mem_grantedKeys hq hf k').mp hk'
        obtain ⟨queueRec', hrec', r', hr', hrt', hrx'⟩ := hspec.given k' hmem' hgk'
        rw [hkr] at hrec'
        cases Option.some.inj (hrec.symm.trans hrec')
        have hno := hqueue r hr hrx r' hr' (by rw [hrt, hrt']; exact hne)
        simp [LockRequest.holdsX, hno] at hrx'
  next => simp at h

/-- An exclusively locked record has one holder in every state of a run, exactly when all its
steps meet `GrantsApart`. -/
theorem recordsExclusive_iff_grantsApart {tr : List (LockEv κ)} {s : LockState κ}
    (h : run step fresh tr = some s) :
    (∀ tr₁ tr₂ s₁, tr = tr₁ ++ tr₂ → run step fresh tr₁ = some s₁ → s₁.RecordsExclusive) ↔
      MeetsAll step GrantsApart fresh tr := by
  refine forall_prefix_iff_meetsAll (I := RecInv) (fun s hi fd rid => (hi fd rid).exclusive)
    (fun _ _ _ hi hg => recInv_step hi hg) ?_ recInv_fresh h
  intro s e s' hi hbad hstep
  match e with
  | .lockSharedOnRecord t fd rid => exact not_exclusive_of_shared hi hbad hstep
  | .unlock t (.table fd) => exact not_exclusive_of_unlockTable hbad hstep
  | .unlock _ (.record _ _) | .lockExclusiveOnRecordGap _ _ _ _ _ | .lockGAPOnTable _ _ _ _ _
  | .lockISOnTable _ _ | .lockIXOnTable _ _ | .lockExclusiveOnTable _ _ | .wake _ | .finish _ =>
    exact absurd trivial hbad

instance (s : LockState κ) (e : LockEv κ) : Decidable (s.GrantsApart e) :=
  match e with
  | .lockSharedOnRecord _ _ _ => inferInstanceAs (Decidable (_ → _))
  | .unlock _ (.table _) => inferInstanceAs (Decidable (∀ _ ∈ _, _))
  | .unlock _ (.record _ _) | .lockExclusiveOnRecordGap _ _ _ _ _ | .lockGAPOnTable _ _ _ _ _
  | .lockISOnTable _ _ | .lockIXOnTable _ _ | .lockExclusiveOnTable _ _ | .wake _ | .finish _ =>
    isTrue trivial

end Order

/-- A reader waits for the writer of a row and gets it when the writer is over. -/
def readAfterWrite : List (LockEv Int) :=
  [.lockExclusiveOnRecordGap 1 3 ⟨1, 0⟩ 4 5, .lockSharedOnRecord 0 3 ⟨1, 0⟩, .finish 1,
    .unlock 1 (.record 3 ⟨1, 0⟩), .wake 0]

theorem recordsExclusive_iff_readAfterWrite : ∃ s, run step fresh readAfterWrite = some s ∧
    (s.queue (.record 3 ⟨1, 0⟩)).requestQueue = [⟨0, .shared, true, []⟩] ∧
    ∀ tr₁ tr₂ s₁, readAfterWrite = tr₁ ++ tr₂ → run step fresh tr₁ = some s₁ →
      s₁.RecordsExclusive :=
  ⟨_, rfl, rfl, (recordsExclusive_iff_grantsApart rfl).mpr (by decide)⟩

/-- Transaction 0 waits for a row that 1 reads, in a gap of 2; the end of 2 gives it the row. -/
def gapEnds : List (LockEv Int) :=
  [.lockSharedOnRecord 1 3 ⟨1, 0⟩, .lockGAPOnTable 2 3 0 10 4,
    .lockExclusiveOnRecordGap 0 3 ⟨1, 0⟩ 4 5, .finish 2, .unlock 2 (.table 3)]

theorem not_recordsExclusive_gapEnds : ∃ s, run step fresh gapEnds = some s ∧
    (s.queue (.record 3 ⟨1, 0⟩)).requestQueue =
      [⟨1, .shared, true, []⟩, ⟨0, .exlucsive, true, []⟩] ∧ ¬ s.RecordsExclusive := by
  refine ⟨_, rfl, rfl, fun h => ?_⟩
  have hno := h 3 ⟨1, 0⟩ ⟨0, .exlucsive, true, []⟩ (by decide) rfl ⟨1, .shared, true, []⟩
    (by decide) (by decide)
  cases hno

end LockState

end Grmdb
