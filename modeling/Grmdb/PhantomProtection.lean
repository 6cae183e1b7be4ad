import Grmdb.KeyCalls

namespace Grmdb

open Runs

variable {κ : Type}

namespace LockState

def ownKeys (s : LockState κ) (t : TxnId) (fd : Fd) : List (InsertKey κ) :=
  (s.queue (.table fd)).insertKeys.filter fun k => decide (k.txnId = t)

def ownHeld (s : LockState κ) (t : TxnId) : List (HeldKey κ) :=
  s.held.filter fun h => decide (h.txnId = t)

def ownRecord (s : LockState κ) (t : TxnId) (fd : Fd) (rid : Rid) : List (LockRequest κ) :=
  (s.queue (.record fd rid)).own t

section Order

variable [LinearOrder κ]

/-- No transaction has a gap that is not conflicted around a key for which another one, not over
yet, has got the lock. -/
def NoPhantom (s : LockState κ) : Prop :=
  ∀ fd, ∀ r ∈ (s.queue (.table fd)).requestQueue, ∀ g ∈ r.gaps, g.conflicted = false →
    ∀ h ∈ s.held, h.fd = fd → h.txnId ≠ r.txnId → s.phase h.txnId ≠ .finishing →
      g.hits h.index h.key = false

structure GapInv (s : LockState κ) : Prop where
  tables : ∀ fd, GapsOk (s.queue (.table fd))
  records : ∀ fd rid, RecordModes (s.queue (.record fd rid))
  phases : ∀ t fd isNew, s.phase t ≠ .waiting (.exclusive fd isNew)
  keys : ∀ t, s.phase t ≠ .finishing →
    KeyOk (s.ownKeys t) (s.ownRecord t) (s.phase t) (s.ownHeld t)

theorem GapInv.noPhantom {s : LockState κ} (h : s.GapInv) : s.NoPhantom := by
  rintro fd r hr g hg hc e he rfl hne hp
  obtain ⟨k, hk, hindex, hkey, hw⟩ := (h.keys e.txnId hp).given e (by simp [ownHeld, he])
  obtain ⟨hmem, hid⟩ := List.mem_filter.mp hk
  have hfree := (h.tables e.fd).free r hr g hg hc
  simp only [gapConflicts, List.any_eq_false] at hfree
  have := hfree k hmem
  simp only [decide_eq_true_eq] at hid
  simpa [hw, hid, hne, hindex, hkey] using this

/-- A step by which nothing of another transaction than `t` changes. -/
theorem GapInv.call {s s' : LockState κ} (hi : s.GapInv) {t : TxnId}
    (htables : ∀ fd, GapsOk (s'.queue (.table fd)))
    (hkeys : ∀ u, u ≠ t → s'.ownKeys u = s.ownKeys u)
    (hrecords : ∀ fd rid, OwnStep t (s.queue (.record fd rid)) (s'.queue (.record fd rid)))
    (hphase : ∀ u, u ≠ t → s'.phase u = s.phase u)
    (hheld : ∀ u, u ≠ t → s'.ownHeld u = s.ownHeld u)
    (hwait : ∀ fd isNew, s'.phase t ≠ .waiting (.exclusive fd isNew))
    (hself : s'.phase t ≠ .finishing →
      KeyOk (s'.ownKeys t) (s'.ownRecord t) (s'.phase t) (s'.ownHeld t)) : s'.GapInv := by
  refine ⟨htables, fun fd rid => (hrecords fd rid).modes (hi.records fd rid), ?_, ?_⟩
  · intro u fd isNew
    by_cases hu : u = t
    · exact hu ▸ hwait fd isNew
    · rw [hphase u hu]
      exact hi.phases u fd isNew
  · intro u hp
    by_cases hu : u = t
    · subst hu
      exact hself hp
    · have hown : s'.ownRecord u = s.ownRecord u := by
        funext fd rid
        exact (hrecords fd rid).others u hu
      rw [hkeys u hu, hown, hphase u hu, hheld u hu]
      exact hi.keys u (hphase u hu ▸ hp)

end Order

theorem finishCall_held (s : LockState κ) (t : TxnId) (wait : Bool → LockWait κ) (out : Outcome) :
    (s.finishCall t wait out).held = s.held ∨
      ∃ b, (s.finishCall t wait out).held = s.held ++ (wait b).heldKey t := by
  unfold finishCall
  split
  · exact Or.inr ⟨true, rfl⟩
  · exact Or.inr ⟨false, rfl⟩
  · exact Or.inl rfl
  · exact Or.inl rfl

theorem heldKey_txnId {w : LockWait κ} {t : TxnId} {h : HeldKey κ} (hh : h ∈ w.heldKey t) :
    h.txnId = t := by
  unfold LockWait.heldKey at hh
  split at hh
  · rw [List.mem_singleton.mp hh]
  · simp at hh

theorem resume_keys (w : LockWait κ) (r : LockRequest κ) (q : LockRequestQueue κ) (t : TxnId) :
    (w.resume r q t).insertKeys = q.insertKeys := by
  unfold LockWait.resume LockRequestQueue.clearUpgrading
  split <;> first | rfl | (split <;> rfl)

theorem ownKeys_release {q : LockRequestQueue κ} {t u : TxnId} (hu : u ≠ t) :
    ((q.releaseTable t).insertKeys.filter fun k => decide (k.txnId = u)) =
      q.insertKeys.filter fun k => decide (k.txnId = u) := by
  rcases releaseTable_keys q t with h | h
  · rw [h]
  · rw [h, List.filter_filter]
    refine List.filter_congr fun k _ => ?_
    by_cases hk : k.txnId = u <;> simp [hk, hu]

theorem filter_held_other {w : LockWait κ} {t u : TxnId} (hu : u ≠ t) :
    ((w.heldKey t).filter fun h => decide (h.txnId = u)) = [] := by
  rw [List.filter_eq_nil_iff]
  intro h hh
  simp [heldKey_txnId hh, Ne.symm hu]

theorem finishCall_ownHeld_other {s : LockState κ} {t u : TxnId} (hu : u ≠ t)
    (wait : Bool → LockWait κ) (out : Outcome) :
    (s.finishCall t wait out).ownHeld u = s.ownHeld u := by
  unfold ownHeld
  rcases finishCall_held s t wait out with h | ⟨b, h⟩
  · rw [h]
  · rw [h, List.filter_append, filter_held_other hu, List.append_nil]

/-- A table call, seen by its own transaction. -/
theorem finishCall_ownHeld_self {s : LockState κ} {t : TxnId} {wait : Bool → LockWait κ}
    (hwait : ∀ b, (wait b).heldKey t = []) (out : Outcome) :
    (s.finishCall t wait out).ownHeld t = s.ownHeld t := by
  unfold ownHeld
  rcases finishCall_held s t wait out with h | ⟨b, h⟩
  · rw [h]
  · rw [h, hwait b, List.append_nil]

section Order

variable [LinearOrder κ]

theorem GapInv.tableCall {s : LockState κ} (hi : s.GapInv) {t : TxnId}
    (ht : s.phase t = .running) {fd : Fd} {wait : Bool → LockWait κ}
    (hwait : ∀ b, (wait b).id = .table fd ∧ (∀ fd isNew, wait b ≠ .exclusive fd isNew) ∧
      (wait b).heldKey t = [])
    {q : LockRequestQueue κ} {out : Outcome} (hq : GapsOk q)
    (hkeys : KeysKept t (s.queue (.table fd)) q out) :
    ((s.put (.table fd) q).finishCall t wait out).GapInv := by
  have hself : ((s.put (.table fd) q).finishCall t wait out).phase t = out.phase wait :=
    finishCall_phase_self (s := s.put (.table fd) q) ht wait out
  refine hi.call (t := t) ?_ ?_ ?_ (fun u hu => finishCall_phase_other hu wait out)
    (fun u hu => finishCall_ownHeld_other hu wait out) ?_ ?_
  · intro fd'
    rw [finishCall_queue]
    by_cases hfd : fd' = fd
    · rw [hfd, queue_put_self]
      exact hq
    · rw [queue_put_other (by simpa using hfd)]
      exact hi.tables fd'
  · intro u hu
    funext fd'
    unfold ownKeys
    rw [finishCall_queue]
    by_cases hfd : fd' = fd
    · rw [hfd, queue_put_self]
      rcases hkeys with hkeys | ⟨_, hkeys⟩
      · rw [hkeys]
      · rw [hkeys, List.filter_filter]
        refine List.filter_congr fun k _ => ?_
        by_cases hk : k.txnId = u <;> simp [hk, hu]
    · rw [queue_put_other (by simpa using hfd)]
  · intro fd' rid
    rw [finishCall_queue, queue_put_other (by simp)]
    exact OwnStep.congr rfl
  · intro fd' isNew hp
    rw [hself] at hp
    obtain ⟨b, hb⟩ := phase_waiting hp
    exact (hwait b).2.1 fd' isNew hb.symm
  · intro hp
    rw [hself] at hp ⊢
    rw [finishCall_ownHeld_self (fun b => (hwait b).2.2)]
    have hsame : ((s.put (.table fd) q).finishCall t wait out).ownKeys t = s.ownKeys t := by
      funext fd'
      unfold ownKeys
      rw [finishCall_queue]
      by_cases hfd : fd' = fd
      · rw [hfd, queue_put_self]
        rcases hkeys with hkeys | ⟨habort, _⟩
        · rw [hkeys]
        · rw [habort] at hp
          exact absurd rfl hp
      · rw [queue_put_other (by simpa using hfd)]
    rw [hsame]
    have hold := hi.keys t (by simp [ht])
    rw [ht] at hold
    refine hold.leave fun fd' rid index key isNew hw => ?_
    obtain ⟨b, hb⟩ := phase_waiting hw
    have := (hwait b).1
    simp [← hb, LockWait.id] at this

theorem GapInv.shared {s : LockState κ} (hi : s.GapInv) {t : TxnId} (ht : s.phase t = .running)
    (fd : Fd) (rid : Rid) :
    ((s.put (.record fd rid) ((s.queue (.record fd rid)).lockSharedOnRecord t).1).finishCall t
      (.shared fd rid) ((s.queue (.record fd rid)).lockSharedOnRecord t).2).GapInv := by
  have hself := finishCall_phase_self
    (s := s.put (.record fd rid) ((s.queue (.record fd rid)).lockSharedOnRecord t).1) ht
    (.shared fd rid) ((s.queue (.record fd rid)).lockSharedOnRecord t).2
  have hkeys : ∀ u, ((s.put (.record fd rid) ((s.queue (.record fd rid)).lockSharedOnRecord
      t).1).finishCall t (.shared fd rid) ((s.queue (.record fd rid)).lockSharedOnRecord
      t).2).ownKeys u = s.ownKeys u := by
    intro u
    funext fd'
    unfold ownKeys
    rw [finishCall_queue, queue_put_other (by simp)]
  refine hi.call (t := t) ?_ (fun u _ => hkeys u) ?_
    (fun u hu => finishCall_phase_other hu _ _)
    (fun u hu => finishCall_ownHeld_other hu _ _) ?_ ?_
  · intro fd'
    rw [finishCall_queue, queue_put_other (by simp)]
    exact hi.tables fd'
  · intro fd' rid'
    rw [finishCall_queue]
    by_cases hid : LockDataId.record fd' rid' = .record fd rid
    · rw [hid, queue_put_self]
      exact lockSharedOnRecord_own _ t
    · rw [queue_put_other hid]
      exact OwnStep.congr rfl
  · intro fd' isNew hp
    rw [hself] at hp
    obtain ⟨b, hb⟩ := phase_waiting hp
    cases hb
  · intro hp
    rw [hself, hkeys, finishCall_ownHeld_self (fun _ => rfl)]
    have hold := hi.keys t (by simp [ht])
    rw [ht] at hold
    refine hold.leave fun fd' rid' index key isNew hw => ?_
    obtain ⟨b, hb⟩ := phase_waiting hw
    cases hb

/-- `lock_exclusive_on_record_gap` puts one key into the table queue. -/
theorem GapInv.exclusiveGap {s : LockState κ} (hi : s.GapInv) {t : TxnId}
    (ht : s.phase t = .running) {fd : Fd} {rid : Rid} {index : IndexId} {key : κ}
    (hclear : ((s.queue (.record fd rid)).find t).map (·.lockMode) = some .exlucsive →
      (s.queue (.table fd)).keyInGap t index key = false) :
    (((s.put (.record fd rid) ((s.queue (.record fd rid)).lockExclusiveOnRecordGap
      (s.queue (.table fd)) t rid index key).1).put (.table fd)
      ((s.queue (.record fd rid)).lockExclusiveOnRecordGap (s.queue (.table fd)) t rid index
        key).2.1).finishCall t (.exclusiveGap fd rid index key)
      ((s.queue (.record fd rid)).lockExclusiveOnRecordGap (s.queue (.table fd)) t rid index
        key).2.2).GapInv := by
  have hgaps := exclusiveGap_gaps (t := t) (s.queue (.record fd rid)) (hi.tables fd) rid index key
  have hstep : OwnStep t (s.queue (.record fd rid)) ((s.queue
    (.record fd rid)).lockExclusiveOnRecordGap (s.queue (.table fd)) t rid index key).1 :=
    exclusiveGap_own
  have hends : KeyCallEnds _ t _ _ ((s.queue (.record fd rid)).lockExclusiveOnRecordGap
    (s.queue (.table fd)) t rid index key) := exclusiveGap_ends (hi.records fd rid)
  have hothers : ∀ u, u ≠ t → (((s.queue (.record fd rid)).lockExclusiveOnRecordGap
      (s.queue (.table fd)) t rid index key).2.1.insertKeys.filter
        fun k => decide (k.txnId = u)) = s.ownKeys u fd :=
    fun u hu => exclusiveGap_otherKeys hu
  generalize (s.queue (.record fd rid)).lockExclusiveOnRecordGap (s.queue (.table fd)) t rid index
    key = call at hgaps hstep hends hothers ⊢
  have hself : (((s.put (.record fd rid) call.1).put (.table fd) call.2.1).finishCall t
      (.exclusiveGap fd rid index key) call.2.2).phase t =
        call.2.2.phase (.exclusiveGap fd rid index key) :=
    finishCall_phase_self (s := (s.put _ _).put _ _) ht _ _
  have htable : ((s.put (.record fd rid) call.1).put (.table fd) call.2.1).queue (.table fd) =
      call.2.1 := queue_put_self _ _ _
  have htable' : ∀ fd', fd' ≠ fd → ((s.put (.record fd rid) call.1).put (.table fd)
      call.2.1).queue (.table fd') = s.queue (.table fd') := by
    intro fd' hfd
    rw [queue_put_other (by simpa using hfd), queue_put_other (by simp)]
  have hrecord : ((s.put (.record fd rid) call.1).put (.table fd) call.2.1).queue
      (.record fd rid) = call.1 := by
    rw [queue_put_other (by simp), queue_put_self]
  refine hi.call (t := t) ?_ ?_ ?_ (fun u hu => finishCall_phase_other hu _ _)
    (fun u hu => finishCall_ownHeld_other hu _ _) ?_ ?_
  · intro fd'
    rw [finishCall_queue]
    by_cases hfd : fd' = fd
    · rw [hfd, htable]
      exact hgaps
    · rw [htable' fd' hfd]
      exact hi.tables fd'
  · intro u hu
    funext fd'
    unfold ownKeys
    rw [finishCall_queue]
    by_cases hfd : fd' = fd
    · rw [hfd, htable]
      exact hothers u hu
    · rw [htable' fd' hfd]
  · intro fd' rid'
    rw [finishCall_queue]
    by_cases hid : LockDataId.record fd' rid' = .record fd rid
    · rw [hid, hrecord]
      exact hstep
    · rw [queue_put_other (by simp), queue_put_other hid]
      exact OwnStep.congr rfl
  · intro fd' isNew hp
    rw [hself] at hp
    obtain ⟨b, hb⟩ := phase_waiting hp
    cases hb
  · intro hp
    rw [hself] at hp ⊢
    have hold := hi.keys t (by simp [ht])
    rw [ht] at hold
    rcases hends with hab | ⟨hq, hends⟩
    · rw [hab] at hp
      exact absurd rfl hp
    -- the keys of `t` afterwards
    have hmem : ∀ fd' k, k ∈ (((s.put (.record fd rid) call.1).put (.table fd)
        call.2.1).finishCall t (.exclusiveGap fd rid index key) call.2.2).ownKeys t fd' ↔
        k ∈ s.ownKeys t fd' ∨ fd' = fd ∧
          k = ⟨key, index, t, rid, (s.queue (.table fd)).keyInGap t index key⟩ := by
      intro fd' k
      unfold ownKeys
      rw [finishCall_queue]
      by_cases hfd : fd' = fd
      · subst hfd
        rw [htable, hq]
        simp only [List.filter_append, List.mem_append, true_and]
        simp
      · rw [htable' fd' hfd]
        simp [hfd]
    rcases hends with ⟨isNew, hout, r, rest, hown, hm, hg, hnew⟩ | ⟨enters, hout, hfree⟩
    · rw [hout]
      have hheld : (((s.put (.record fd rid) call.1).put (.table fd) call.2.1).finishCall t
          (.exclusiveGap fd rid index key) (.waits isNew)).ownHeld t = s.ownHeld t := rfl
      rw [hout] at hmem
      rw [hheld]
      refine hold.asks hmem ?_ hm hg hnew
      rw [ownRecord, finishCall_queue, hrecord]
      exact hown
    · have hnot : (s.queue (.table fd)).keyInGap t index key = false := by
        rcases hfree with hfree | ⟨r, hr, hx⟩
        · exact hfree
        · exact hclear (by simp [hr, hx])
      have hheld : (((s.put (.record fd rid) call.1).put (.table fd) call.2.1).finishCall t
          (.exclusiveGap fd rid index key) call.2.2).ownHeld t =
            s.ownHeld t ++ [⟨t, fd, index, key⟩] := by
        rw [hout]
        cases enters <;> simp [finishCall, LockState.hold, ownHeld, LockWait.heldKey, enter]
      rw [hheld, hout]
      rw [hout, hnot] at hmem
      exact hold.gets hmem

theorem GapsOk.resume {q : LockRequestQueue κ} (h : GapsOk q) {w : LockWait κ} {fd : Fd}
    (hid : w.id = .table fd) (hw : ∀ isNew, w ≠ .exclusive fd isNew) (r : LockRequest κ)
    (t : TxnId) : GapsOk (w.resume r q t) := by
  have hgroup : ∀ group : GroupMode, group ≠ .tabX → GapsOk { q with groupMode := group } :=
    fun group hg => h.change h.upgrading hg (fun _ hk => hk) fun _ hr => Or.inl hr
  unfold LockWait.resume
  split
  · simp [LockWait.id] at hid
  · simp [LockWait.id] at hid
  · simp [LockWait.id] at hid
  · simp [LockWait.id] at hid
  · exact hgroup .gap (by simp)
  · exact h
  · refine hgroup _ ?_
    split
    · simp
    · exact h.group
  · exact h
  · refine hgroup _ ?_
    split
    · simp
    · split <;> simp
  · exact h
  · cases hid
    exact absurd rfl (hw false)
  · cases hid
    exact absurd rfl (hw true)

theorem GapInv.wake {s : LockState κ} (hi : s.GapInv) {t : TxnId} {w : LockWait κ}
    {r : LockRequest κ} (hp : s.phase t = .waiting w) (hr : w.request (s.queue w.id) t = some r)
    (hready : w.ready r = true) (ids : List LockDataId) :
    ((((s.put w.id (w.resume r (s.queue w.id) t)).setPhase t .running).enter t ids).hold
      (w.heldKey t)).GapInv := by
  generalize hs' : ((((s.put w.id (w.resume r (s.queue w.id) t)).setPhase t .running).enter t
    ids).hold (w.heldKey t)) = s'
  have hqueue : ∀ id, s'.queue id =
      if id = w.id then w.resume r (s.queue w.id) t else s.queue id := by
    intro id
    rw [← hs']
    show (s.put w.id (w.resume r (s.queue w.id) t)).queue id = _
    split
    next h => rw [h, queue_put_self]
    next h => exact queue_put_other h _
  have hphase : ∀ u, s'.phase u = if u = t then .running else s.phase u := by
    rw [← hs']
    exact fun _ => rfl
  have hheld : s'.held = s.held ++ w.heldKey t := by
    rw [← hs']
    rfl
  have hrequests : ∀ id, (s'.queue id).requestQueue = (s.queue id).requestQueue := by
    intro id
    rw [hqueue]
    split
    next h => rw [resume_requests, h]
    next => rfl
  have hkeys : ∀ u, s'.ownKeys u = s.ownKeys u := by
    intro u
    funext fd
    unfold ownKeys
    rw [hqueue]
    split
    next h => rw [resume_keys, h]
    next => rfl
  refine hi.call (t := t) ?_ (fun u _ => hkeys u) (fun fd rid => OwnStep.congr (hrequests _))
    (fun u hu => by simp [hphase, hu]) ?_ (by simp [hphase]) ?_
  · intro fd
    rw [hqueue]
    split
    next h =>
      rw [← h]
      exact GapsOk.resume (hi.tables fd) h.symm
        (fun isNew hw => hi.phases t fd isNew (by rw [hp, hw])) r t
    next => exact hi.tables fd
  · intro u hu
    rw [ownHeld, hheld, List.filter_append, filter_held_other hu, List.append_nil]
    rfl
  · intro _
    have hkeyOk := hi.keys t (by simp [hp])
    have hown : s'.ownRecord t = s.ownRecord t := by
      funext fd rid
      rw [ownRecord, LockRequestQueue.own, hrequests]
      rfl
    have hpt : s'.phase t = .running := by simp [hphase]
    have hheldt : s'.ownHeld t = s.ownHeld t ++ w.heldKey t := by
      rw [ownHeld, hheld, List.filter_append]
      congr 1
      exact List.filter_eq_self.mpr fun h hh => by simp [heldKey_txnId hh]
    rw [hkeys, hown, hpt, hheldt]
    rw [hp] at hkeyOk
    by_cases hw : ∃ fd rid index key isNew, w = .exclusiveGap fd rid index key isNew
    · obtain ⟨fd, rid, index, key, isNew, rfl⟩ := hw
      refine hkeyOk.resumeKey fun r' rest hr' hnew => ?_
      have hfirst : some r' = some r := by
        rw [← hr]
        unfold LockWait.request
        split
        next hisNew =>
          have hnil := hnew hisNew
          subst hnil
          show _ = (s.ownRecord t fd rid).getLast?
          rw [hr']
          rfl
        next =>
          rw [LockRequestQueue.find_eq_head]
          show _ = (s.ownRecord t fd rid).head?
          rw [hr']
          rfl
      rw [Option.some.inj hfirst]
      exact hready
    · have hnil : w.heldKey t = [] := by
        unfold LockWait.heldKey
        split
        · exact absurd ⟨_, _, _, _, _, rfl⟩ hw
        · rfl
      rw [hnil, List.append_nil]
      refine hkeyOk.resume fun fd rid index key isNew he => hw ⟨fd, rid, index, key, isNew, ?_⟩
      simpa using he

theorem GapInv.finish {s : LockState κ} (hi : s.GapInv) (t : TxnId) :
    (s.setPhase t .finishing).GapInv := by
  refine hi.call (t := t) hi.tables (fun _ _ => rfl) (fun _ _ => OwnStep.congr rfl) ?_
    (fun _ _ => rfl) (by simp [setPhase]) (by simp [setPhase])
  intro u hu
  simp [setPhase, hu]

/-- What the two steps that give a key without a look at the gaps have to find. A transaction that
holds the record exclusively asks for one more key there: the key lies in no gap. The unlock of a
record, with the table in neither group mode GAP nor TAB_X, grants an exclusive request: it waits
for no key. -/
def KeysClear (s : LockState κ) : LockEv κ → Prop
  | .lockExclusiveOnRecordGap t fd rid index key =>
    ((s.queue (.record fd rid)).find t).map (·.lockMode) = some .exlucsive →
      (s.queue (.table fd)).keyInGap t index key = false
  | .unlock t (.record fd rid) =>
    (s.queue (.table fd)).groupMode ≠ .gap → (s.queue (.table fd)).groupMode ≠ .tabX →
      ∀ r ∈ ((s.queue (.record fd rid)).releaseRecord t).grantLockRecord.requestQueue,
        ((s.queue (.record fd rid)).releaseRecord t).grantLockRecord.Regrants r →
        ∀ k ∈ (s.queue (.table fd)).insertKeys, k.isWaited = true → k.txnId = r.txnId →
          k.rid ≠ rid
  | _ => True

/-- An unlock by a transaction that is over, told by what it does to the keys and the requests of
the others. -/
theorem GapInv.unlock {s s' : LockState κ} (hi : s.GapInv) {t : TxnId}
    (ht : s.phase t = .finishing) (hphase : s'.phase = s.phase) (hheld : s'.held = s.held)
    (htables : ∀ fd, GapsOk (s'.queue (.table fd)))
    (hmodes : ∀ fd rid, RecordModes (s'.queue (.record fd rid)))
    {P : Fd → Rid → LockRequest κ → Prop}
    (hkeys : ∀ u, u ≠ t → ∀ fd, List.Forall₂ KeyStep (s.ownKeys u fd) (s'.ownKeys u fd))
    (hown : ∀ u, u ≠ t → ∀ fd rid,
      GrantsIf (P fd rid) (s.ownRecord u fd rid) (s'.ownRecord u fd rid))
    (hgive : ∀ u, u ≠ t → ∀ fd rid index key isNew,
      s.phase u = .waiting (.exclusiveGap fd rid index key isNew) →
      ∀ r rest, s.ownRecord u fd rid = r :: rest → r.lockMode = .exlucsive → P fd rid r →
        ∀ k ∈ s'.ownKeys u fd, k.isWaited = false) : s'.GapInv := by
  refine ⟨htables, hmodes, by rw [hphase]; exact hi.phases, fun u hp => ?_⟩
  rw [hphase] at hp ⊢
  have hu : u ≠ t := by
    rintro rfl
    exact hp ht
  have hh : s'.ownHeld u = s.ownHeld u := by rw [ownHeld, hheld]; rfl
  rw [hh]
  exact (hi.keys u hp).unlock (hkeys u hu) (hown u hu) (hgive u hu)

theorem GapInv.unlockRecord {s : LockState κ} (hi : s.GapInv) {t : TxnId}
    (ht : s.phase t = .finishing) {fd : Fd} {rid : Rid}
    (hclear : s.KeysClear (.unlock t (.record fd rid))) (lockSet : TxnId → List LockDataId) :
    GapInv { s with locks := Grmdb.unlockRecord s.locks t fd rid, lockSet := lockSet } := by
  generalize hs' : ({ s with locks := Grmdb.unlockRecord s.locks t fd rid, lockSet := lockSet } :
    LockState κ) = s'
  have hlocks : s'.locks = Grmdb.unlockRecord s.locks t fd rid := by rw [← hs']
  obtain ⟨hother, htable, hself⟩ :=
    unlockRecord_cases (rfl : Grmdb.unlockRecord s.locks t fd rid = _)
  rw [← hlocks] at hother htable hself
  have hsame : ∀ id, id ≠ .record fd rid → id ≠ .table fd → s'.queue id = s.queue id := by
    intro id hr ht
    rw [queue, hother id hr ht]
    rfl
  have htab : s'.queue (.table fd) = s.queue (.table fd) ∨
      s'.queue (.table fd) = (s.queue (.table fd)).removeKeys t := by
    rcases htable with h | h
    · left
      rw [queue, h]
      rfl
    · cases hq : s.locks (.table fd) with
      | none => exact Or.inl (by simp [queue, h, hq])
      | some q => exact Or.inr (by simp [queue, h, hq])
  obtain ⟨q₂, hq₂⟩ : ∃ q₂, ((s.queue (.record fd rid)).releaseRecord t).grantLockRecord = q₂ :=
    ⟨_, rfl⟩
  have hrec : RecordModes (s'.queue (.record fd rid)) ∧ ∀ u, u ≠ t →
      GrantsIf (fun r => r.lockMode = .shared ∨ (s.queue (.table fd)).groupMode ≠ .gap ∧
        (s.queue (.table fd)).groupMode ≠ .tabX ∧ r ∈ q₂.requestQueue ∧ q₂.Regrants r)
        ((s.queue (.record fd rid)).own u) ((s'.queue (.record fd rid)).own u) := by
    rcases hself with hself | ⟨q, hq, _, hself⟩
    · have hqueue : s'.queue (.record fd rid) = s.queue (.record fd rid) := by
        rw [queue, hself]
        rfl
      rw [hqueue]
      exact ⟨hi.records fd rid, fun u _ => GrantsIf.refl _⟩
    · have hqueue : s.queue (.record fd rid) = q := by simp [queue, hq]
      rw [hqueue] at hq₂ ⊢
      have hmodes : RecordModes q := hqueue ▸ hi.records fd rid
      have hstep := releaseRecord_own hmodes t
      have hgrant : GrantsIf (fun r => r.lockMode = .shared) (q.releaseRecord t).requestQueue
          q₂.requestQueue := by
        rw [← hq₂]
        exact grantRecord_grantsIf _ _
      have hmodes₂ : RecordModes q₂ := (hstep.modes hmodes).grantsIf hgrant
      rcases hself with ⟨hnone, hempty⟩ | hsome | ⟨hsome, qt, hqt, hgap, htabX⟩
      · have hqueue' : s'.queue (.record fd rid) = .empty := by simp [queue, hnone]
        rw [hqueue']
        refine ⟨by simp [RecordModes, LockRequestQueue.empty], fun u hu => ?_⟩
        rw [← hstep.others u hu, LockRequestQueue.own, hempty]
        exact .nil
      · have hqueue' : s'.queue (.record fd rid) = q₂ := by simp [queue, hsome, hq₂]
        rw [hqueue']
        refine ⟨hmodes₂, fun u hu => ?_⟩
        rw [← hstep.others u hu]
        exact (hgrant.filter u).imp fun _ _ h => h.imp_right fun h => ⟨Or.inl h.1, h.2⟩
      · have hqueue' : s'.queue (.record fd rid) = q₂.regrant := by simp [queue, hsome, hq₂]
        have htable : s.queue (.table fd) = qt := by simp [queue, hqt]
        rw [hqueue', htable]
        have hregrant := (regrant_grantsIf q₂).mem_left
        refine ⟨hmodes₂.grantsIf hregrant, fun u hu => ?_⟩
        rw [← hstep.others u hu]
        have hboth := GrantsIf.trans (hgrant.filter u) (hregrant.filter u) fun _ h => h.2.1
        refine hboth.imp fun _ _ h => h.imp_right fun h => ⟨?_, h.2⟩
        exact h.1.imp_right fun h => ⟨hgap, htabX, h⟩
  have hkeys : ∀ u, u ≠ t → s'.ownKeys u = s.ownKeys u := by
    intro u hu
    funext fd'
    unfold ownKeys
    by_cases hfd : fd' = fd
    · subst hfd
      rcases htab with h | h
      · rw [h]
      · rw [h, LockRequestQueue.removeKeys, List.filter_filter]
        refine List.filter_congr fun k _ => ?_
        by_cases hk : k.txnId = u <;> simp [hk, hu]
    · rw [hsame _ (by simp) (by simpa using hfd)]
  refine hi.unlock ht (by rw [← hs']) (by rw [← hs']) ?_ ?_
    (P := fun fd' rid' r => fd' = fd ∧ rid' = rid ∧ (r.lockMode = .shared ∨
      (s.queue (.table fd)).groupMode ≠ .gap ∧ (s.queue (.table fd)).groupMode ≠ .tabX ∧
      r ∈ q₂.requestQueue ∧ q₂.Regrants r)) ?_ ?_ ?_
  · intro fd'
    by_cases hfd : fd' = fd
    · subst hfd
      rcases htab with h | h
      · rw [h]
        exact hi.tables fd'
      · rw [h]
        exact (hi.tables fd').change (hi.tables fd').upgrading (hi.tables fd').group
          (fun k hk => (List.mem_filter.mp hk).1) fun _ hr => Or.inl hr
    · rw [hsame _ (by simp) (by simpa using hfd)]
      exact hi.tables fd'
  · intro fd' rid'
    by_cases hid : LockDataId.record fd' rid' = .record fd rid
    · rw [hid]
      exact hrec.1
    · rw [hsame _ hid (by simp)]
      exact hi.records fd' rid'
  · intro u hu fd'
    rw [hkeys u hu]
    exact List.forall₂_same.mpr fun _ _ => Or.inl rfl
  · intro u hu fd' rid'
    by_cases hid : LockDataId.record fd' rid' = .record fd rid
    · obtain ⟨rfl, rfl⟩ : fd' = fd ∧ rid' = rid := by simpa using hid
      simpa [ownRecord] using hrec.2 u hu
    · unfold ownRecord
      rw [hsame _ hid (by simp)]
      exact GrantsIf.refl _
  · rintro u hu fd' rid' index key isNew hp r rest hr hm ⟨rfl, rfl, hP⟩ k hk
    rcases hP with hP | ⟨hgap, htabX, hmem, hregrants⟩
    · simp [hm] at hP
    · by_contra hw
      rw [hkeys u hu] at hk
      have hru : r.txnId = u := by
        have hmem : r ∈ (s.queue (.record fd' rid')).own u := by
          rw [show (s.queue (.record fd' rid')).own u = r :: rest from hr]
          exact List.mem_cons_self
        simpa using (List.mem_filter.mp hmem).2
      obtain ⟨hk', hku⟩ := List.mem_filter.mp hk
      have hwaited : k.isWaited = true := by simpa using hw
      obtain ⟨_, hp'⟩ := (hi.keys u (by simp [hp])).waited _ k hk hwaited
      rw [hp] at hp'
      cases hp'
      subst hq₂
      exact hclear hgap htabX r hmem hregrants k hk' hwaited (by simpa [hru] using hku) rfl

theorem gapsOk_empty : GapsOk (.empty : LockRequestQueue κ) :=
  ⟨by simp [LockRequestQueue.empty], rfl, by simp [LockRequestQueue.empty],
    by simp [LockRequestQueue.empty]⟩

/-- The loop over the keys: a request is granted with all the keys that its transaction waits
for. -/
theorem GapInv.regrantKeys {s s' : LockState κ} (hi : s.GapInv) {t : TxnId} {fd : Fd}
    {q : LockRequestQueue κ} {out : List (InsertKey κ) × Locks κ × GroupMode}
    (ht : s.phase t = .finishing) (hq : s.locks (.table fd) = some q)
    (hphase : s'.phase = s.phase) (hheld : s'.held = s.held)
    (hgaps : GapsOk (q.releaseTable t).grantLockTable)
    (hspec : KeysRegranted fd (q.releaseTable t).grantLockTable (q.releaseTable t).insertKeys
      s.locks (q.releaseTable t).grantLockTable.groupMode out)
    (hlocks : s'.locks = out.2.1.set (.table fd) (some { (q.releaseTable t).grantLockTable with
      insertKeys := out.1, groupMode := out.2.2 })) : s'.GapInv := by
  have hqueue : s.queue (.table fd) = q := by simp [queue, hq]
  have hself : s'.queue (.table fd) = { (q.releaseTable t).grantLockTable with
      insertKeys := out.1, groupMode := out.2.2 } := by simp [queue, hlocks]
  have hother : ∀ id, id ≠ .table fd → (∀ rid, id ≠ .record fd rid) →
      s'.queue id = s.queue id := by
    intro id hid hrec
    simp [queue, hlocks, Locks.set_other hid, hspec.tables id hrec]
  have hrecord : ∀ rid, ∃ l, s'.queue (.record fd rid) =
      { s.queue (.record fd rid) with requestQueue := l } ∧
      GrantsIf (fun r => ∃ k ∈ (q.releaseTable t).insertKeys,
        (q.releaseTable t).grantLockTable.grantsKey fd s.locks k = true ∧ k.rid = rid ∧
          k.txnId = r.txnId) (s.queue (.record fd rid)).requestQueue l := by
    intro rid
    have hne : LockDataId.record fd rid ≠ .table fd := by simp
    cases hrec : s.locks (.record fd rid) with
    | none =>
      refine ⟨[], ?_, ?_⟩
      · simp [queue, hlocks, Locks.set_other hne, hspec.missing rid hrec, hrec,
          LockRequestQueue.empty]
      · simp only [queue, hrec, Option.getD_none, LockRequestQueue.empty]
        exact .nil
    | some queueRec =>
      obtain ⟨l, hl, hg⟩ := hspec.records rid queueRec hrec
      refine ⟨l, ?_, ?_⟩
      · simp [queue, hlocks, Locks.set_other hne, hl, hrec]
      · simp only [queue, hrec, Option.getD_some]
        exact hg
  have hkeys : ∀ u, u ≠ t → s'.ownKeys u fd = (s.ownKeys u fd).map fun k =>
      if (q.releaseTable t).grantLockTable.grantsKey fd s.locks k then { k with isWaited := false }
      else k := by
    intro u hu
    have hrel := ownKeys_release (q := q) hu
    unfold ownKeys
    rw [hself, hqueue, ← hrel]
    show out.1.filter _ = _
    rw [hspec.newKeys, List.filter_map]
    congr 1
    refine List.filter_congr fun k _ => ?_
    simp only [Function.comp_apply]
    split <;> rfl
  refine hi.unlock ht hphase hheld ?_ ?_
    (P := fun fd' rid r => fd' = fd ∧ ∃ k ∈ (q.releaseTable t).insertKeys,
      (q.releaseTable t).grantLockTable.grantsKey fd s.locks k = true ∧ k.rid = rid ∧
        k.txnId = r.txnId) ?_ ?_ ?_
  · intro fd'
    by_cases hfd : fd' = fd
    · rw [hfd, hself]
      exact hgaps.regrant hspec
    · rw [hother _ (by simpa using hfd) (by simp)]
      exact hi.tables fd'
  · intro fd' rid
    by_cases hfd : fd' = fd
    · subst hfd
      obtain ⟨l, hl, hg⟩ := hrecord rid
      rw [hl]
      exact (hi.records fd' rid).grantsIf hg
    · rw [hother _ (by simp) (by simp [hfd])]
      exact hi.records fd' rid
  · intro u hu fd'
    by_cases hfd : fd' = fd
    · rw [hfd, hkeys u hu]
      refine List.forall₂_map_right_iff.mpr (List.forall₂_same.mpr fun k _ => ?_)
      unfold KeyStep
      split
      · exact Or.inr rfl
      · exact Or.inl rfl
    · unfold ownKeys
      rw [hother _ (by simpa using hfd) (by simp)]
      exact List.forall₂_same.mpr fun _ _ => Or.inl rfl
  · intro u hu fd' rid
    unfold ownRecord
    by_cases hfd : fd' = fd
    · subst hfd
      obtain ⟨l, hl, hg⟩ := hrecord rid
      rw [hl]
      simpa [LockRequestQueue.own] using hg.filter u
    · rw [hother _ (by simp) (by simp [hfd])]
      exact GrantsIf.refl _
  · rintro u hu fd' rid index key isNew hp r rest hr hm ⟨rfl, k, hk, hgk, hkr, hkt⟩ k' hk'
    have hru : r.txnId = u := by
      have hmem : r ∈ (s.queue (.record fd' rid)).own u := by
        rw [show (s.queue (.record fd' rid)).own u = r :: rest from hr]
        exact List.mem_cons_self
      simpa using (List.mem_filter.mp hmem).2
    have hkw : k.isWaited = true := by
      simp only [LockRequestQueue.grantsKey, LockRequestQueue.frees, Bool.and_eq_true] at hgk
      exact hgk.1.1
    have hkown : k ∈ s.ownKeys u fd' := by
      rw [ownKeys, hqueue, ← ownKeys_release hu]
      exact List.mem_filter.mpr ⟨hk, by simp [hkt, hru]⟩
    have hwaits := (hi.keys u (by simp [hp])).waited fd'
    rw [hkeys u hu] at hk'
    obtain ⟨k₀, hk₀, rfl⟩ := List.mem_map.mp hk'
    split
    next => rfl
    next hno =>
      by_contra hw
      have hw₀ : k₀.isWaited = true := by simpa using hw
      obtain ⟨_, hp₀⟩ := hwaits k₀ hk₀ hw₀
      obtain ⟨_, hp₁⟩ := hwaits k hkown hkw
      have hu₀ : k₀.txnId = u := by simpa using (List.mem_filter.mp hk₀).2
      have hsame : k₀ = k := by
        rw [hp] at hp₀ hp₁
        cases k₀
        cases k
        simp_all
      exact hno (hsame ▸ hgk)

theorem GapInv.unlockTable {s : LockState κ} (hi : s.GapInv) {t : TxnId} {fd : Fd}
    {locks : Locks κ} (ht : s.phase t = .finishing) (hu : unlockTable s.locks t fd = some locks)
    (lockSet : TxnId → List LockDataId) :
    GapInv { s with locks := locks, lockSet := lockSet } := by
  generalize hs' : ({ s with locks := locks, lockSet := lockSet } : LockState κ) = s'
  have hlocks : s'.locks = locks := by rw [← hs']
  have hphase : s'.phase = s.phase := by rw [← hs']
  have hheld : s'.held = s.held := by rw [← hs']
  rcases unlockTable_cases hu with ⟨hsame, _⟩ | ⟨q, hq, _, hcase⟩
  · have hqueue : ∀ id, s'.queue id = s.queue id := fun id => by simp [queue, hlocks, hsame]
    refine hi.unlock (P := fun _ _ _ => False) ht hphase hheld (fun fd => hqueue _ ▸ hi.tables fd)
      (fun fd rid => hqueue _ ▸ hi.records fd rid) ?_ ?_ (by simp)
    · intro u _ fd'
      unfold ownKeys
      rw [hqueue]
      exact List.forall₂_same.mpr fun _ _ => Or.inl rfl
    · intro u _ fd' rid
      unfold ownRecord
      rw [hqueue]
      exact GrantsIf.refl _
  · have hqueue : s.queue (.table fd) = q := by simp [queue, hq]
    have hgaps : GapsOk (q.releaseTable t).grantLockTable :=
      (hqueue ▸ hi.tables fd : GapsOk q).release.grant
    rcases hcase with ⟨_, hempty, rfl⟩ | ⟨out, hspec, rfl⟩
    · have hother : ∀ id, id ≠ .table fd → s'.queue id = s.queue id := fun id hid => by
        simp [queue, hlocks, Locks.set_other hid]
      have hself : s'.queue (.table fd) = .empty := by simp [queue, hlocks]
      refine hi.unlock (P := fun _ _ _ => False) ht hphase hheld ?_ ?_ ?_ ?_ (by simp)
      · intro fd'
        by_cases hfd : fd' = fd
        · rw [hfd, hself]
          exact gapsOk_empty
        · rw [hother _ (by simpa using hfd)]
          exact hi.tables fd'
      · intro fd' rid
        rw [hother _ (by simp)]
        exact hi.records fd' rid
      · intro u hu fd'
        unfold ownKeys
        by_cases hfd : fd' = fd
        · rw [hfd, hself, hqueue, ← ownKeys_release hu, hempty]
          exact .nil
        · rw [hother _ (by simpa using hfd)]
          exact List.forall₂_same.mpr fun _ _ => Or.inl rfl
      · intro u _ fd' rid
        unfold ownRecord
        rw [hother _ (by simp)]
        exact GrantsIf.refl _
    · exact hi.regrantKeys ht hq hphase hheld hgaps hspec hlocks

theorem gapInv_fresh : (fresh : LockState κ).GapInv := by
  refine ⟨fun _ => gapsOk_empty, fun _ _ => ?_, by simp [fresh], fun t _ => ?_⟩
  · simp [RecordModes, queue, fresh, LockRequestQueue.empty]
  · refine ⟨?_, by simp [ownHeld, fresh], by simp [fresh]⟩
    simp [ownKeys, queue, fresh, LockRequestQueue.empty]

theorem gapInv_step {s s' : LockState κ} {e : LockEv κ} (hi : s.GapInv)
    (hgood : (∀ t fd, e ≠ .lockExclusiveOnTable t fd) ∧ s.KeysClear e)
    (h : s.step e = some s') : s'.GapInv := by
  cases e with
  | lockSharedOnRecord t fd rid =>
    simp only [step] at h
    split at h
    next ht =>
      cases Option.some.inj h
      exact hi.shared ht fd rid
    next => simp at h
  | lockExclusiveOnRecordGap t fd rid index key =>
    simp only [step] at h
    split at h
    next ht =>
      cases Option.some.inj h
      exact hi.exclusiveGap ht hgood.2
    next => simp at h
  | lockGAPOnTable t fd lower upper index =>
    simp only [step] at h
    split at h
    next ht =>
      cases Option.some.inj h
      exact hi.tableCall ht (fun _ => ⟨rfl, by simp, rfl⟩)
        (lockGAPOnTable_gaps (hi.tables fd) lower upper index)
        (lockGAPOnTable_keys _ t lower upper index)
    next => simp at h
  | lockISOnTable t fd =>
    simp only [step] at h
    split at h
    next ht =>
      obtain ⟨⟨q, out⟩, hcall, rfl⟩ := Option.map_eq_some_iff.mp h
      exact hi.tableCall ht (fun _ => ⟨rfl, by simp, rfl⟩) (lockISOnTable_gaps (hi.tables fd) hcall)
        (lockISOnTable_keys hcall)
    next => simp at h
  | lockIXOnTable t fd =>
    simp only [step] at h
    split at h
    next ht =>
      cases Option.some.inj h
      exact hi.tableCall ht (fun _ => ⟨rfl, by simp, rfl⟩) (lockIXOnTable_gaps (hi.tables fd))
        (lockIXOnTable_keys _ t)
    next => simp at h
  | lockExclusiveOnTable t fd => exact absurd rfl (hgood.1 t fd)
  | wake t =>
    simp only [step] at h
    split at h
    next w hp =>
      split at h
      next r hr =>
        split at h
        next hready =>
          cases Option.some.inj h
          exact hi.wake hp hr hready _
        next => simp at h
      next => simp at h
    next => simp at h
  | finish t =>
    simp only [step] at h
    split at h
    next ht =>
      cases Option.some.inj h
      exact hi.finish t
    next => simp at h
  | unlock t id =>
    simp only [step] at h
    split at h
    next ht =>
      cases id with
      | table fd =>
        obtain ⟨locks, hu, rfl⟩ := Option.map_eq_some_iff.mp h
        exact hi.unlockTable ht.1 hu _
      | record fd rid =>
        cases Option.some.inj h
        exact hi.unlockRecord ht.1 hgood.2 _
    next => simp at h

/-- No key is given inside another transaction's gap, in every state that is reached without
exclusive table locks by steps that meet `KeysClear`. -/
theorem noPhantom_of_keysClear {tr : List (LockEv κ)} {s : LockState κ}
    (h : run step fresh tr = some s) (htable : ∀ e ∈ tr, ∀ t fd, e ≠ .lockExclusiveOnTable t fd)
    (hclear : MeetsAll step KeysClear fresh tr) : s.NoPhantom := by
  have htables : MeetsAll step (fun _ e => ∀ t fd, e ≠ .lockExclusiveOnTable t fd) fresh tr :=
    meetsAll_of_mem fun e he _ => htable e he
  have hinv : s.GapInv :=
    run_invariant (fun _ _ _ hi hgood => gapInv_step hi hgood) gapInv_fresh
      (meetsAll_and htables hclear) h
  exact hinv.noPhantom

instance (q : LockRequestQueue κ) (r : LockRequest κ) : Decidable (q.Regrants r) :=
  inferInstanceAs (Decidable (_ ∧ (_ ∧ _ ∨ _ ∧ _)))

instance (s : LockState κ) (e : LockEv κ) : Decidable (s.KeysClear e) :=
  match e with
  | .lockExclusiveOnRecordGap _ _ _ _ _ => inferInstanceAs (Decidable (_ → _))
  | .unlock _ (.record _ _) => inferInstanceAs (Decidable (_ → _ → ∀ _ ∈ _, _ → ∀ _ ∈ _, _))
  | .unlock _ (.table _) | .lockSharedOnRecord _ _ _ | .lockGAPOnTable _ _ _ _ _
  | .lockISOnTable _ _ | .lockIXOnTable _ _ | .lockExclusiveOnTable _ _ | .wake _ | .finish _ =>
    isTrue trivial

end Order

/-- A writer waits for the row that it inserts into a gap until the scan is over. -/
def insertIntoGap : List (LockEv Int) :=
  [.lockISOnTable 1 3, .lockGAPOnTable 1 3 0 10 4, .lockIXOnTable 0 3,
    .lockExclusiveOnRecordGap 0 3 ⟨1, 0⟩ 4 20, .lockExclusiveOnRecordGap 0 3 ⟨1, 1⟩ 4 5,
    .finish 1, .unlock 1 (.table 3), .wake 0]

theorem noPhantom_insertIntoGap : ∃ s, run step fresh insertIntoGap = some s ∧
    s.held = [⟨0, 3, 4, 20⟩, ⟨0, 3, 4, 5⟩] ∧ s.NoPhantom :=
  ⟨_, rfl, rfl, noPhantom_of_keysClear (show run step fresh insertIntoGap = some _ from rfl)
    (by simp [insertIntoGap]) (by decide)⟩

/-- The row is locked for its first index when the key in the second one is asked for. -/
def twoIndexes : List (LockEv Int) :=
  [.lockGAPOnTable 1 3 0 10 5, .lockExclusiveOnRecordGap 0 3 ⟨1, 0⟩ 4 100,
    .lockExclusiveOnRecordGap 0 3 ⟨1, 0⟩ 5 5]

theorem not_noPhantom_twoIndexes : ∃ s, run step fresh twoIndexes = some s ∧
    (s.queue (.table 3)).requestQueue = [⟨1, .gap, false, [⟨0, 10, 5, false⟩]⟩] ∧
    s.held = [⟨0, 3, 4, 100⟩, ⟨0, 3, 5, 5⟩] ∧ ¬ s.NoPhantom := by
  refine ⟨_, rfl, rfl, rfl, fun h => ?_⟩
  have hno := h 3 ⟨1, .gap, false, [⟨0, 10, 5, false⟩]⟩ (by decide) ⟨0, 10, 5, false⟩ (by decide)
    rfl ⟨0, 3, 5, 5⟩ (by decide) rfl (by decide) (by decide)
  revert hno
  decide

end LockState

end Grmdb
