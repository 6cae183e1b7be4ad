import Grmdb.CallGrants

namespace Grmdb

open LockRequestQueue Runs

variable {κ : Type}

namespace LockState

theorem OneEach.queueSingle {s : LockState κ} (h : s.OneEach) (id : LockDataId) :
    (s.queue id).Single :=
  fun _ hr _ ho heq => h.eq_of_txnId hr ho heq

variable [LinearOrder κ]

/-- The steps that leave nobody waiting for a lock that nobody holds. -/
def KeepsGrants (s : LockState κ) : LockEv κ → Prop
  | .lockSharedOnRecord _ _ _ | .wake _ | .finish _ => True
  | .lockExclusiveOnRecordGap t fd rid index key =>
    let queueRec := s.queue (.record fd rid)
    let queueTable := s.queue (.table fd)
    let diesOnTable := queueTable.groupMode = .gap ∧ queueTable.dies t = true
    queueRec.RefusesExclusive t (queueTable.keyInGap t index key) →
      -- a shared lock is given up for the sake of a gap alone
      (queueRec.otherGranted t = false → queueRec.find t ≠ none →
        s.StandsWithout t [.record fd rid]) ∧
      -- `wait_die` takes what the transaction has on the table
      (queueRec.dies t = false → diesOnTable → s.StandsWithout t
        (if queueRec.otherGranted t then [.table fd] else [.record fd rid, .table fd])) ∧
      -- the gaps that the key waits for wait themselves
      (queueRec.otherGranted t = false → queueRec.dies t = false → ¬ diesOnTable →
        ∃ o ∈ queueTable.requestQueue, o.txnId ≠ t ∧ o.gapOver index key = true)
  | .lockGAPOnTable t fd lower upper index =>
    let q := s.queue (.table fd)
    (q.RefusesGap t ⟨lower, upper, index, false⟩ ∧ q.dies t = true ∨
        q.groupMode ≠ .tabX ∧ q.ownHoldsX t = true → s.StandsWithout t [.table fd]) ∧
      (q.Refuses .tabX t → q.dies t = false → q.otherHoldsX t = true)
  | .lockISOnTable t fd =>
    let q := s.queue (.table fd)
    (q.Refuses .tabX t ∧ q.dies t = true → s.StandsWithout t [.table fd]) ∧
      -- the group mode is that of a lock that is gone
      (q.Refuses .tabX t → q.dies t = false → q.otherHoldsX t = true)
  | .lockIXOnTable t fd =>
    let q := s.queue (.table fd)
    (q.Refuses .tabX t ∧ q.dies t = true ∨ q.groupMode = .is ∧ q.ownHoldsX t = true →
        s.StandsWithout t [.table fd]) ∧
      (q.Refuses .tabX t → q.dies t = false → q.otherHoldsX t = true)
  | .lockExclusiveOnTable t fd =>
    let q := s.queue (.table fd)
    (q.RefusesTable t ∧ (q.dies t = true ∨ q.ownHoldsX t = true) →
        s.StandsWithout t [.table fd]) ∧
      (q.RefusesTable t → q.find t = none → q.dies t = false → q.SomeLock t)
  | .unlock t (.record fd rid) =>
    (s.queue (.record fd rid)).find t ≠ none →
      -- exclusive requests are left alone
      (s.locks.tableTaken fd → ∀ u w r, s.Waits u w r → w.id = .record fd rid →
        r.lockMode = .exlucsive → ∃ v x, s.InWay w r v x ∧ (v ≠ t ∨ x ≠ .record fd rid)) ∧
      -- the insert keys go, and the table is left alone
      ((s.queue (.record fd rid)).groupMode = .x → ∀ u w r, s.Waits u w r → w.id = .table fd →
        ∃ v x, s.InWay w r v x ∧ (v ≠ t ∨ s.RequestInWay w r v x))
  | .unlock t (.table fd) =>
    let q := s.queue (.table fd)
    q.find t ≠ none →
      -- the gaps over a waiting key that are left wait themselves
      (∀ u rid index key isNew r, s.Waits u (.exclusiveGap fd rid index key isNew) r →
        (∃ v x, s.InWay (.exclusiveGap fd rid index key isNew) r v x ∧
          (v ≠ t ∨ x ≠ .table fd)) ∨
        ∃ k ∈ q.insertKeys, k.txnId = u ∧ k.rid = rid ∧ k.isWaited = true ∧
          (q.releaseTable t).keyInGap u k.index k.insertKey = false) ∧
      -- `grant_lock` does not grant a request in mode GAP
      (∀ u w r, s.Waits u w r → (∃ isNew, w = .is fd isNew ∨ w = .ix fd isNew) →
        r.lockMode = .gap → ∃ v x, s.InWay w r v x ∧ v ≠ t)

section Calls

variable {s : LockState κ} {t : TxnId}

omit [LinearOrder κ] in
/-- The wait that a call has begun. -/
theorem Waits.of_call {s : LockState κ} (ht : s.phase t = .running)
    {wait : Bool → LockWait κ} {out : Outcome} {w : LockWait κ} {r : LockRequest κ}
    (h : (s.finishCall t wait out).Waits t w r) : ∃ b, out = .waits b ∧ w = wait b := by
  have hp := h.phase
  rw [finishCall_phase_self ht] at hp
  cases out with
  | waits b => exact ⟨b, rfl, (TxnPhase.waiting.inj hp).symm⟩
  | returns => cases hp
  | aborts => cases hp

omit [LinearOrder κ] in
theorem Waits.eq_of_mem {s' : LockState κ} (hone : s'.OneEach) {w : LockWait κ}
    {r r' : LockRequest κ} (h : s'.Waits t w r) (hr' : r' ∈ (s'.queue w.id).requestQueue)
    (hrt : r'.txnId = t) : r' = r := by
  have hreq := hone.request hr'
  rw [hrt, h.request] at hreq
  exact (Option.some.inj hreq).symm

/-- What a request conflicts with in its own queue is in its way. -/
theorem inWay_of_conflicts {s' : LockState κ} {w : LockWait κ} {r : LockRequest κ}
    (h : HeldX r (s'.queue w.id)) : ∃ u x, s'.InWay w r u x := by
  obtain ⟨o, ho, hc⟩ := h
  refine ⟨o.txnId, w.id, Or.inl ⟨?_, o, ho, rfl, Or.inl ⟨rfl, hc⟩⟩⟩
  simp only [LockRequest.conflicts, Bool.and_eq_true, decide_eq_true_eq] at hc
  exact hc.1

/-- A call on the queue of a table. -/
theorem AllBlocked.tableCall (hi : s.AllBlocked) (hw : s.WaitShape) (hone : s.OneEach)
    (ht : s.phase t = .running) {fd : Fd} {q : LockRequestQueue κ} {out : Outcome}
    {wait : Bool → LockWait κ} {lost : Prop} {held : LockRequest κ → LockRequestQueue κ → Prop}
    (hframe : CallFrame t (s.queue (.table fd)) q)
    (hgrants : CallGrants t (s.queue (.table fd)) q out lost held)
    (hlost : lost → s.StandsWithout t [.table fd])
    (hone' : ((s.put (.table fd) q).finishCall t wait out).OneEach)
    (hid : ∀ b, (wait b).id = .table fd)
    (hheld : ∀ (s' : LockState κ) b r, held r (s'.queue (wait b).id) →
      ∃ u x, s'.InWay (wait b) r u x) :
    ((s.put (.table fd) q).finishCall t wait out).AllBlocked := by
  have hqueue : ((s.put (.table fd) q).finishCall t wait out).queue (.table fd) = q := by
    rw [finishCall_queue, queue_put_self]
  have hother : ∀ x, x ≠ .table fd →
      ((s.put (.table fd) q).finishCall t wait out).queue x = s.queue x := by
    intro x hx
    rw [finishCall_queue, queue_put_other hx]
  have hxs : ∃ xs, (xs ≠ [] → s.StandsWithout t xs) ∧ (.table fd ∉ xs →
      StillHeld t (s.queue (.table fd)) q ∧ KeepsGaps t (s.queue (.table fd)) q) := by
    rcases hgrants.others with h | h
    · exact ⟨[.table fd], fun _ => hlost h, by simp⟩
    · exact ⟨[], by simp, fun _ => h⟩
  obtain ⟨xs, hstands, hkept⟩ := hxs
  refine hi.call (t := t) hw hone
    (fun u hu => finishCall_phase_other hu wait out) (fun x => ?_) xs (fun x hx => ?_)
    (fun fd' hx => ?_) hstands fun w r hwaits => ?_
  · by_cases hxt : x = .table fd
    · subst hxt
      rw [hqueue]
      exact hframe
    · rw [hother x hxt]
      exact CallFrame.refl t _
  · by_cases hxt : x = .table fd
    · subst hxt
      rw [hqueue]
      exact (hkept hx).1
    · rw [hother x hxt]
      exact StillHeld.of_mem fun _ ho => ho
  · by_cases hxt : LockDataId.table fd' = .table fd
    · rw [hxt] at hx ⊢
      rw [hqueue]
      exact (hkept hx).2
    · rw [hother _ hxt]
      exact KeepsGaps.of_mem (fun _ ho => ho) fun _ hk => hk
  · obtain ⟨b, rfl, rfl⟩ := Waits.of_call (s := s.put (.table fd) q) ht hwaits
    obtain ⟨r', hr', hrt, hh⟩ := hgrants.waits b rfl
    have hmem : r' ∈ (((s.put (.table fd) q).finishCall t wait (.waits b)).queue
        (wait b).id).requestQueue := by
      rw [hid, hqueue]
      exact hr'
    obtain rfl := hwaits.eq_of_mem hone' hmem hrt
    refine hheld _ b r' ?_
    rw [hid, hqueue]
    exact hh

theorem AllBlocked.sharedCall (hi : s.AllBlocked) (hw : s.WaitShape) (hone : s.OneEach)
    (hgroups : s.RecordGroups) (ht : s.phase t = .running) (fd : Fd) (rid : Rid)
    (hone' : ((s.put (.record fd rid) ((s.queue (.record fd rid)).lockSharedOnRecord
      t).1).finishCall t (.shared fd rid)
        ((s.queue (.record fd rid)).lockSharedOnRecord t).2).OneEach) :
    ((s.put (.record fd rid) ((s.queue (.record fd rid)).lockSharedOnRecord t).1).finishCall t
      (.shared fd rid) ((s.queue (.record fd rid)).lockSharedOnRecord t).2).AllBlocked := by
  have hcalls := calls_shared ht fd rid
  obtain ⟨hstill, hwait⟩ := @lockSharedOnRecord_grants κ t _ (hone.queueSingle (.record fd rid))
    (hgroups fd rid)
  generalize hq : (s.queue (.record fd rid)).lockSharedOnRecord t = result at *
  obtain ⟨q, out⟩ := result
  dsimp only at *
  have hqueue : ((s.put (.record fd rid) q).finishCall t (.shared fd rid) out).queue
      (.record fd rid) = q := by
    rw [finishCall_queue, queue_put_self]
  refine hi.call (t := t) hw
    hone hcalls.others hcalls.frame [] (fun x _ => ?_) (fun fd' _ => ?_) (by simp)
    fun w r hwaits => ?_
  · by_cases hx : x = .record fd rid
    · subst hx
      rw [hqueue]
      exact hstill
    · rw [finishCall_queue, queue_put_other hx]
      exact StillHeld.of_mem fun _ ho => ho
  · rw [finishCall_queue, queue_put_other (by simp)]
    exact KeepsGaps.of_mem (fun _ ho => ho) fun _ hk => hk
  · obtain ⟨b, rfl, rfl⟩ := Waits.of_call (s := s.put (.record fd rid) q) ht hwaits
    obtain ⟨r', hr', hrt, hh⟩ := hwait b rfl
    have hmem : r' ∈ (((s.put (.record fd rid) q).finishCall t (.shared fd rid)
        (.waits b)).queue (.record fd rid)).requestQueue := by
      rw [hqueue]
      exact hr'
    obtain rfl := hwaits.eq_of_mem hone' hmem hrt
    refine inWay_of_conflicts ?_
    show HeldX r' (((s.put (.record fd rid) q).finishCall t (.shared fd rid)
      (.waits b)).queue (.record fd rid))
    rw [hqueue]
    exact hh

theorem AllBlocked.exclusiveCall (hi : s.AllBlocked) (hw : s.WaitShape) (hone : s.OneEach)
    (ht : s.phase t = .running) {fd : Fd} {rid : Rid} {index : IndexId} {key : κ}
    (hgood : s.KeepsGrants (.lockExclusiveOnRecordGap t fd rid index key))
    {queueRec queueTable : LockRequestQueue κ} {out : Outcome}
    (hcall : (s.queue (.record fd rid)).lockExclusiveOnRecordGap (s.queue (.table fd)) t rid index
      key = (queueRec, queueTable, out))
    (hone' : (((s.put (.record fd rid) queueRec).put (.table fd) queueTable).finishCall t
      (.exclusiveGap fd rid index key) out).OneEach) :
    (((s.put (.record fd rid) queueRec).put (.table fd) queueTable).finishCall t
      (.exclusiveGap fd rid index key) out).AllBlocked := by
  have hcalls := calls_exclusiveGap ht hone fd rid index key
  have hgrants := exclusiveOnRecord_grants (t := t) (hone.queueSingle (.record fd rid))
    (hone.records fd rid) { s.queue (.table fd) with
      insertKeys := (s.queue (.table fd)).insertKeys ++
        [⟨key, index, t, rid, (s.queue (.table fd)).keyInGap t index key⟩] }
    ((s.queue (.table fd)).keyInGap t index key)
  have heq : (s.queue (.record fd rid)).exclusiveOnRecord { s.queue (.table fd) with
      insertKeys := (s.queue (.table fd)).insertKeys ++
        [⟨key, index, t, rid, (s.queue (.table fd)).keyInGap t index key⟩] } t
      ((s.queue (.table fd)).keyInGap t index key) = (queueRec, queueTable, out) := hcall
  rw [heq] at hgrants
  rw [hcall] at hcalls
  dsimp only at hgrants hcalls
  generalize hs' : ((s.put (.record fd rid) queueRec).put (.table fd) queueTable).finishCall t
    (.exclusiveGap fd rid index key) out = s' at *
  have hrec : s'.queue (.record fd rid) = queueRec := by
    rw [← hs', finishCall_queue, queue_put_other (by simp), queue_put_self]
  have htable : s'.queue (.table fd) = queueTable := by
    rw [← hs', finishCall_queue, queue_put_self]
  have hother : ∀ x, x ≠ .record fd rid → x ≠ .table fd → s'.queue x = s.queue x := by
    intro x hr hx
    rw [← hs', finishCall_queue, queue_put_other hx, queue_put_other hr]
  obtain ⟨xs, hstands, hxr, hxt⟩ : ∃ xs : List LockDataId, (xs ≠ [] → s.StandsWithout t xs) ∧
      (.record fd rid ∉ xs → StillHeld t (s.queue (.record fd rid)) queueRec) ∧
      (.table fd ∉ xs → queueTable = { s.queue (.table fd) with
        insertKeys := (s.queue (.table fd)).insertKeys ++
          [⟨key, index, t, rid, (s.queue (.table fd)).keyInGap t index key⟩] }) := by
    rcases hgrants.table with htab | ⟨hrefuses, hd, hgap, hdt, _⟩
    · rcases hgrants.record with ⟨hrefuses, halone, hne⟩ | hstill
      · exact ⟨[.record fd rid], fun _ => (hgood hrefuses).1 halone hne, by simp, fun _ => htab⟩
      · exact ⟨[], by simp, fun _ => hstill, fun _ => htab⟩
    · refine ⟨_, fun _ => (hgood hrefuses).2.1 hd ⟨hgap, hdt⟩, fun hx => ?_, fun hx => ?_⟩
      · rcases hgrants.record with ⟨_, halone, _⟩ | hstill
        · simp [halone] at hx
        · exact hstill
      · exfalso
        split at hx <;> simp at hx
  have hsame : queueTable = { s.queue (.table fd) with
      insertKeys := (s.queue (.table fd)).insertKeys ++
        [⟨key, index, t, rid, (s.queue (.table fd)).keyInGap t index key⟩] } →
      StillHeld t (s.queue (.table fd)) queueTable ∧
        KeepsGaps t (s.queue (.table fd)) queueTable := by
    rintro rfl
    exact ⟨StillHeld.of_mem fun _ ho => ho,
      KeepsGaps.of_mem (fun _ ho => ho) fun _ hk => List.mem_append_left _ hk⟩
  refine hi.call hw hone hcalls.others hcalls.frame xs (fun x hx => ?_) (fun fd' hx => ?_) hstands
    fun w r hwaits => ?_
  · by_cases hr : x = .record fd rid
    · subst hr
      rw [hrec]
      exact hxr hx
    · by_cases htx : x = .table fd
      · subst htx
        rw [htable]
        exact (hsame (hxt hx)).1
      · rw [hother x hr htx]
        exact StillHeld.of_mem fun _ ho => ho
  · by_cases htx : LockDataId.table fd' = .table fd
    · rw [htx] at hx ⊢
      rw [htable]
      exact (hsame (hxt hx)).2
    · rw [hother _ (by simp) htx]
      exact KeepsGaps.of_mem (fun _ ho => ho) fun _ hk => hk
  · have hwaits' := hwaits
    rw [← hs'] at hwaits'
    obtain ⟨b, rfl, rfl⟩ := Waits.of_call
      (s := (s.put (.record fd rid) queueRec).put (.table fd) queueTable) ht hwaits'
    obtain ⟨hrefuses, hd, hnot, r', hr', hrt, hm, hheld⟩ := hgrants.waits b rfl
    have hmem : r' ∈ (s'.queue (.record fd rid)).requestQueue := hrec ▸ hr'
    obtain rfl := hwaits.eq_of_mem hone' hmem hrt
    by_cases hother : (s.queue (.record fd rid)).otherGranted t = true
    · exact inWay_of_conflicts (hrec ▸ hheld hother)
    · -- no one holds the record: the key waits for a gap
      obtain ⟨o, ho, hot, hgap⟩ := (hgood hrefuses).2.2 (by simpa using hother) hd hnot
      have htab := hgrants.table.resolve_right fun h => h.2.2.2.2 b rfl
      refine ⟨o.txnId, .table fd, Or.inl ⟨by rw [hrt]; exact hot, o, ?_, rfl,
        Or.inr ⟨rfl, hgap⟩⟩⟩
      rw [htable, htab]
      exact ho

end Calls

section Same

variable {s s' : LockState κ} {t : TxnId}

/-- A step that changes no request and no insert key, and after which no more wait. -/
theorem AllBlocked.same (hi : s.AllBlocked)
    (hreq : ∀ x, (s'.queue x).requestQueue = (s.queue x).requestQueue)
    (hkeys : ∀ x, (s'.queue x).insertKeys = (s.queue x).insertKeys)
    (hphase : ∀ u w, s'.phase u = .waiting w → s.phase u = .waiting w) : s'.AllBlocked := by
  intro u w r h
  have hold : s.Waits u w r := by
    refine ⟨hphase u w h.phase, ?_, h.unready⟩
    have hr := h.request
    unfold LockWait.request LockRequestQueue.find LockRequestQueue.findLast at hr ⊢
    rw [hreq] at hr
    exact hr
  obtain ⟨v, x, hin⟩ := hi u w r hold
  refine ⟨v, x, ?_⟩
  rcases hin with ⟨hne, o, ho, h⟩ | ⟨hne, k, hk, h⟩
  · exact Or.inl ⟨hne, o, hreq x ▸ ho, h⟩
  · exact Or.inr ⟨hne, k, hkeys x ▸ hk, h⟩

theorem AllBlocked.wake (hi : s.AllBlocked) {w : LockWait κ} (r : LockRequest κ)
    (ids : List LockDataId) (keys : List (HeldKey κ)) :
    ((((s.put w.id (w.resume r (s.queue w.id) t)).setPhase t .running).enter t ids).hold
      keys).AllBlocked := by
  refine hi.same (fun x => ?_) (fun x => ?_) fun u w' hw => ?_
  · show ((s.put w.id (w.resume r (s.queue w.id) t)).queue x).requestQueue = _
    by_cases hx : x = w.id
    · subst hx
      rw [queue_put_self, resume_requests]
    · rw [queue_put_other hx]
  · show ((s.put w.id (w.resume r (s.queue w.id) t)).queue x).insertKeys = _
    by_cases hx : x = w.id
    · subst hx
      rw [queue_put_self, resume_keys]
    · rw [queue_put_other hx]
  · by_cases hu : u = t
    · simp [hold, enter, setPhase, hu] at hw
    · simpa [hold, enter, setPhase, hu] using hw

theorem AllBlocked.finish (hi : s.AllBlocked) : (s.setPhase t .finishing).AllBlocked := by
  refine hi.same (fun _ => rfl) (fun _ => rfl) fun u w hw => ?_
  by_cases hu : u = t
  · simp [setPhase, hu] at hw
  · simpa [setPhase, hu] using hw

end Same

end LockState

end Grmdb
