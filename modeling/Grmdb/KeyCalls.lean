import Grmdb.KeyWaits

namespace Grmdb

variable {κ : Type}

def RecordModes (q : LockRequestQueue κ) : Prop :=
  ∀ r ∈ q.requestQueue, r.lockMode = .shared ∨ r.lockMode = .exlucsive

/-- A call of `t` on a record queue: nothing of another transaction changes. -/
structure OwnStep (t : TxnId) (q q' : LockRequestQueue κ) : Prop where
  others : ∀ u, u ≠ t → q'.own u = q.own u
  modes : RecordModes q → RecordModes q'

section OwnStep

variable {q q' : LockRequestQueue κ} {t : TxnId}

theorem OwnStep.congr (h : q'.requestQueue = q.requestQueue) : OwnStep t q q' := by
  refine ⟨fun _ _ => by rw [LockRequestQueue.own, h]; rfl, fun hm => ?_⟩
  unfold RecordModes
  rw [h]
  exact hm

theorem OwnStep.trans {q'' : LockRequestQueue κ} (h : OwnStep t q q') (h' : OwnStep t q' q'') :
    OwnStep t q q'' :=
  ⟨fun u hu => (h'.others u hu).trans (h.others u hu), fun hm => h'.modes (h.modes hm)⟩

theorem OwnStep.push {r : LockRequest κ}
    (hmode : r.lockMode = .shared ∨ r.lockMode = .exlucsive) (hid : r.txnId = t)
    (h : q'.requestQueue = (q.push r).requestQueue) : OwnStep t q q' := by
  refine OwnStep.trans ⟨fun _ hu => q.own_push_other (hid ▸ hu), fun hm r' hr => ?_⟩ (.congr h)
  rcases mem_push hr with hr | rfl
  · exact hm r' hr
  · exact hmode

theorem OwnStep.update {f : LockRequest κ → LockRequest κ} (hid : ∀ r, (f r).txnId = r.txnId)
    (hmode : ∀ r, (f r).lockMode = r.lockMode ∨ (f r).lockMode = .exlucsive)
    (h : q'.requestQueue = (q.update t f).requestQueue) : OwnStep t q q' := by
  refine OwnStep.trans ⟨fun _ hu => LockRequestQueue.own_update_other hu hid, fun hm r hr => ?_⟩
    (.congr h)
  rcases mem_update hr with hr | ⟨y, hy, _, rfl⟩
  · exact hm r hr
  · rcases hmode y with h | h
    · rw [h]
      exact hm y hy
    · exact Or.inr h

theorem OwnStep.withdraw : OwnStep t q (q.withdraw t) :=
  ⟨fun _ hu => LockRequestQueue.own_withdraw_other q hu, fun hm r hr => hm r (mem_withdraw hr)⟩

theorem OwnStep.orDie (isNew : Bool) : OwnStep t q (q.orDie t isNew).1 := by
  unfold LockRequestQueue.orDie
  split
  · exact OwnStep.withdraw
  · exact OwnStep.congr rfl

theorem OwnStep.orDieBoth (queueTable : LockRequestQueue κ) (isNew : Bool) :
    OwnStep t q (q.orDieBoth queueTable t isNew).1 := by
  unfold LockRequestQueue.orDieBoth
  split
  · exact OwnStep.withdraw
  · split <;> exact OwnStep.congr rfl

theorem OwnStep.orDieTableFirst (queueTable : LockRequestQueue κ) (isNew : Bool) :
    OwnStep t q (q.orDieTableFirst queueTable t isNew).1 := by
  unfold LockRequestQueue.orDieTableFirst
  split
  · exact OwnStep.congr rfl
  · split
    · exact OwnStep.withdraw
    · exact OwnStep.congr rfl

theorem lockSharedOnRecord_own (q : LockRequestQueue κ) (t : TxnId) :
    OwnStep t q (q.lockSharedOnRecord t).1 := by
  have hnew : OwnStep t q (q.sharedNew t).1 := by
    unfold LockRequestQueue.sharedNew
    split
    · exact OwnStep.push (Or.inl rfl) rfl rfl
    · exact OwnStep.trans (OwnStep.push (Or.inl rfl) rfl rfl) (OwnStep.orDie true)
  have hup : ∀ granted, OwnStep t q (q.update t fun r => { r with granted := granted }) :=
    fun granted => OwnStep.update (by simp) (by simp) rfl
  unfold LockRequestQueue.lockSharedOnRecord
  split
  · exact hnew
  · split
    · split
      · exact (hup false).trans (OwnStep.orDie false)
      · exact hup true
    · split
      · exact hup true
      · exact hnew

theorem exclusiveOnRecord_own (q queueTable : LockRequestQueue κ) (t : TxnId) (isWaited : Bool) :
    OwnStep t q (q.exclusiveOnRecord queueTable t isWaited).1 := by
  have hnew : OwnStep t q (LockRequestQueue.exclusiveOnRecord.exclusiveNew q queueTable t
      isWaited).1 := by
    unfold LockRequestQueue.exclusiveOnRecord.exclusiveNew
    dsimp only
    split
    · split
      · exact OwnStep.trans (OwnStep.push (Or.inr rfl) rfl rfl)
          (OwnStep.orDieTableFirst queueTable true)
      · exact OwnStep.push (Or.inr rfl) rfl rfl
    · split
      · exact OwnStep.push (Or.inr rfl) rfl rfl
      · exact OwnStep.trans (OwnStep.push (Or.inr rfl) rfl rfl) (OwnStep.orDieBoth queueTable true)
  unfold LockRequestQueue.exclusiveOnRecord
  split
  · split
    · split
      · exact OwnStep.congr rfl
      · dsimp only
        split
        · refine OwnStep.trans ?_ (OwnStep.orDieBoth queueTable false)
          exact OwnStep.update (f := fun r => { r with granted := false, lockMode := .exlucsive })
            (by simp) (by simp) rfl
        · exact OwnStep.update (f := fun r => { r with granted := true, lockMode := .exlucsive })
            (by simp) (by simp) (clearUpgrading_requests _ t)
    · split
      · exact OwnStep.congr rfl
      · exact hnew
  · exact hnew

end OwnStep

/-- A call that may wait or die, at its end. -/
theorem orDieBoth_ends (q queueTable : LockRequestQueue κ) (t : TxnId) (isNew : Bool) :
    (q.orDieBoth queueTable t isNew).2.2 = .aborts ∨
      q.orDieBoth queueTable t isNew = (q, queueTable, .waits isNew) := by
  unfold LockRequestQueue.orDieBoth
  split
  · exact Or.inl rfl
  · split
    · exact Or.inl rfl
    · exact Or.inr rfl

theorem orDieTableFirst_ends (q queueTable : LockRequestQueue κ) (t : TxnId) (isNew : Bool) :
    (q.orDieTableFirst queueTable t isNew).2.2 = .aborts ∨
      q.orDieTableFirst queueTable t isNew = (q, queueTable, .waits isNew) := by
  unfold LockRequestQueue.orDieTableFirst
  split
  · exact Or.inl rfl
  · split
    · exact Or.inl rfl
    · exact Or.inr rfl

/-- How `lock_exclusive_on_record_gap` ends for its transaction. When it waits, the first request
of `t` is an exclusive one without a grant; when it returns, the key was not put to wait unless
`t` had the record exclusively already. -/
def KeyCallEnds (q : LockRequestQueue κ) (t : TxnId) (queueTable : LockRequestQueue κ)
    (isWaited : Bool) (call : LockRequestQueue κ × LockRequestQueue κ × Outcome) : Prop :=
  call.2.2 = .aborts ∨ call.2.1 = queueTable ∧
    ((∃ isNew, call.2.2 = .waits isNew ∧ ∃ r rest, call.1.own t = r :: rest ∧
      r.lockMode = .exlucsive ∧ r.granted = false ∧ (isNew = true → rest = [])) ∨
    ∃ enters, call.2.2 = .returns enters ∧
      (isWaited = false ∨ ∃ r, q.find t = some r ∧ r.lockMode = .exlucsive))

theorem exclusiveOnRecord_ends {q queueTable : LockRequestQueue κ} {t : TxnId} {isWaited : Bool}
    (hmodes : RecordModes q) :
    KeyCallEnds q t queueTable isWaited (q.exclusiveOnRecord queueTable t isWaited) := by
  have hnew : q.find t = none → KeyCallEnds q t queueTable isWaited
      (LockRequestQueue.exclusiveOnRecord.exclusiveNew q queueTable t isWaited) := by
    intro hf
    have hown : (q.push ⟨t, .exlucsive, false, []⟩).own t = [⟨t, .exlucsive, false, []⟩] := by
      have hnil : q.own t = [] := by
        rw [LockRequestQueue.find_eq_head] at hf
        simpa using hf
      rw [q.own_push_self ⟨t, .exlucsive, false, []⟩, hnil]
      rfl
    unfold LockRequestQueue.exclusiveOnRecord.exclusiveNew
    dsimp only
    split
    · split
      · rcases orDieTableFirst_ends (q.push ⟨t, .exlucsive, false, []⟩) queueTable t true with h | h
        · exact Or.inl h
        · rw [h]
          exact Or.inr ⟨rfl, Or.inl ⟨true, rfl, _, _, hown, rfl, rfl, fun _ => rfl⟩⟩
      next hw => exact Or.inr ⟨rfl, Or.inr ⟨true, rfl, Or.inl (by simpa using hw)⟩⟩
    · split
      next hw => exact Or.inr ⟨rfl, Or.inr ⟨true, rfl, Or.inl hw.2⟩⟩
      next =>
        rcases orDieBoth_ends (q.push ⟨t, .exlucsive, false, []⟩) queueTable t true with h | h
        · exact Or.inl h
        · rw [h]
          exact Or.inr ⟨rfl, Or.inl ⟨true, rfl, _, _, hown, rfl, rfl, fun _ => rfl⟩⟩
  unfold LockRequestQueue.exclusiveOnRecord
  split
  next r hr =>
    obtain ⟨hmem, hrt⟩ := LockRequestQueue.find_mem hr
    split
    next hshared =>
      split
      next => exact Or.inl rfl
      next =>
        dsimp only
        split
        next =>
          generalize hq' : ({ q with upgrading := some t }.update t fun r =>
            { r with granted := false, lockMode := .exlucsive }) = q'
          rcases orDieBoth_ends q' queueTable t false with h | h
          · exact Or.inl h
          · rw [h]
            rw [LockRequestQueue.find_eq_head] at hr
            obtain ⟨rest, hrest⟩ := List.head?_eq_some_iff.mp hr
            have hown : q'.own t = { r with granted := false, lockMode := .exlucsive } :: rest := by
              rw [← hq', LockRequestQueue.own_update_self (by simp)]
              show (q.own t).modifyHead _ = _
              rw [hrest]
              rfl
            exact Or.inr ⟨rfl, Or.inl ⟨false, rfl, _, _, hown, rfl, rfl, by simp⟩⟩
        next hno =>
          refine Or.inr ⟨rfl, Or.inr ⟨false, rfl, Or.inl ?_⟩⟩
          by_contra hw
          exact hno (Or.inr (by simpa using hw))
    next hshared =>
      split
      next hx => exact Or.inr ⟨rfl, Or.inr ⟨false, rfl, Or.inr ⟨r, hr, hx⟩⟩⟩
      next hx =>
        rcases hmodes r hmem with hm | hm
        · exact absurd hm hshared
        · exact absurd hm hx
  next hf => exact hnew hf

theorem RecordModes.grantsIf {P : LockRequest κ → Prop} {q q' : LockRequestQueue κ}
    (h : RecordModes q) (hg : GrantsIf P q.requestQueue q'.requestQueue) : RecordModes q' := by
  intro r' hr'
  obtain ⟨r, hr, hrel⟩ := hg.mem hr'
  rcases hrel with rfl | ⟨_, rfl⟩
  · exact h r' hr
  · exact h r hr

/-- The requests of another transaction through an `unlock` of the record by `t`. -/
theorem releaseRecord_own {q : LockRequestQueue κ} (h : RecordModes q) (t : TxnId) :
    OwnStep t q (q.releaseRecord t) := by
  have hreq : (q.releaseRecord t).requestQueue =
      q.requestQueue.eraseP fun r => decide (r.txnId = t) := clearUpgrading_requests _ t
  refine ⟨fun u hu => ?_, fun _ r hr => h r (List.mem_of_mem_eraseP (hreq ▸ hr))⟩
  rw [LockRequestQueue.own, hreq]
  exact LockRequestQueue.own_eraseP_other hu

section KeyCall

variable [LinearOrder κ] {queueRec queueTable : LockRequestQueue κ} {t : TxnId} {rid : Rid}
  {index : IndexId} {key : κ}

theorem exclusiveGap_own : OwnStep t queueRec
    (queueRec.lockExclusiveOnRecordGap queueTable t rid index key).1 :=
  exclusiveOnRecord_own queueRec _ t _

theorem exclusiveGap_otherKeys {u : TxnId} (hu : u ≠ t) :
    ((queueRec.lockExclusiveOnRecordGap queueTable t rid index key).2.1.insertKeys.filter
      fun k => decide (k.txnId = u)) =
      queueTable.insertKeys.filter fun k => decide (k.txnId = u) := by
  unfold LockRequestQueue.lockExclusiveOnRecordGap
  dsimp only
  have hnew : ((queueTable.insertKeys ++
      [(⟨key, index, t, rid, queueTable.keyInGap t index key⟩ : InsertKey κ)]).filter
        fun k => decide (k.txnId = u)) =
      queueTable.insertKeys.filter fun k => decide (k.txnId = u) := by
    simp [Ne.symm hu]
  rcases exclusiveOnRecord_table queueRec { queueTable with insertKeys := queueTable.insertKeys ++
    [⟨key, index, t, rid, queueTable.keyInGap t index key⟩] } t
    (queueTable.keyInGap t index key) with hq | ⟨hq, _⟩
  · rw [hq]
    exact hnew
  · rw [hq, withdraw_keys, List.filter_filter, ← hnew]
    refine List.filter_congr fun k _ => ?_
    by_cases hk : k.txnId = u <;> simp [hk, hu]

theorem exclusiveGap_ends (hmodes : RecordModes queueRec) :
    KeyCallEnds queueRec t { queueTable with insertKeys := queueTable.insertKeys ++
      [⟨key, index, t, rid, queueTable.keyInGap t index key⟩] } (queueTable.keyInGap t index key)
      (queueRec.lockExclusiveOnRecordGap queueTable t rid index key) :=
  exclusiveOnRecord_ends hmodes

end KeyCall

/-- A call of `t` on a table queue keeps the insert keys, unless `t` dies. -/
def KeysKept (t : TxnId) (q q' : LockRequestQueue κ) (out : Outcome) : Prop :=
  q'.insertKeys = q.insertKeys ∨
    out = .aborts ∧ q'.insertKeys = q.insertKeys.filter fun k => decide (k.txnId ≠ t)

theorem KeysKept.orDie {q q' : LockRequestQueue κ} {t : TxnId} {isNew : Bool}
    (h : q'.insertKeys = q.insertKeys) :
    KeysKept t q (q'.orDie t isNew).1 (q'.orDie t isNew).2 := by
  unfold LockRequestQueue.orDie
  split
  · exact Or.inr ⟨rfl, by rw [withdraw_keys, h]⟩
  · exact Or.inl h

theorem lockISOnTable_keys {q q' : LockRequestQueue κ} {t : TxnId} {out : Outcome}
    (h : q.lockISOnTable t = some (q', out)) : KeysKept t q q' out := by
  have hnew : q.intentionSharedNew t = some (q', out) → KeysKept t q q' out := by
    intro h
    unfold LockRequestQueue.intentionSharedNew at h
    dsimp only at h
    split at h
    · cases Option.some.inj h
      exact Or.inl rfl
    · split at h
      · cases Option.some.inj h
        exact Or.inl rfl
      · split at h
        · obtain ⟨rfl, rfl⟩ := Prod.mk.inj (Option.some.inj h)
          exact KeysKept.orDie rfl
        · cases h
  unfold LockRequestQueue.lockISOnTable at h
  split at h
  · exact hnew h
  · split at h
    · cases Option.some.inj h
      exact Or.inl rfl
    · split at h
      · split at h
        · obtain ⟨rfl, rfl⟩ := Prod.mk.inj (Option.some.inj h)
          exact KeysKept.orDie rfl
        · cases Option.some.inj h
          exact Or.inl rfl
      · exact hnew h

theorem lockIXOnTable_keys (q : LockRequestQueue κ) (t : TxnId) :
    KeysKept t q (q.lockIXOnTable t).1 (q.lockIXOnTable t).2 := by
  have hnew : KeysKept t q (q.intentionExclusiveNew t).1 (q.intentionExclusiveNew t).2 := by
    unfold LockRequestQueue.intentionExclusiveNew
    dsimp only
    split
    · exact Or.inl rfl
    · split
      · exact Or.inl rfl
      · split
        · exact Or.inl rfl
        · split
          · exact KeysKept.orDie rfl
          · exact Or.inl rfl
  unfold LockRequestQueue.lockIXOnTable
  split
  · exact hnew
  · split
    · exact Or.inl rfl
    · split
      · exact Or.inl rfl
      · split
        · split
          · exact KeysKept.orDie rfl
          · exact Or.inl rfl
        · exact hnew

theorem lockGAPOnTable_keys [LinearOrder κ] (q : LockRequestQueue κ) (t : TxnId) (lower upper : κ)
    (index : IndexId) : KeysKept t q (q.lockGAPOnTable t lower upper index).1
      (q.lockGAPOnTable t lower upper index).2 := by
  unfold LockRequestQueue.lockGAPOnTable
  dsimp only
  generalize hmid : (if q.groupMode ≠ .tabX then { q with groupMode := .gap } else q) = mid
  have hkeys : mid.insertKeys = q.insertKeys := by
    rw [← hmid]
    split <;> rfl
  split
  · unfold LockRequestQueue.gapNew
    split
    · split
      · exact KeysKept.orDie hkeys
      · exact Or.inl hkeys
    · split
      · exact KeysKept.orDie hkeys
      · split
        · exact KeysKept.orDie hkeys
        · exact Or.inl hkeys
  · split
    · split
      · exact KeysKept.orDie hkeys
      · exact Or.inl hkeys
    · split
      · exact KeysKept.orDie hkeys
      · exact Or.inl hkeys

end Grmdb
