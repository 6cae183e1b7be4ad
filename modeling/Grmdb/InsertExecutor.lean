import Grmdb.TableRows

namespace Grmdb

/-- How a statement ends. -/
inductive Ended where
  | returned
  | constraintViolation
  | lockConflict
  | indexEntryExists
  deriving DecidableEq, Repr

/-- The index loop of `InsertExecutor::Next` from the `i`-th index on; `granted i` says whether
`lock_exclusive_on_record_gap` returns there or throws. -/
def insertKeys (granted : Nat → Bool) (rec : Bytes) (rid : Rid) :
    Nat → List TabIndex → List TabIndex × Ended
  | _, [] => ([], .returned)
  | i, ix :: rest =>
    if granted i then
      match ix.insertEntry (ix.key rec) rid with
      | none => (ix :: rest, .constraintViolation)
      | some ix' =>
        let r := insertKeys granted rec rid (i + 1) rest
        (ix' :: r.1, r.2)
    else (ix :: rest, .lockConflict)

namespace TxnRun

/-- `InsertExecutor::Next` for the record `rec`. The handler of a refused key takes the row and
its write record back; a lock conflict leaves both. -/
def insertNext (s : TxnRun) (rec : Bytes) (lsn lsnBack : Lsn) (granted : Nat → Bool) :
    Option (TxnRun × Ended) :=
  (s.tab.file.insertRecord rec (some lsn)).bind fun (file, rid) =>
    let writeSet := .insertTuple rid rec :: s.writeSet
    let (indexes, ended) := insertKeys granted rec rid 0 s.tab.indexes
    match ended with
    | .constraintViolation =>
      (file.deleteRecord rid (some lsnBack)).map fun file =>
        (⟨⟨file, indexes⟩, writeSet.tail⟩, ended)
    | _ => some (⟨⟨file, indexes⟩, writeSet⟩, ended)

/-- The loop of `TransactionManager::abort` until `kept` write records are left. -/
def abortUntil (s : TxnRun) (kept : Nat) : Option TabState :=
  (s.writeSet.take (s.writeSet.length - kept)).foldlM TabState.undoWrite s.tab

/-- The abort after the failed statement takes the table back to the rows and the index entries
of `s`, the state before the statement. -/
def Restored (s s' : TxnRun) : Prop :=
  ∃ t, s'.abortUntil s.writeSet.length = some t ∧ t.file.record = s.tab.file.record ∧
    t.indexes = s.tab.indexes

theorem restored_popped {s s' : TxnRun} (h : s'.writeSet = s.writeSet) :
    s.Restored s' ↔ s'.tab.file.record = s.tab.file.record ∧ s'.tab.indexes = s.tab.indexes := by
  simp [Restored, abortUntil, h]

end TxnRun

/-- What stopped the index loop, which has `after` left and is at its `i`-th index. -/
def Ended.Stops (granted : Nat → Bool) (rec : Bytes) (i : Nat) (after : List TabIndex) :
    Ended → Prop
  | .returned => after = []
  | .constraintViolation => ∃ ix rest, after = ix :: rest ∧ ix.map (ix.key rec) ≠ none
  | .lockConflict => granted i = false ∧ after ≠ []
  | .indexEntryExists => False

section Keys

variable {granted : Nat → Bool} {rec : Bytes} {rid : Rid} {i : Nat} {ixs ixs' : List TabIndex}

/-- The indexes in front of the one that stops the loop have the new key, the others are as they
were. -/
theorem insertKeys_split {e : Ended} (h : insertKeys granted rec rid i ixs = (ixs', e)) :
    ∃ before before' after, ixs = before ++ after ∧ ixs' = before' ++ after ∧
      List.Forall₂ (fun ix ix' : TabIndex => ix.insertEntry (ix.key rec) rid = some ix')
        before before' ∧
      (∀ j < before.length, granted (i + j) = true) ∧
      e.Stops granted rec (i + before.length) after := by
  induction ixs generalizing i ixs' with
  | nil =>
    cases h
    exact ⟨[], [], [], rfl, rfl, List.Forall₂.nil, by simp, rfl⟩
  | cons ix rest ih =>
    unfold insertKeys at h
    split at h
    next hgranted =>
      split at h
      next hrefused =>
        cases h
        refine ⟨[], [], ix :: rest, rfl, rfl, List.Forall₂.nil, by simp, ix, rest, rfl, ?_⟩
        intro hnone
        simp [TabIndex.insertEntry, hnone] at hrefused
      next ix' hins =>
        generalize hr : insertKeys granted rec rid (i + 1) rest = r at h
        obtain ⟨more, ended⟩ := r
        cases h
        obtain ⟨before, before', after, hrest, hrest', hall, hlocks, hend⟩ := ih hr
        refine ⟨ix :: before, ix' :: before', after, by simp [hrest], by simp [hrest'],
          List.Forall₂.cons hins hall, ?_, ?_⟩
        · intro j hj
          cases j with
          | zero => exact hgranted
          | succ j =>
            rw [show i + (j + 1) = i + 1 + j by omega]
            exact hlocks j (by simpa using hj)
        · rw [show i + (ix :: before).length = i + 1 + before.length by
            simp only [List.length_cons]
            omega]
          exact hend
    next hgranted =>
      cases h
      refine ⟨[], [], ix :: rest, rfl, rfl, List.Forall₂.nil, by simp, ?_, by simp⟩
      simpa using hgranted

theorem TabIndex.insertEntry_ne {ix ix' : TabIndex} {k : Bytes}
    (h : ix.insertEntry k rid = some ix') : ix' ≠ ix := by
  obtain ⟨hk, rfl⟩ := insertEntry_eq_some h
  intro heq
  have hmap := congrFun (congrArg TabIndex.map heq) k
  simp [hk] at hmap

/-- Indexes that have all taken the new key are as before only if there is none. -/
theorem inserted_eq_iff
    (h : List.Forall₂ (fun ix ix' : TabIndex => ix.insertEntry (ix.key rec) rid = some ix')
      ixs ixs') : ixs' = ixs ↔ ixs = [] := by
  cases h with
  | nil => simp
  | cons hins _ =>
    simp only [List.cons.injEq, reduceCtorEq, iff_false, not_and]
    intro heq
    exact absurd heq (TabIndex.insertEntry_ne hins)

end Keys

namespace TxnRun

/-- The row and its write record are both there or both gone when the statement ends. -/
theorem insertNext_cases {tab : TabState} {ws : List WriteRecord} {rec : Bytes}
    {lsn lsnBack : Lsn} {granted : Nat → Bool} {s' : TxnRun} {e : Ended}
    (hfile : tab.file.Reached) (h : insertNext ⟨tab, ws⟩ rec lsn lsnBack granted = some (s', e)) :
    ∃ rid, insertKeys granted rec rid 0 tab.indexes = (s'.tab.indexes, e) ∧
      (tab.file.record rid = none ↔ tab.file.Room) ∧
      if e = .constraintViolation then
        s'.writeSet = ws ∧ s'.tab.file.record = Function.update tab.file.record rid none
      else
        s'.writeSet = .insertTuple rid rec :: ws ∧
          s'.tab.file.record = Function.update tab.file.record rid (some rec) := by
  obtain ⟨free, hlow⟩ := hfile.low
  obtain ⟨file, rid, hrun, hputs, hroom⟩ :=
    RmFile.insertRecord_takes hlow.toChained rec (some lsn)
  simp only [insertNext, hrun, Option.bind_some] at h
  generalize hkeys : insertKeys granted rec rid 0 tab.indexes = r at h
  obtain ⟨indexes, ended⟩ := r
  split at h
  next hended =>
    obtain ⟨file', hdel, heq⟩ := Option.map_eq_some_iff.mp h
    cases heq
    refine ⟨rid, hkeys, hroom, ?_⟩
    rw [if_pos hended]
    refine ⟨rfl, ?_⟩
    rw [(RmFile.deleteRecord_puts hdel).record, hputs.record, Function.update_idem]
  next hended =>
    cases Option.some.inj h
    refine ⟨rid, hkeys, hroom, ?_⟩
    rw [if_neg hended]
    exact ⟨rfl, hputs.record⟩

/-- A statement that returns is `insertRow` with its write record. -/
theorem insertRow_of_insertNext {s s' : TxnRun} {rec : Bytes} {lsn lsnBack : Lsn}
    {granted : Nat → Bool}
    (h : s.insertNext rec lsn lsnBack granted = some (s', .returned)) :
    ∃ w, s.tab.insertRow rec lsn = some (s'.tab, w) ∧ s'.writeSet = w :: s.writeSet := by
  obtain ⟨⟨file, rid⟩, hrun, h⟩ := Option.bind_eq_some_iff.mp h
  simp only at h
  generalize hkeys : insertKeys granted rec rid 0 s.tab.indexes = r at h
  obtain ⟨indexes, ended⟩ := r
  split at h
  next hended =>
    obtain ⟨file', -, heq⟩ := Option.map_eq_some_iff.mp h
    cases heq
    cases hended
  next =>
    cases Option.some.inj h
    obtain ⟨before, before', after, hixs, hixs', hall, -, hafter⟩ := insertKeys_split hkeys
    cases show after = [] from hafter
    simp only [List.append_nil] at hixs hixs'
    subst hixs hixs'
    have hmap := MapM.mapM_of_forall₂ hall
    refine ⟨.insertTuple rid rec, ?_, rfl⟩
    simp only [TabState.insertRow, hrun, Option.bind_some, hmap, Option.map_some]

/-- The table after an insert that no index refuses. -/
def afterInsert (tab : Table) (rec : Bytes) (lsn : Lsn) (hfile : tab.file.Reached)
    (h : (tab.toTabState.insertRow rec lsn).isSome) : Table where
  toTabState := ((tab.toTabState.insertRow rec lsn).get h).1
  indexed := (TabState.Sound.insertRow ⟨tab.indexed⟩ hfile (Option.some_get h).symm).indexed

theorem afterInsert_reached (tab : Table) (rec : Bytes) (lsn : Lsn) (hfile : tab.file.Reached)
    (h : (tab.toTabState.insertRow rec lsn).isSome) :
    (afterInsert tab rec lsn hfile h).file.Reached := by
  have hrun := (Option.some_get h).symm
  obtain ⟨⟨file, rid⟩, hins, hkeys⟩ := Option.bind_eq_some_iff.mp hrun
  obtain ⟨indexes, -, heq⟩ := Option.map_eq_some_iff.mp hkeys
  have hfile' : file = (afterInsert tab rec lsn hfile h).file :=
    congrArg (fun r : TabState × WriteRecord => r.1.file) heq
  exact hfile' ▸ hfile.insertRecord hins

theorem newTable_reached : newTable.file.Reached := ⟨512, le_rfl, [], rfl⟩

def oneRow : Table := afterInsert newTable [1, 1] 1 newTable_reached (by decide +kernel)

theorem oneRow_reached : oneRow.file.Reached := afterInsert_reached newTable [1, 1] 1 _ _

/-- The entry for `key` in the index at `i`. -/
def entryAt (s : TxnRun) (i : Nat) (key : Bytes) : Option Rid :=
  (s.tab.indexes[i]?).bind fun ix => ix.map key

theorem Restored.entryAt {s s' : TxnRun} (h : s.Restored s') (hws : s'.writeSet = s.writeSet)
    (i : Nat) (key : Bytes) : s'.entryAt i key = s.entryAt i key := by
  have hixs := ((restored_popped hws).mp h).2
  simp only [TxnRun.entryAt, hixs]

end TxnRun

end Grmdb
