import Grmdb.MapM
import Grmdb.RecordReinsert

namespace Grmdb

open Runs MapM

/-- A column of an index: where it lies in the record. -/
structure IndexCol where
  offset : Nat
  len : Nat
  deriving DecidableEq, Repr

/-- The key that the executors put together from a record. -/
def makeKey (cols : List IndexCol) (rec : Bytes) : Bytes :=
  cols.flatMap fun col => (rec.drop col.offset).take col.len

/-- An index as the map that `insert_entry` and `delete_entry` maintain. -/
structure TabIndex where
  cols : List IndexCol
  map : Bytes → Option Rid

namespace TabIndex

/-- `none` is the `IndexEntryExistsError`. -/
def insertEntry (ix : TabIndex) (key : Bytes) (rid : Rid) : Option TabIndex :=
  match ix.map key with
  | none => some { ix with map := Function.update ix.map key (some rid) }
  | some _ => none

def deleteEntry (ix : TabIndex) (key : Bytes) : TabIndex :=
  { ix with map := Function.update ix.map key none }

def key (ix : TabIndex) (rec : Bytes) : Bytes := makeKey ix.cols rec

/-- `delete_entry` of the key of `old`, then `insert_entry` of the key of `new`. -/
def moveEntry (ix : TabIndex) (old new : Bytes) (rid : Rid) : Option TabIndex :=
  (ix.deleteEntry (ix.key old)).insertEntry (ix.key new) rid

/-- `insert_entry` inside a `try` that ignores the error. -/
def tryInsertEntry (ix : TabIndex) (key : Bytes) (rid : Rid) : TabIndex :=
  (ix.insertEntry key rid).getD ix

end TabIndex

inductive WriteRecord where
  | insertTuple (rid : Rid) (rec : Bytes)
  | deleteTuple (rid : Rid) (rec : Bytes)
  | updateTuple (rid : Rid) (rec recOld : Bytes)
  deriving DecidableEq, Repr

structure TabState where
  file : RmFile
  indexes : List TabIndex

/-- The write set is kept with its back first. -/
structure TxnRun where
  tab : TabState
  writeSet : List WriteRecord

namespace TabState

/-- `InsertExecutor::Next` when no index refuses the key. -/
def insertRow (s : TabState) (rec : Bytes) (lsn : Lsn) : Option (TabState × WriteRecord) :=
  (s.file.insertRecord rec (some lsn)).bind fun r =>
    (s.indexes.mapM fun ix : TabIndex => ix.insertEntry (ix.key rec) r.2).map fun indexes =>
      (⟨r.1, indexes⟩, .insertTuple r.2 rec)

/-- `UpdateExecutor::Next` on one row, when no index refuses the new key. -/
def updateRow (s : TabState) (rid : Rid) (new : Bytes) (lsn : Lsn) :
    Option (TabState × WriteRecord) :=
  (s.file.record rid).bind fun old =>
    (s.indexes.mapM fun ix : TabIndex => ix.moveEntry old new rid).bind fun indexes =>
      (s.file.updateRecord rid new (some lsn)).map fun file =>
        (⟨file, indexes⟩, .updateTuple rid new old)

/-- One iteration of the loop of `TransactionManager::abort`; `none` when it throws. The call of
`calculate_gaps_on_table` at its end changes neither rows nor entries; `KeyedTable.undoWrite` has it,
and under an update, which holds the table in mode X, it finds no gap to recalculate. -/
def undoWrite (s : TabState) : WriteRecord → Option TabState
  | .insertTuple rid rec =>
    (s.file.deleteRecord rid none).map fun file =>
      ⟨file, s.indexes.map fun ix => ix.deleteEntry (ix.key rec)⟩
  | .deleteTuple rid rec =>
    (s.file.insertRecordAt rid rec).map fun file =>
      ⟨file, s.indexes.map fun ix => ix.tryInsertEntry (ix.key rec) rid⟩
  | .updateTuple rid rec recOld =>
    (s.indexes.mapM fun ix : TabIndex => ix.moveEntry rec recOld rid).bind fun indexes =>
      (s.file.updateRecord rid recOld none).map fun file => ⟨file, indexes⟩

end TabState

/-- A table each row of which has its entry in every index. -/
structure Table extends TabState where
  indexed : ∀ rid rec, file.record rid = some rec → ∀ ix ∈ indexes, ix.map (ix.key rec) = some rid

namespace TabIndex

variable {ix ix' : TabIndex} {k : Bytes} {rid : Rid}

theorem insertEntry_eq_some (h : ix.insertEntry k rid = some ix') :
    ix.map k = none ∧ ix' = ⟨ix.cols, Function.update ix.map k (some rid)⟩ := by
  unfold insertEntry at h
  split at h
  next hk => exact ⟨hk, (Option.some.inj h).symm⟩
  next => simp at h

theorem insertEntry_of_none (h : ix.map k = none) :
    ix.insertEntry k rid = some ⟨ix.cols, Function.update ix.map k (some rid)⟩ := by
  simp [insertEntry, h]

/-- The rollback of an update, also when the two keys are the same. -/
theorem moveEntry_back {old new : Bytes} (h : ix.map (ix.key old) = some rid)
    (hm : ix.moveEntry old new rid = some ix') : ix'.moveEntry new old rid = some ix := by
  obtain ⟨hnew, rfl⟩ := insertEntry_eq_some hm
  have hdel : (ix.deleteEntry (ix.key old)).map = Function.update ix.map (ix.key old) none := rfl
  rw [hdel] at hnew
  show TabIndex.insertEntry ⟨ix.cols, Function.update (Function.update
    (Function.update ix.map (ix.key old) none) (ix.key new) (some rid)) (ix.key new) none⟩
    (ix.key old) rid = some ix
  rw [Function.update_idem]
  have hback : Function.update (Function.update ix.map (ix.key old) none) (ix.key new) none =
      Function.update ix.map (ix.key old) none := Function.update_eq_self_iff.mpr hnew.symm
  rw [hback, insertEntry_of_none (by simp)]
  simp only [Function.update_idem]
  rw [← h, Function.update_eq_self]

end TabIndex

namespace TabState

/-- What `Table` says of a table, for the states inside a transaction. -/
structure Sound (s : TabState) : Prop where
  indexed : ∀ rid rec, s.file.record rid = some rec →
    ∀ ix ∈ s.indexes, ix.map (ix.key rec) = some rid

/-- `s'` shows the rows and the index entries of `s`. -/
structure Shows (s' s : TabState) : Prop where
  rows : s'.file.record = s.file.record
  indexes : s'.indexes = s.indexes

variable {s s₁ t : TabState} {w : WriteRecord} {rid : Rid} {rec new : Bytes} {lsn : Lsn}

/-- A row that an index entry keeps is not the one whose key is taken away or added. -/
theorem Sound.key_unique (hs : s.Sound) {rid' : Rid} {rec' : Bytes} {ix : TabIndex}
    (hix : ix ∈ s.indexes) (h : s.file.record rid = some rec)
    (h' : s.file.record rid' = some rec') (hkey : ix.key rec' = ix.key rec) : rid' = rid := by
  have hrow := hs.indexed rid rec h ix hix
  have hrow' := hs.indexed rid' rec' h' ix hix
  rw [hkey, hrow] at hrow'
  exact (Option.some.inj hrow').symm

theorem Sound.insertRow (hs : s.Sound) (hfile : s.file.Reached)
    (h : s.insertRow rec lsn = some (s₁, w)) : s₁.Sound := by
  obtain ⟨free, hlow⟩ := hfile.low
  obtain ⟨⟨f', rid⟩, hrun, h⟩ := Option.bind_eq_some_iff.mp h
  have hrec := (RmFile.insertRecord_puts hlow.toChained hrun).record
  obtain ⟨indexes, hixs, heq⟩ := Option.map_eq_some_iff.mp h
  cases heq
  constructor
  intro rid' rec' hrow ix' hix'
  obtain ⟨ix, hix, hins⟩ := mem_of_mapM hixs hix'
  obtain ⟨habsent, rfl⟩ := TabIndex.insertEntry_eq_some hins
  simp only [hrec] at hrow
  by_cases hrid : rid' = rid
  · subst hrid
    have : rec = rec' := by simpa using hrow
    subst this
    exact Function.update_self _ _ _
  · rw [Function.update_of_ne hrid] at hrow
    have hold := hs.indexed rid' rec' hrow ix hix
    have hne : ix.key rec' ≠ ix.key rec := by
      intro hkey
      rw [hkey, habsent] at hold
      simp at hold
    exact (Function.update_of_ne hne _ _).trans hold

theorem Sound.updateRow (hs : s.Sound) (h : s.updateRow rid new lsn = some (s₁, w)) :
    s₁.Sound := by
  obtain ⟨old, hold, h⟩ := Option.bind_eq_some_iff.mp h
  obtain ⟨indexes, hixs, h⟩ := Option.bind_eq_some_iff.mp h
  obtain ⟨f', hrun, hputs⟩ := RmFile.updateRecord_of_record hold new (some lsn)
  have hrows := hputs.record
  simp only [hrun, Option.map_some, Option.some.injEq, Prod.mk.injEq] at h
  obtain ⟨rfl, rfl⟩ := h
  constructor
  intro rid' rec' hrow ix' hix'
  obtain ⟨ix, hix, hmove⟩ := mem_of_mapM hixs hix'
  obtain ⟨habsent, rfl⟩ := TabIndex.insertEntry_eq_some hmove
  simp only [hrows] at hrow
  by_cases hrid : rid' = rid
  · subst hrid
    have : new = rec' := by simpa using hrow
    subst this
    exact Function.update_self _ _ _
  · rw [Function.update_of_ne hrid] at hrow
    have hkeep := hs.indexed rid' rec' hrow ix hix
    have hneOld : ix.key rec' ≠ ix.key old := fun hkey => hrid (hs.key_unique hix hold hrow hkey)
    have hstill : (ix.deleteEntry (ix.key old)).map (ix.key rec') = some rid' :=
      (Function.update_of_ne hneOld _ _).trans hkeep
    have hneNew : ix.key rec' ≠ ix.key new := by
      intro hkey
      rw [hkey, habsent] at hstill
      simp at hstill
    exact (Function.update_of_ne hneNew _ _).trans hstill

/-- The undo step of an update meets what its forward step left. -/
theorem Sound.undo_updateRow (hs : s.Sound) (h : s.updateRow rid new lsn = some (s₁, w))
    (ht : t.Shows s₁) : ∃ t', t.undoWrite w = some t' ∧ t'.Shows s := by
  obtain ⟨old, hold, h⟩ := Option.bind_eq_some_iff.mp h
  obtain ⟨indexes, hixs, h⟩ := Option.bind_eq_some_iff.mp h
  obtain ⟨f', hrun, hputs⟩ := RmFile.updateRecord_of_record hold new (some lsn)
  simp only [hrun, Option.map_some, Option.some.injEq, Prod.mk.injEq] at h
  obtain ⟨rfl, rfl⟩ := h
  have hrow : t.file.record rid = some new := by
    rw [ht.rows, hputs.record, Function.update_self]
  obtain ⟨f'', hback, hputs'⟩ := RmFile.updateRecord_of_record hrow old none
  have hixs' : t.indexes.mapM (fun ix => ix.moveEntry new old rid) = some s.indexes := by
    rw [ht.indexes]
    exact mapM_back hixs fun ix hix ix' hmove =>
      TabIndex.moveEntry_back (hs.indexed rid old hold ix hix) hmove
  refine ⟨⟨f'', s.indexes⟩, ?_, ?_, rfl⟩
  · simp only [undoWrite, hixs', Option.bind_some, hback, Option.map_some]
  · simp only [hputs'.record, ht.rows, hputs.record, Function.update_idem]
    exact Function.update_eq_self_iff.mpr hold.symm

end TabState

namespace TxnRun

/-- A new table of 512-byte records with an index on the first and one on the second byte. -/
def newTable : Table where
  file := RmFile.create 512
  indexes := [⟨[⟨0, 1⟩], fun _ => none⟩, ⟨[⟨1, 1⟩], fun _ => none⟩]
  indexed := by
    intro rid rec h
    simp [RmFile.create, RmFile.record] at h

end TxnRun

end Grmdb
