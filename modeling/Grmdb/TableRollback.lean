import Grmdb.KeyedIndex
import Grmdb.LockTable
import Grmdb.TableRows

namespace Grmdb

open Runs MapM

structure KeyedTable where
  file : RmFile
  indexes : List KeyedIndex

/-- One row of a statement: the record file is called with the LSN of the context. -/
inductive RowOp where
  | insert (rec : Bytes) (lsn : Lsn)
  | delete (rid : Rid) (lsn : Lsn)
  | update (rid : Rid) (new : Bytes) (lsn : Lsn)

def RowOp.isInsert : RowOp → Bool
  | .insert _ _ => true
  | _ => false

/-- The write set is kept with its back first. -/
structure KeyedRun where
  tab : KeyedTable
  writeSet : List WriteRecord

/-- A gap that a scan has locked: the index of the table, and the conditions that it has kept. -/
structure GapRequest where
  index : Nat
  conds : List Condition

/-- The queue of the lock on the table, as `abort` meets it. -/
structure TableLock where
  groupMode : GroupMode
  gaps : List GapRequest

/-- The buffers of the `n`-th recalculation after one undone write. -/
abbrev FreshKeys : Type := Nat → (cols : List IxCol) → GapBuffers cols

namespace KeyedTable

/-- `InsertExecutor::Next` when no index refuses the key. -/
def insertRow (s : KeyedTable) (rec : Bytes) (lsn : Lsn) : Option (KeyedTable × WriteRecord) :=
  (s.file.insertRecord rec (some lsn)).bind fun r =>
    (s.indexes.mapM fun ix : KeyedIndex => ix.insertEntry (ix.key rec) r.2).map fun indexes =>
      (⟨r.1, indexes⟩, .insertTuple r.2 rec)

/-- `DeleteExecutor::Next` on one row. -/
def deleteRow (s : KeyedTable) (rid : Rid) (lsn : Lsn) : Option (KeyedTable × WriteRecord) :=
  (s.file.record rid).bind fun rec =>
    (s.file.deleteRecord rid (some lsn)).map fun file =>
      (⟨file, s.indexes.map fun ix => ix.deleteEntry (ix.key rec)⟩, .deleteTuple rid rec)

/-- `UpdateExecutor::Next` on one row, when no index refuses the new key. -/
def updateRow (s : KeyedTable) (rid : Rid) (new : Bytes) (lsn : Lsn) :
    Option (KeyedTable × WriteRecord) :=
  (s.file.record rid).bind fun old =>
    (s.indexes.mapM fun ix : KeyedIndex => ix.moveEntry old new rid).bind fun indexes =>
      (s.file.updateRecord rid new (some lsn)).map fun file =>
        (⟨file, indexes⟩, .updateTuple rid new old)

/-- `calculate_gaps_on_table` for the lock on the table comes through. The ends that it gives the
gaps are not read by `abort`. -/
def calculateGaps (s : KeyedTable) (lock : TableLock) (fresh : FreshKeys) : Bool :=
  lock.groupMode != .gap || lock.gaps.zipIdx.all fun gap =>
    match s.indexes[gap.1.index]? with
    | none => true
    | some ix => ix.recalculates gap.1.conds (fresh gap.2 ix.index.ixCols)

/-- What follows the index calls for one write record. -/
def thenCalculate (s : KeyedTable) (lock : TableLock) (fresh : FreshKeys) : Option KeyedTable :=
  if s.indexes.isEmpty || s.calculateGaps lock fresh then some s else none

/-- One iteration of the loop of `TransactionManager::abort`; `none` when it throws. -/
def undoWrite (lock : TableLock) (fresh : FreshKeys) (s : KeyedTable) :
    WriteRecord → Option KeyedTable
  | .insertTuple rid rec =>
    (s.file.deleteRecord rid none).bind fun file =>
      thenCalculate ⟨file, s.indexes.map fun ix => ix.deleteEntry (ix.key rec)⟩ lock fresh
  | .deleteTuple rid rec =>
    (s.file.insertRecordAt rid rec).bind fun file =>
      thenCalculate ⟨file, s.indexes.map fun ix => ix.tryInsertEntry (ix.key rec) rid⟩ lock fresh
  | .updateTuple rid rec recOld =>
    (s.indexes.mapM fun ix : KeyedIndex => ix.moveEntry rec recOld rid).bind fun indexes =>
      (thenCalculate ⟨s.file, indexes⟩ lock fresh).bind fun s =>
        (s.file.updateRecord rid recOld none).map fun file => ⟨file, s.indexes⟩

/-- The rollback of `TransactionManager::abort`, from the back of the write set. `fresh` is given
the number of writes that are left. -/
def abort (lock : TableLock) (fresh : Nat → FreshKeys) :
    List WriteRecord → KeyedTable → Option KeyedTable
  | [], s => some s
  | w :: ws, s => (s.undoWrite lock (fresh ws.length) w).bind (abort lock fresh ws)

/-- Each row has its entry in every index. -/
def RowsIndexed (s : KeyedTable) : Prop :=
  ∀ rid rec, s.file.record rid = some rec → ∀ ix ∈ s.indexes, ix.map.find? (ix.key rec) = some rid

/-- Every gap that is locked can be recalculated over the entries of its index. -/
def GapsRecalculate (s : KeyedTable) (lock : TableLock) : Prop :=
  ∀ gap ∈ lock.gaps, ∀ ix, s.indexes[gap.index]? = some ix → ix.Recalculates gap.conds

end KeyedTable

namespace KeyedRun

def step (s : KeyedRun) (op : RowOp) : Option KeyedRun :=
  let next := match op with
    | .insert rec lsn => s.tab.insertRow rec lsn
    | .delete rid lsn => s.tab.deleteRow rid lsn
    | .update rid new lsn => s.tab.updateRow rid new lsn
  next.map fun r => ⟨r.1, r.2 :: s.writeSet⟩

/-- An insert finds a free slot. -/
def HasRoom (s : KeyedRun) (op : RowOp) : Prop := op.isInsert → s.tab.file.Room

instance (s : KeyedRun) (op : RowOp) : Decidable (s.HasRoom op) :=
  inferInstanceAs (Decidable (_ → _))

end KeyedRun

namespace KeyedIndex

variable {ix ix' : KeyedIndex} {rid : Rid} {old new rec : Bytes}

theorem insertEntry_eq_some {k : IxKey ix.index.ixCols} (h : ix.insertEntry k rid = some ix') :
    ix.map.find? k = none ∧ ix' = { ix with map := ix.map.insert k rid } := by
  unfold insertEntry at h
  split at h
  next hk => exact ⟨hk, (Option.some.inj h).symm⟩
  next => cases h

/-- The rollback of an insert finds the entry that the insert made. -/
theorem deleteEntry_insertEntry (h : ix.insertEntry (ix.key rec) rid = some ix') :
    ix'.deleteEntry (ix'.key rec) = ix := by
  obtain ⟨hk, rfl⟩ := insertEntry_eq_some h
  show ({ ix with map := (ix.map.insert (ix.key rec) rid).erase (ix.key rec) } : KeyedIndex) = ix
  rw [OrderedMap.erase_insert hk]

/-- The rollback of a delete puts the entry of the row back. -/
theorem tryInsertEntry_deleteEntry (h : ix.map.find? (ix.key rec) = some rid) :
    (ix.deleteEntry (ix.key rec)).tryInsertEntry ((ix.deleteEntry (ix.key rec)).key rec) rid =
      ix := by
  have hnone : (ix.map.erase (ix.key rec)).find? (ix.key rec) = none := by
    simp [OrderedMap.find?_erase]
  have hback : (ix.deleteEntry (ix.key rec)).insertEntry (ix.key rec) rid = some ix := by
    have hmap : (ix.map.erase (ix.key rec)).insert (ix.key rec) rid = ix.map :=
      OrderedMap.insert_erase h
    exact (if_pos hnone).trans (congrArg (some ∘ KeyedIndex.mk ix.index ix.offset ix.fits) hmap)
  exact congrArg (Option.getD · _) hback

/-- The rollback of an update, also when the two keys are the same. -/
theorem moveEntry_back (h : ix.map.find? (ix.key old) = some rid)
    (hm : ix.moveEntry old new rid = some ix') : ix'.moveEntry new old rid = some ix := by
  obtain ⟨hnew, rfl⟩ := insertEntry_eq_some hm
  have hnone : (ix.map.erase (ix.key old)).find? (ix.key old) = none := by
    simp [OrderedMap.find?_erase]
  have hmap : ((ix.map.erase (ix.key old)).insert (ix.key new) rid).erase (ix.key new) =
      ix.map.erase (ix.key old) := OrderedMap.erase_insert hnew
  have hdel : (⟨ix.index, ix.offset, ix.fits, (ix.map.erase (ix.key old)).insert (ix.key new)
      rid⟩ : KeyedIndex).deleteEntry (ix.key new) = ix.deleteEntry (ix.key old) :=
    congrArg (KeyedIndex.mk ix.index ix.offset ix.fits) hmap
  have hins : (ix.deleteEntry (ix.key old)).insertEntry (ix.key old) rid = some ix := by
    have hold : (ix.map.erase (ix.key old)).insert (ix.key old) rid = ix.map :=
      OrderedMap.insert_erase h
    exact (if_pos hnone).trans (congrArg (some ∘ KeyedIndex.mk ix.index ix.offset ix.fits) hold)
  exact (congrArg (fun ix' : KeyedIndex => ix'.insertEntry (ix'.key old) rid) hdel).trans hins

end KeyedIndex

namespace KeyedTable

variable {s s₁ t : KeyedTable} {w : WriteRecord} {rid : Rid} {rec new : Bytes} {lsn : Lsn}
  {lock : TableLock} {fresh : FreshKeys}

/-- `s'` shows the rows and the index entries of `s`, and has its pages; its free space may
differ. -/
structure Shows (s' s : KeyedTable) : Prop where
  rows : s'.file.record = s.file.record
  indexes : s'.indexes = s.indexes
  pages : ∀ p, (s.file.pages p).isSome → (s'.file.pages p).isSome

/-- What holds of the table before and after each row of the transaction. -/
structure Sound (s : KeyedTable) : Prop where
  file : ∃ free, s.file.Low free
  indexed : s.RowsIndexed

theorem calculateGaps_congr {t : KeyedTable} (h : t.indexes = s.indexes) :
    t.calculateGaps lock fresh = s.calculateGaps lock fresh := by
  simp only [calculateGaps, h]

/-- The recalculation after an undone write comes through. -/
def Recalculated (s : KeyedTable) (lock : TableLock) (fresh : FreshKeys) : Prop :=
  s.indexes.isEmpty || s.calculateGaps lock fresh

/-- From `t`, undoing `w` leads to a state that shows `s`, or throws, by the gaps over the entries
of `s`. -/
structure UndoesTo (t s : KeyedTable) (lock : TableLock) (fresh : FreshKeys) (w : WriteRecord) :
    Prop where
  returns : s.Recalculated lock fresh → ∃ t', t.undoWrite lock fresh w = some t' ∧ t'.Shows s
  throws : ¬ s.Recalculated lock fresh → t.undoWrite lock fresh w = none

theorem thenCalculate_some (h : t.indexes = s.indexes) (hok : s.Recalculated lock fresh) :
    t.thenCalculate lock fresh = some t := by
  refine if_pos ?_
  rwa [h, calculateGaps_congr h]

theorem thenCalculate_none (h : t.indexes = s.indexes) (hnot : ¬ s.Recalculated lock fresh) :
    t.thenCalculate lock fresh = none := by
  refine if_neg ?_
  rwa [h, calculateGaps_congr h]

theorem Sound.key_unique (hs : s.Sound) {rid' : Rid} {rec' : Bytes} {ix : KeyedIndex}
    (hix : ix ∈ s.indexes) (h : s.file.record rid = some rec)
    (h' : s.file.record rid' = some rec') (hkey : ix.key rec' = ix.key rec) : rid' = rid := by
  have hrow := hs.indexed rid rec h ix hix
  have hrow' := hs.indexed rid' rec' h' ix hix
  rw [hkey, hrow] at hrow'
  exact (Option.some.inj hrow').symm

/-- A row with a new key is put at `rid`: every row has its entry if the others had theirs. -/
theorem find?_insert_row {ix : KeyedIndex} {rows : Rid → Option Bytes}
    {m : OrderedMap (IxKey ix.index.ixCols) Rid} (habsent : m.find? (ix.key rec) = none)
    (hothers : ∀ rid' rec', rid' ≠ rid → rows rid' = some rec' →
      m.find? (ix.key rec') = some rid')
    {rid' : Rid} {rec' : Bytes} (hrow : Function.update rows rid (some rec) rid' = some rec') :
    (m.insert (ix.key rec) rid).find? (ix.key rec') = some rid' := by
  rw [OrderedMap.find?_insert]
  by_cases hrid : rid' = rid
  · subst hrid
    rw [Function.update_self, Option.some.injEq] at hrow
    subst hrow
    rw [if_pos rfl]
  · rw [Function.update_of_ne hrid] at hrow
    have hstill := hothers rid' rec' hrid hrow
    rw [if_neg, hstill]
    intro hkey
    rw [hkey, habsent] at hstill
    cases hstill

theorem Sound.insertRow (hs : s.Sound) (hroom : s.file.Room)
    (h : s.insertRow rec lsn = some (s₁, w)) :
    s₁.Sound ∧ ∀ lock fresh, ∀ t : KeyedTable, t.Shows s₁ → t.UndoesTo s lock fresh w := by
  obtain ⟨free, hlow⟩ := hs.file
  obtain ⟨f', rid, hrun, hputs, hnone⟩ :=
    RmFile.insertRecord_takes hlow.toChained rec (some lsn)
  have hnone := hnone.mpr hroom
  simp only [KeyedTable.insertRow, hrun, Option.bind_some] at h
  obtain ⟨indexes, hixs, heq⟩ := Option.map_eq_some_iff.mp h
  cases heq
  refine ⟨⟨hlow.insertRecord hrun, ?_⟩, fun lock fresh t ht => ?_⟩
  · intro rid' rec' hrow ix' hix'
    obtain ⟨ix, hix, hins⟩ := mem_of_mapM hixs hix'
    obtain ⟨habsent, rfl⟩ := KeyedIndex.insertEntry_eq_some hins
    simp only [hputs.record] at hrow
    exact find?_insert_row habsent (fun rid' rec' _ hold => hs.indexed rid' rec' hold ix hix) hrow
  · have hrow : t.file.record rid = some rec := by
      rw [ht.rows, hputs.record, Function.update_self]
    obtain ⟨f'', hdel, hputs'⟩ := RmFile.deleteRecord_of_record hrow none
    have hentries : t.indexes.map (fun ix => ix.deleteEntry (ix.key rec)) = s.indexes := by
      have hback : indexes.mapM (fun ix => some (ix.deleteEntry (ix.key rec))) =
          some s.indexes :=
        mapM_back hixs fun ix _ ix' hins =>
          congrArg some (KeyedIndex.deleteEntry_insertEntry hins)
      rw [ht.indexes]
      exact Option.some.inj (List.mapM_pure.symm.trans hback)
    constructor
    · intro hok
      refine ⟨⟨f'', s.indexes⟩, ?_, ?_, rfl, fun p hp => ?_⟩
      · rw [undoWrite, hdel, Option.bind_some, hentries]
        exact thenCalculate_some rfl hok
      · show f''.record = s.file.record
        rw [hputs'.record, ht.rows, hputs.record, Function.update_idem]
        exact Function.update_eq_self_iff.mpr hnone.symm
      · exact hputs'.pages p (ht.pages p (hputs.pages p hp))
    · intro hnot
      rw [undoWrite, hdel, Option.bind_some, hentries]
      exact thenCalculate_none rfl hnot

theorem Sound.deleteRow (hs : s.Sound) (h : s.deleteRow rid lsn = some (s₁, w)) :
    s₁.Sound ∧ ∀ lock fresh, ∀ t : KeyedTable, t.Shows s₁ → t.UndoesTo s lock fresh w := by
  obtain ⟨rec, hrec, h⟩ := Option.bind_eq_some_iff.mp h
  obtain ⟨f', hrun, hputs⟩ := RmFile.deleteRecord_of_record hrec (some lsn)
  simp only [hrun, Option.map_some, Option.some.injEq, Prod.mk.injEq] at h
  obtain ⟨rfl, rfl⟩ := h
  refine ⟨⟨RmFile.low_deleteRecord hs.file (by simp [hrec]) hrun, ?_⟩, fun lock fresh t ht => ?_⟩
  · intro rid' rec' hrow ix' hix'
    obtain ⟨ix, hix, rfl⟩ := List.mem_map.mp hix'
    simp only [hputs.record] at hrow
    have hrid : rid' ≠ rid := by
      rintro rfl
      simp at hrow
    rw [Function.update_of_ne hrid] at hrow
    show (ix.map.erase (ix.key rec)).find? (ix.key rec') = some rid'
    rw [OrderedMap.find?_erase, if_neg fun hkey => hrid (hs.key_unique hix hrec hrow hkey)]
    exact hs.indexed rid' rec' hrow ix hix
  · have hthere := ht.pages rid.pageNo hputs.there
    obtain ⟨f'', hins, hputs'⟩ := RmFile.insertRecordAt_of_page hthere rec
    have hentries : t.indexes.map (fun ix => ix.tryInsertEntry (ix.key rec) rid) = s.indexes := by
      rw [ht.indexes, List.map_map]
      refine (List.map_congr_left fun ix hix => ?_).trans (List.map_id _)
      exact KeyedIndex.tryInsertEntry_deleteEntry (hs.indexed rid rec hrec ix hix)
    constructor
    · intro hok
      refine ⟨⟨f'', s.indexes⟩, ?_, ?_, rfl, fun p hp => ?_⟩
      · rw [undoWrite, hins, Option.bind_some, hentries]
        exact thenCalculate_some rfl hok
      · show f''.record = s.file.record
        rw [hputs'.record, ht.rows, hputs.record, Function.update_idem]
        exact Function.update_eq_self_iff.mpr hrec.symm
      · exact hputs'.pages p (ht.pages p (hputs.pages p hp))
    · intro hnot
      rw [undoWrite, hins, Option.bind_some, hentries]
      exact thenCalculate_none rfl hnot

theorem Sound.updateRow (hs : s.Sound) (h : s.updateRow rid new lsn = some (s₁, w)) :
    s₁.Sound ∧ ∀ lock fresh, ∀ t : KeyedTable, t.Shows s₁ → t.UndoesTo s lock fresh w := by
  obtain ⟨old, hold, h⟩ := Option.bind_eq_some_iff.mp h
  obtain ⟨indexes, hixs, h⟩ := Option.bind_eq_some_iff.mp h
  obtain ⟨f', hrun, hputs⟩ := RmFile.updateRecord_of_record hold new (some lsn)
  simp only [hrun, Option.map_some, Option.some.injEq, Prod.mk.injEq] at h
  obtain ⟨rfl, rfl⟩ := h
  refine ⟨⟨RmFile.low_updateRecord hs.file (by simp [hold]) hrun, ?_⟩, fun lock fresh t ht => ?_⟩
  · intro rid' rec' hrow ix' hix'
    obtain ⟨ix, hix, hmove⟩ := mem_of_mapM hixs hix'
    obtain ⟨habsent, rfl⟩ := KeyedIndex.insertEntry_eq_some hmove
    simp only [hputs.record] at hrow
    have habsent' : (ix.map.erase (ix.key old)).find? (ix.key new) = none := habsent
    refine find?_insert_row habsent' (fun rid' rec' hrid hrow => ?_) hrow
    rw [OrderedMap.find?_erase, if_neg fun hkey => hrid (hs.key_unique hix hold hrow hkey)]
    exact hs.indexed rid' rec' hrow ix hix
  · have hrow : t.file.record rid = some new := by
      rw [ht.rows, hputs.record, Function.update_self]
    obtain ⟨f'', hback, hputs'⟩ := RmFile.updateRecord_of_record hrow old none
    have hentries : t.indexes.mapM (fun ix => ix.moveEntry new old rid) = some s.indexes := by
      rw [ht.indexes]
      exact mapM_back hixs fun ix hix ix' hmove =>
        KeyedIndex.moveEntry_back (hs.indexed rid old hold ix hix) hmove
    constructor
    · intro hok
      refine ⟨⟨f'', s.indexes⟩, ?_, ?_, rfl, fun p hp => ?_⟩
      · have hcalc : thenCalculate ⟨t.file, s.indexes⟩ lock fresh = some ⟨t.file, s.indexes⟩ :=
          thenCalculate_some rfl hok
        rw [undoWrite, hentries, Option.bind_some, hcalc, Option.bind_some, hback, Option.map_some]
      · show f''.record = s.file.record
        rw [hputs'.record, ht.rows, hputs.record, Function.update_idem]
        exact Function.update_eq_self_iff.mpr hold.symm
      · exact hputs'.pages p (ht.pages p (hputs.pages p hp))
    · intro hnot
      have hcalc : thenCalculate ⟨t.file, s.indexes⟩ lock fresh = none :=
        thenCalculate_none rfl hnot
      rw [undoWrite, hentries, Option.bind_some, hcalc, Option.bind_none]

/-- The gaps that a scan has locked, and what it keeps of their index. -/
structure Locks (s : KeyedTable) (lock : TableLock) : Prop where
  ranged : ∀ gap ∈ lock.gaps, ∀ ix, s.indexes[gap.index]? = some ix →
    Ranged ix.index.cols gap.conds ∧ (ix.index.cols.map ColMeta.name).Nodup

/-- What the recalculation needs, over all that the fresh buffers can hold. -/
theorem forall_recalculated_iff (h : s.Locks lock) :
    (∀ fresh, s.Recalculated lock fresh) ↔ lock.groupMode ≠ .gap ∨ s.GapsRecalculate lock := by
  have hcalc : ∀ fresh, s.calculateGaps lock fresh = true ↔ lock.groupMode ≠ .gap ∨
      ∀ gap ∈ lock.gaps.zipIdx, ∀ ix, s.indexes[gap.1.index]? = some ix →
        ix.recalculates gap.1.conds (fresh gap.2 ix.index.ixCols) = true := by
    intro fresh
    simp only [calculateGaps, Bool.or_eq_true, bne_iff_ne, List.all_eq_true]
    refine or_congr_right (forall_congr' fun gap => forall_congr' fun _ => ?_)
    cases s.indexes[gap.1.index]? <;> simp
  have hgaps : (∀ fresh : FreshKeys, ∀ gap ∈ lock.gaps.zipIdx, ∀ ix,
      s.indexes[gap.1.index]? = some ix →
        ix.recalculates gap.1.conds (fresh gap.2 ix.index.ixCols) = true) ↔
          s.GapsRecalculate lock := by
    constructor
    · intro hall gap hgap ix hix
      obtain ⟨hranged, hnodup⟩ := h.ranged gap hgap ix hix
      refine (KeyedIndex.forall_recalculates_iff hranged hnodup).mp fun bufs => ?_
      obtain ⟨n, hn, hget⟩ := List.mem_iff_getElem.mp hgap
      have hmem : (gap, n) ∈ lock.gaps.zipIdx :=
        List.mk_mem_zipIdx_iff_getElem?.mpr (by rw [List.getElem?_eq_getElem hn, hget])
      -- buffers that are `bufs` for the columns of this index
      have hone := hall (fun _ cols => if heq : ix.index.ixCols = cols then heq ▸ bufs else
        ⟨.zero cols, .zero cols, .zero cols, .zero cols⟩) (gap, n) hmem ix hix
      simpa using hone
    · intro hall fresh gap hgap ix hix
      have hmem : gap.1 ∈ lock.gaps := List.fst_mem_of_mem_zipIdx hgap
      obtain ⟨hranged, hnodup⟩ := h.ranged gap.1 hmem ix hix
      exact (KeyedIndex.forall_recalculates_iff hranged hnodup).mpr (hall gap.1 hmem ix hix) _
  by_cases hnil : s.indexes = []
  · refine ⟨fun _ => Or.inr fun gap _ ix hix => ?_, fun _ fresh => ?_⟩
    · simp [hnil] at hix
    · simp [Recalculated, hnil]
  · have hempty : s.indexes.isEmpty = false := by simpa using hnil
    simp only [Recalculated, hempty, Bool.false_or, hcalc, forall_or_left, hgaps]

end KeyedTable

namespace KeyedRun

open KeyedTable

variable {s s₁ : KeyedRun} {op : RowOp} {lock : TableLock}

/-- One more row operation before the abort: it keeps the table sound, and its undo leads back. -/
theorem step_undo (hs : s.tab.Sound) (hroom : s.HasRoom op) (h : s.step op = some s₁) :
    s₁.tab.Sound ∧ ∃ w, s₁.writeSet = w :: s.writeSet ∧
      ∀ lock fresh, ∀ t : KeyedTable, t.Shows s₁.tab → t.UndoesTo s.tab lock fresh w := by
  obtain ⟨⟨tab, w⟩, hop, rfl⟩ := Option.map_eq_some_iff.mp h
  cases op with
  | insert rec lsn =>
    obtain ⟨hmade, hundo⟩ := hs.insertRow (hroom rfl) hop
    exact ⟨hmade, w, rfl, hundo⟩
  | delete rid lsn => exact ⟨(hs.deleteRow hop).1, w, rfl, (hs.deleteRow hop).2⟩
  | update rid new lsn => exact ⟨(hs.updateRow hop).1, w, rfl, (hs.updateRow hop).2⟩

/-- No row operation changes what an index is on. -/
theorem step_index (h : s.step op = some s₁) :
    List.Forall₂ (fun ix ix' : KeyedIndex => ix'.index = ix.index) s.tab.indexes
      s₁.tab.indexes := by
  have of_mapM : ∀ {f : KeyedIndex → Option KeyedIndex} {l l' : List KeyedIndex},
      (∀ ix ix', f ix = some ix' → ix'.index = ix.index) → l.mapM f = some l' →
        List.Forall₂ (fun ix ix' : KeyedIndex => ix'.index = ix.index) l l' :=
    fun hf hl => (forall₂_of_mapM hl).imp fun ix ix' => hf ix ix'
  obtain ⟨⟨tab, w⟩, hop, rfl⟩ := Option.map_eq_some_iff.mp h
  cases op with
  | insert rec lsn =>
    obtain ⟨⟨file, rid⟩, -, hop⟩ := Option.bind_eq_some_iff.mp hop
    obtain ⟨indexes, hixs, heq⟩ := Option.map_eq_some_iff.mp hop
    cases heq
    refine of_mapM (fun ix ix' hins => ?_) hixs
    rw [(KeyedIndex.insertEntry_eq_some hins).2]
  | delete rid lsn =>
    obtain ⟨rec, -, hop⟩ := Option.bind_eq_some_iff.mp hop
    obtain ⟨file, -, heq⟩ := Option.map_eq_some_iff.mp hop
    cases heq
    exact List.forall₂_map_right_iff.mpr (List.forall₂_same.mpr fun ix _ => rfl)
  | update rid new lsn =>
    obtain ⟨old, -, hop⟩ := Option.bind_eq_some_iff.mp hop
    obtain ⟨indexes, hixs, hop⟩ := Option.bind_eq_some_iff.mp hop
    obtain ⟨file, -, heq⟩ := Option.map_eq_some_iff.mp hop
    cases heq
    refine of_mapM (fun ix ix' hmove => ?_) hixs
    rw [(KeyedIndex.insertEntry_eq_some hmove).2]
    rfl

theorem step_locks (hs : s.tab.Locks lock) (h : s.step op = some s₁) : s₁.tab.Locks lock := by
  refine ⟨fun gap hgap ix' hix' => ?_⟩
  have hsame := step_index h
  obtain ⟨ix, hix, heq⟩ : ∃ ix, s.tab.indexes[gap.index]? = some ix ∧ ix'.index = ix.index := by
    have hlen := hsame.length_eq
    obtain ⟨hlt, hget⟩ := List.getElem?_eq_some_iff.mp hix'
    have hlt' : gap.index < s.tab.indexes.length := by omega
    refine ⟨s.tab.indexes[gap.index], List.getElem?_eq_getElem hlt', ?_⟩
    have hpair := List.forall₂_iff_get.mp hsame
    have := hpair.2 gap.index hlt' hlt
    simpa [hget] using this
  rw [heq]
  exact hs.ranged gap hgap ix hix

/-- The run is undone exactly if each recalculation on the way back comes through. -/
theorem abort_iff {start : KeyedTable} (hstart : start.Sound) (fresh : Nat → FreshKeys)
    {ops : List RowOp} (hroom : MeetsAll step HasRoom ⟨start, []⟩ ops)
    (h : run step ⟨start, []⟩ ops = some s) :
    s.tab.Sound ∧ ∀ t : KeyedTable, t.Shows s.tab →
      ((∃ t', abort lock fresh s.writeSet t = some t' ∧ t'.Shows start) ↔
        MeetsAll step (fun s _ => s.tab.Recalculated lock (fresh s.writeSet.length))
          ⟨start, []⟩ ops) ∧
      ((∃ t', abort lock fresh s.writeSet t = some t') →
        ∃ t', abort lock fresh s.writeSet t = some t' ∧ t'.Shows start) := by
  induction ops using List.reverseRecOn generalizing s with
  | nil =>
    cases Option.some.inj h
    exact ⟨hstart, fun t ht => ⟨⟨fun _ => trivial, fun _ => ⟨t, rfl, ht⟩⟩, fun _ => ⟨t, rfl, ht⟩⟩⟩
  | append_singleton ops op ih =>
    rw [run_append] at h
    obtain ⟨mid, hmid, hlast⟩ := Option.bind_eq_some_iff.mp h
    obtain ⟨s', hstep, hs'⟩ := run_cons_eq_some.mp hlast
    cases Option.some.inj hs'
    obtain ⟨hfirst, hlastRoom⟩ := meetsAll_concat.mp hroom
    obtain ⟨hsound, hback⟩ := ih hfirst hmid
    obtain ⟨hsound', w, hws, hundo⟩ := step_undo hsound (hlastRoom mid hmid) hstep
    refine ⟨hsound', fun t ht => ?_⟩
    have hone := hundo lock (fresh mid.writeSet.length) t ht
    rw [meetsAll_concat, hws, KeyedTable.abort]
    by_cases hok : mid.tab.Recalculated lock (fresh mid.writeSet.length)
    · obtain ⟨t', hrun, ht'⟩ := hone.returns hok
      have hgood : ∀ mid', run step ⟨start, []⟩ ops = some mid' →
          mid'.tab.Recalculated lock (fresh mid'.writeSet.length) := by
        intro mid' hmid'
        cases Option.some.inj (hmid.symm.trans hmid')
        exact hok
      rw [hrun, Option.bind_some, and_iff_left hgood]
      exact hback t' ht'
    · rw [hone.throws hok, Option.bind_none]
      refine ⟨⟨?_, fun hall => absurd (hall.2 mid hmid) hok⟩, ?_⟩
      · rintro ⟨t', ht', -⟩
        cases ht'
      · rintro ⟨t', ht'⟩
        cases ht'

/-- `CREATE TABLE t (a INT, b INT)` with an index on `a`. -/
def emptyTable : KeyedTable :=
  ⟨RmFile.create 8, [⟨indexOnA, fun name => if name = "b" then 4 else 0, by decide, .empty⟩]⟩

def row (a b : UInt8) : Bytes := [a, 0, 0, 0, b, 0, 0, 0]

/-- The lock of `DELETE FROM t WHERE a = 1`, which scans the index. -/
def deleteLock : TableLock := ⟨.gap, [⟨0, [onA .eq 1]⟩]⟩

theorem deleteLock_chosen : indexOnA.Chosen [onA .eq 1] := by
  refine chosen_onA (by decide +kernel) fun cond hcond => ?_
  rw [List.mem_singleton.mp hcond]
  exact ⟨1, rfl, by decide⟩

theorem deleteLock_ends (key : IxKey indexOnA.ixCols) :
    indexOnA.lowKey [onA .eq 1] ≤ endKey indexOnA.ixCols key := by
  have hend : endKey indexOnA.ixCols key = IxKey.ofValues [.int] [.int (2 ^ 31 - 1)] :=
    copyValues_add (holds_map IxCol.holds_generateMax [.int]) key
  rw [hend]
  exact ((ixCompare_neg_iff _ _).mp (by decide +kernel)).le

theorem step_reached (hfile : s.tab.file.Reached) (h : s.step op = some s₁) :
    s₁.tab.file.Reached := by
  obtain ⟨⟨tab, w⟩, hop, rfl⟩ := Option.map_eq_some_iff.mp h
  cases op with
  | insert rec lsn =>
    obtain ⟨⟨file, rid⟩, hins, hop⟩ := Option.bind_eq_some_iff.mp hop
    obtain ⟨indexes, -, heq⟩ := Option.map_eq_some_iff.mp hop
    cases heq
    exact hfile.insertRecord hins
  | delete rid lsn =>
    obtain ⟨rec, hrec, hop⟩ := Option.bind_eq_some_iff.mp hop
    obtain ⟨file, hdel, heq⟩ := Option.map_eq_some_iff.mp hop
    cases heq
    refine hfile.callStep (c := .op (.delete rid (some lsn))) ?_
    rw [RmFile.callStep, if_pos (RmFile.isRecord_iff.mpr (by simp [hrec])), hdel]
  | update rid new lsn =>
    obtain ⟨old, hold, hop⟩ := Option.bind_eq_some_iff.mp hop
    obtain ⟨indexes, -, hop⟩ := Option.bind_eq_some_iff.mp hop
    obtain ⟨file, hupd, heq⟩ := Option.map_eq_some_iff.mp hop
    cases heq
    refine hfile.callStep (c := .op (.update rid new (some lsn))) ?_
    rw [RmFile.callStep, if_pos (RmFile.isRecord_iff.mpr (by simp [hold])), hupd]

/-- A table that row operations have made of a new one. -/
theorem made_of_run {ops : List RowOp} (h : run step ⟨emptyTable, []⟩ ops = some s)
    (hroom : MeetsAll step HasRoom ⟨emptyTable, []⟩ ops) :
    s.tab.file.Reached ∧ s.tab.RowsIndexed := by
  have hempty : emptyTable.Sound ∧ emptyTable.file.Reached := by
    refine ⟨⟨⟨[], RmFile.low_create (by decide)⟩, fun rid rec hrec => ?_⟩, 8, by decide, [], rfl⟩
    simp [emptyTable, RmFile.create, RmFile.record] at hrec
  have hend : s.tab.Sound ∧ s.tab.file.Reached :=
    run_invariant (I := fun s => s.tab.Sound ∧ s.tab.file.Reached)
      (fun _ _ _ hi hgood hs => ⟨(step_undo hi.1 hgood hs).1, step_reached hi.2 hs⟩)
      hempty hroom h
  exact ⟨hend.2, hend.1.indexed⟩

theorem recalculates_deleteLock {s : KeyedTable}
    (h : ∀ ix ∈ s.indexes, ix.index = indexOnA ∧ ix.map.entries.isEmpty = false) :
    s.GapsRecalculate deleteLock := by
  intro gap hgap ix hix
  rw [List.mem_singleton.mp hgap] at hix ⊢
  obtain ⟨hindex, hne⟩ := h ix (List.mem_of_getElem? hix)
  obtain ⟨index, offset, fits, map⟩ := ix
  subst hindex
  rw [KeyedIndex.Recalculates, if_neg (List.cons_ne_nil _ _)]
  exact ⟨by simpa using hne, fun _ key => deleteLock_ends key⟩

end KeyedRun

end Grmdb
