import Grmdb.GapCopies
import Grmdb.IndexEntry
import Grmdb.OrderedMap

namespace Grmdb

open PagedTree Tiling BTree

/-- The bytes that the executors copy to a key, column after column. `offset` is where the column
of a name lies in the records of the table. -/
def colBytes (offset : String → Nat) (rec : Bytes) (col : ColMeta) : Bytes :=
  (List.range col.ixCol.len).map fun i => rec.getD (offset col.name + i) 0

theorem length_flatMap_colBytes (offset : String → Nat) (rec : Bytes) (cols : List ColMeta) :
    (cols.flatMap (colBytes offset rec)).length = colTotLen (cols.map ColMeta.ixCol) := by
  induction cols with
  | nil => rfl
  | cons col cols ih =>
    rw [List.flatMap_cons, List.length_append, ih]
    simp [colBytes, colTotLen]

/-- The key of a record. -/
def IndexMeta.makeKey (index : IndexMeta) (offset : String → Nat) (rec : Bytes) :
    IxKey index.ixCols :=
  ⟨index.cols.flatMap (colBytes offset rec), length_flatMap_colBytes offset rec index.cols⟩

/-- An index of a table as the finite map that `insert_entry` and `delete_entry` maintain. -/
structure KeyedIndex where
  index : IndexMeta
  offset : String → Nat
  fits : colTotLen index.ixCols ≤ IX_MAX_COL_LEN
  map : OrderedMap (IxKey index.ixCols) Rid

namespace KeyedIndex

def key (ix : KeyedIndex) (rec : Bytes) : IxKey ix.index.ixCols := ix.index.makeKey ix.offset rec

/-- `none` is the `IndexEntryExistsError`. -/
def insertEntry (ix : KeyedIndex) (key : IxKey ix.index.ixCols) (rid : Rid) : Option KeyedIndex :=
  if ix.map.find? key = none then some { ix with map := ix.map.insert key rid } else none

def deleteEntry (ix : KeyedIndex) (key : IxKey ix.index.ixCols) : KeyedIndex :=
  { ix with map := ix.map.erase key }

/-- `delete_entry` of the key of `old`, then `insert_entry` of the key of `new`. -/
def moveEntry (ix : KeyedIndex) (old new : Bytes) (rid : Rid) : Option KeyedIndex :=
  (ix.deleteEntry (ix.key old)).insertEntry (ix.key new) rid

/-- `insert_entry` inside a `try` that ignores the error. -/
def tryInsertEntry (ix : KeyedIndex) (key : IxKey ix.index.ixCols) (rid : Rid) : KeyedIndex :=
  (ix.insertEntry key rid).getD ix

def layout (ix : KeyedIndex) : IxLayout (IxKey ix.index.ixCols) := .ofCols ix.index.ixCols ix.fits

/-- An index file with the entries of the map in one leaf, or without a page if there are none.
`gap_returns` says that their pages make no difference. -/
def file (ix : KeyedIndex) : IxFile (IxKey ix.index.ixCols) :=
  if ix.map.entries = [] then
    { IxFile.create _ with firstLeaf := IX_NO_PAGE, lastLeaf := IX_NO_PAGE }
  else
    ⟨3, 3, 3, 4, Function.update (fun _ => none) 3
      (some ⟨IX_NO_PAGE, true, 3, 3, ix.map.entries, []⟩), 0⟩

/-- `calculate_gaps_on_table` comes through a gap on this index whose conditions are `conds`. -/
def recalculates (ix : KeyedIndex) (conds : List Condition) (bufs : GapBuffers ix.index.ixCols) :
    Bool :=
  (LockManager.gap ix.layout ix.file conds bufs).isSome

/-- When it does so whatever the fresh buffers hold: without conditions, the lower key, whose
columns are all written to the start of the buffer, is not above the least key of the index, or
above the end key if there is none; with conditions, the index has a key, and if all of them lie in
front of the range, the lower corner is not above the end key. -/
def Recalculates (ix : KeyedIndex) (conds : List Condition) : Prop :=
  if conds = [] then
    ∀ key key', copyValues (fun offset _ => offset) 0 ix.index.ixCols
        (ix.index.ixCols.map IxCol.generateMin) key ≤
      keyAfter ix.map.entries (endKey ix.index.ixCols key')
  else
    ix.map.entries ≠ [] ∧
      ((∀ e ∈ ix.map.entries, ix.index.Below conds e.1) →
        ∀ key, ix.index.lowKey conds ≤ endKey ix.index.ixCols key)

end KeyedIndex

section Returns

variable {index : IndexMeta} {conds : List Condition} {s : IxFile (IxKey index.ixCols)}
  {g : Labels PageNo (IxKey index.ixCols)} {ls : List PageNo}
  {front rest rest' : List (IxKey index.ixCols × Rid)} {iids : Iid × Iid}
  {K : IxKey index.ixCols} {bufs : GapBuffers index.ixCols}

theorem gapAt_isSome_iff : (gapAt (iids, K) front rest rest' bufs).isSome ↔
    K ≤ keyAfter rest (endKey index.ixCols bufs.lowerBound) := by
  rw [Option.isSome_iff_exists]
  constructor
  · rintro ⟨r, hr⟩
    rcases (gapAt_some hr).2 with ⟨hlt, -⟩ | ⟨heq, -⟩
    · exact hlt.le
    · exact heq.le
  · intro hle
    apply gapAt_returns
    exact hle

/-- A recalculation over the entries `es`, in key order, comes through. -/
def GapReturns (index : IndexMeta) (es : List (IxKey index.ixCols × Rid)) (conds : List Condition)
    (bufs : GapBuffers index.ixCols) : Prop :=
  if conds = [] then
    copyValues (fun offset _ => offset) 0 index.ixCols (index.ixCols.map IxCol.generateMin)
      bufs.lowerKey ≤ keyAfter es (endKey index.ixCols bufs.lowerBound)
  else
    es ≠ [] ∧ ((∀ e ∈ es, index.Below conds e.1) →
      index.lowKey conds ≤ endKey index.ixCols bufs.lowerBound)

/-- Whether a gap can be recalculated depends on the entries of the tree alone. -/
theorem gap_returns (h : BTree s g ls) (L : IxLayout (IxKey index.ixCols))
    (hranged : Ranged index.cols conds) (hnodup : (index.cols.map ColMeta.name).Nodup)
    (bufs : GapBuffers index.ixCols) :
    (LockManager.gap L s conds bufs).isSome ↔ GapReturns index (s.pairs ls) conds bufs := by
  by_cases hne : conds = []
  · subst hne
    obtain ⟨last, -, hgap⟩ := gap_nil h L
    rw [(hgap bufs).2, gapAt_isSome_iff, GapReturns, if_pos rfl]
  · obtain ⟨lower, upper, front, rest, front', rest', hlower, -, hcut, -, hgap⟩ :=
      gap_eq_ofRows h L hranged hnodup hne
    have hpairs : s.pairs ls = front ++ rest := hlower.pairs_eq
    rw [(hgap bufs).2, gapAt_isSome_iff, GapReturns, if_neg hne, and_iff_right h.pairs_ne_nil,
      hpairs]
    cases rest with
    | nil =>
      have hall : ∀ e ∈ front ++ [], index.Below conds e.1 := by simpa using hcut.1
      exact ⟨fun hle _ => hle, fun hle => hle hall⟩
    | cons e rest =>
      have hnot : ¬ index.Below conds e.1 := hcut.2 e List.mem_cons_self
      refine ⟨fun _ hall => absurd (hall e (by simp)) hnot, fun _ => ?_⟩
      exact le_of_not_below hnot

/-- An index without a page, whose two ends are the same. -/
theorem gap_returns_emptied {L : IxLayout (IxKey index.ixCols)} (h : Emptied L s)
    (hends : s.firstLeaf = s.lastLeaf) (bufs : GapBuffers index.ixCols) :
    (LockManager.gap L s conds bufs).isSome ↔ GapReturns index [] conds bufs := by
  have hend : s.leafEnd = some s.leafBegin := by
    unfold IxFile.leafEnd IxFile.leafBegin
    rw [h.pages, hends]
    split <;> simp_all
  by_cases hne : conds = []
  · subst hne
    rw [GapReturns, if_pos rfl]
    have hget : ∀ key, s.getKey L s.leafBegin key = some (endKey index.ixCols key) :=
      fun key => by rw [IxFile.getKey, if_pos hend]
    have hgap : LockManager.gap L s [] bufs = gapAt ((s.leafBegin, s.leafBegin),
        copyValues (fun offset _ => offset) 0 index.ixCols
          (index.ixCols.map IxCol.generateMin) bufs.lowerKey) [] [] [] bufs := by
      simp only [LockManager.gap, LockManager.getBound, getBoundWith, if_pos, hend,
        Option.map_some, Option.bind_some, LockManager.getGapLockKey, getGapLockKeyWith, hget,
        IxFile.minusOne, gapAt, keyBefore, keyAfter]
      rfl
    rw [hgap, gapAt_isSome_iff]
  · rw [GapReturns, if_neg hne]
    have hnone : LockManager.gap L s conds bufs = none := by
      have hlower : ∀ key, s.lowerBound L key = none := fun key => by
        rw [IxFile.lowerBound, h.findLeafPage, Option.bind_none]
      have hupper : ∀ key, s.upperBound L key = none := fun key => by
        rw [IxFile.upperBound, h.findLeafPage, Option.bind_none]
      unfold LockManager.gap LockManager.getBound getBoundWith
      rw [if_neg hne]
      simp only [hlower, hupper]
      split <;> simp
    simp [hnone]

end Returns

namespace KeyedIndex

variable {ix : KeyedIndex} {conds : List Condition}

theorem file_emptied (h : ix.map.entries = []) : Emptied ix.layout ix.file := by
  rw [file, if_pos h]
  exact ⟨rfl, fun _ => rfl, show (0 : Int) ≤ 3 by decide, Nat.zero_le _⟩

/-- The file with the entries in one leaf is a B+ tree. -/
theorem file_btree (h : ix.map.entries ≠ []) :
    ∃ g, BTree ix.file g [3] ∧ ix.file.pairs [3] = ix.map.entries := by
  have hsorted : (ix.map.entries.map Prod.fst).Pairwise (· < ·) :=
    List.pairwise_map.mpr ix.map.sorted
  have htree : ix.file.tree = Function.update (fun _ => none) (3 : PageNo)
      (some (.leaf IX_NO_PAGE 3 3 ix.map.entries)) := by
    rw [file, if_neg h]
    funext p
    by_cases hp : p = 3
    · subst hp
      simp [IxFile.tree, IxNode.view]
    · simp [IxFile.tree, hp]
  have hpages : ∀ {p n}, ix.file.pages p = some n →
      p = 3 ∧ n = ⟨IX_NO_PAGE, true, 3, 3, ix.map.entries, []⟩ := by
    intro p n hn
    rw [file, if_neg h] at hn
    by_cases hp : p = 3
    · subst hp
      simp only [Function.update_self, Option.some.injEq] at hn
      exact ⟨rfl, hn.symm⟩
    · simp only [Function.update_of_ne hp] at hn
      cases hn
  have hsingle := @ChainedTree.single PageNo (IxKey ix.index.ixCols) Rid _ _ 3 IX_NO_PAGE
    ix.map.entries (by decide) hsorted
  rw [← htree] at hsingle
  have hends : ix.file.rootPage = 3 ∧ ix.file.firstLeaf = 3 ∧ ix.file.lastLeaf = 3 ∧
      ix.file.nextPageNo = 4 := by
    rw [file, if_neg h]
    exact ⟨rfl, rfl, rfl, rfl⟩
  obtain ⟨hroot, hfirst, hlast, hnext⟩ := hends
  refine ⟨⟨fun _ => 0, fun _ => ⊥, fun _ => ⊤⟩, ⟨?_, ?_, ?_, ?_, ?_⟩, ?_⟩
  · rw [hroot]
    exact hsingle.shape
  · rw [hfirst, hlast]
    exact hsingle.chain
  · intro p n hn _
    rw [(hpages hn).2]
    exact h
  · intro p n hn hleaf
    rw [(hpages hn).2] at hleaf
    cases hleaf
  · intro p n hn
    rw [(hpages hn).1, hnext]
    decide
  · simp [IxFile.pairs, IxFile.entriesOf, file, h]

/-- What the recalculation of a gap needs of the entries. -/
theorem recalculates_iff (hranged : Ranged ix.index.cols conds)
    (hnodup : (ix.index.cols.map ColMeta.name).Nodup) (bufs : GapBuffers ix.index.ixCols) :
    ix.recalculates conds bufs = true ↔ GapReturns ix.index ix.map.entries conds bufs := by
  by_cases h : ix.map.entries = []
  · have hends : ix.file.firstLeaf = ix.file.lastLeaf := by
      rw [file, if_pos h]
    rw [recalculates, gap_returns_emptied (file_emptied h) hends, h]
  · obtain ⟨g, htree, hpairs⟩ := file_btree h
    rw [recalculates, gap_returns htree ix.layout hranged hnodup, hpairs]

theorem forall_recalculates_iff (hranged : Ranged ix.index.cols conds)
    (hnodup : (ix.index.cols.map ColMeta.name).Nodup) :
    (∀ bufs, ix.recalculates conds bufs = true) ↔ ix.Recalculates conds := by
  simp only [recalculates_iff hranged hnodup, GapReturns, Recalculates]
  split
  next =>
    exact ⟨fun h key key' => h ⟨key, key, key', key'⟩, fun h bufs => h _ _⟩
  next =>
    refine ⟨fun h => ⟨(h ⟨.zero _, .zero _, .zero _, .zero _⟩).1, fun hall key => ?_⟩,
      fun h bufs => ⟨h.1, fun hall => h.2 hall _⟩⟩
    exact (h ⟨key, key, key, key⟩).2 hall

end KeyedIndex

end Grmdb
