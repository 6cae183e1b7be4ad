import Grmdb.IndexKeys
import Grmdb.IndexScanRows
import Grmdb.RangeRows

namespace Grmdb

open PagedTree Tiling BTree

def IxFile.Stored {κ : Type} (s : IxFile κ) (k : κ) : Prop := ∃ r, Stores s.tree k r

/-- A row, by the names of its columns. -/
abbrev TableRow : Type := String → Value

/-- The row meets every condition with a literal. -/
def TableRow.Meets (row : TableRow) (conds : List Condition) : Prop :=
  ∀ cond ∈ conds, ∀ w, cond.rhsVal = some w → (row cond.lhsCol.colName).comp w cond.op = some true

/-- Each row that meets the conditions, once. -/
def Answers (rows : Rid → Option TableRow) (given : List Condition) (rids : List Rid) : Prop :=
  rids.Nodup ∧ ∀ r, r ∈ rids ↔ ∃ row, rows r = some row ∧ row.Meets given

namespace IndexMeta

/-- A scan of an index on INT and CHAR columns for conditions for which `get_index_cols` returns
true, where `conds` is what it leaves of them. -/
structure ChosenFor (index : IndexMeta) (given conds : List Condition) : Prop where
  chosen : ∃ (cat : SmManager) (tabName : String) (tab : TabMeta) (names : List String),
    cat.Made ∧ cat.tabs tabName = some tab ∧
      getIndexCols cat.tabs tabName given = some (conds, some names) ∧
      tab.getIndexMeta names = some index
  plain : ∀ col ∈ index.cols, col.type = .int ∧ col.len = 4 ∨ col.type = .string
  typed : Typed index.cols given

variable (index : IndexMeta)

def rowVals (row : TableRow) : List Value := index.cols.map fun col => row col.name

def rowKey (row : TableRow) : IxKey index.ixCols := IxKey.ofValues index.ixCols (index.rowVals row)

/-- The key of some row. -/
def IsRowKey (k : IxKey index.ixCols) : Prop :=
  ∃ vals, List.Forall₂ IxCol.Holds index.ixCols vals ∧ k = IxKey.ofValues index.ixCols vals

/-- The index is made by inserting and deleting keys of rows, and its tree maps the key of each row
of the table to the rid of the row, and nothing else. -/
structure Indexes (L : IxLayout (IxKey index.ixCols)) (s : IxFile (IxKey index.ixCols))
    (rows : Rid → Option TableRow) : Prop where
  zeroKey : L.zeroKey = IxKey.zero index.ixCols
  run : KeyRun index.IsRowKey L s
  holds : ∀ r row, rows r = some row → List.Forall₂ IxCol.Holds index.ixCols (index.rowVals row)
  stores : ∀ k r, Stores s.tree k r ↔ ∃ row, rows r = some row ∧ k = index.rowKey row

/-- Whatever the buffers hold, the scan ends, and it has read the rows that meet the conditions,
each once. -/
def ScansExactly (L : IxLayout (IxKey index.ixCols)) (s : IxFile (IxKey index.ixCols))
    (rows : Rid → Option TableRow) (given conds : List Condition) : Prop :=
  ∀ bufs rid, ∃ rounds rids,
    (∀ fuel, rounds ≤ fuel →
      IndexScanExecutor.enumerate L s conds bufs rid fuel = some rids) ∧
    Answers rows given rids

variable (s : IxFile (IxKey index.ixCols)) (conds : List Condition)

def InRange (k : IxKey index.ixCols) : Prop := ¬index.Below conds k ∧ index.Within conds k

/-- A stored key that lies in front of the start of the range, and yet not in front of its end. -/
def Crossed (k : IxKey index.ixCols) : Prop :=
  s.Stored k ∧ index.Below conds k ∧ ¬index.Within conds k

/-- The lower corner is a stored key that the scan reads. -/
def LowStored : Prop := s.Stored (index.lowKey conds) ∧ ¬index.Below conds (index.lowKey conds)

/-- The stored key in front of the range, or the lower corner. -/
def StartsAt (k : IxKey index.ixCols) : Prop :=
  index.LowStored s conds ∧ k = index.lowKey conds ∨
    ¬index.LowStored s conds ∧
      (IsGreatest {k | s.Stored k ∧ index.Below conds k} k ∨
        (∀ k, s.Stored k → ¬index.Below conds k) ∧ k = index.lowKey conds)

/-- No stored key lies behind the range, and the key of the greatest values that stands for the end
of the leaves lies in front of its start. -/
def EndsBefore (key : IxKey index.ixCols) : Prop :=
  (∀ k, s.Stored k → index.Within conds k) ∧
    ∃ k, index.StartsAt s conds k ∧ endKey index.ixCols key < k

/-- No row that meets the conditions lies behind the upper corner, and none in the range has the value
of a strict lower bound. The greatest values that the corners are filled up with see to that, unless
a CHAR column holds a greater one. -/
def Padded (rows : Rid → Option TableRow) (given : List Condition) : Prop :=
  ∀ r row, rows r = some row →
    (row.Meets given → index.Within conds (index.rowKey row)) ∧
      (StrictLow conds → index.InRange conds (index.rowKey row) → row.Meets given)

/-- When a scan with conditions reads the rows that meet them. -/
structure RangeFits (rows : Rid → Option TableRow) (given : List Condition) : Prop where
  filled : s.isEmpty = false
  returns : (∀ k, s.Stored k → index.Below conds k) →
    ∀ key, index.lowKey conds ≤ endKey index.ixCols key
  crossed : (∃ k, index.Crossed s conds k) →
    (∀ r row, rows r = some row → ¬row.Meets given) ∧
      ((∃ k k', index.Crossed s conds k ∧ index.Crossed s conds k' ∧ k ≠ k') ∨
        index.LowStored s conds ∨
        (∀ k, s.Stored k → index.Below conds k) ∧
          (∀ key, endKey index.ixCols key = index.lowKey conds) ∧
          ∃ k, index.Crossed s conds k ∧ k ≠ index.lowKey conds)
  ordered : (¬∃ k, index.Crossed s conds k) →
    (∀ r row, rows r = some row → ¬row.Meets given) ∧
        ((∀ k, s.Stored k → ¬index.InRange conds k) ∨ ∀ key, index.EndsBefore s conds key) ∨
      index.Padded conds rows given ∧ ∀ key, ¬index.EndsBefore s conds key

end IndexMeta

section Conds

variable {index : IndexMeta} {given conds : List Condition}

namespace IndexMeta

/-- A slot of zeros is the key of a row of zeros and empty strings. -/
theorem isRowKey_zero : index.IsRowKey (IxKey.zero index.ixCols) := by
  have hcol : ∀ col : IxCol, ∃ v, col.Holds v ∧ v.raw col.len = List.replicate col.len 0 := by
    intro col
    cases col with
    | int => exact ⟨.int 0, show IsInt32 0 by decide, rfl⟩
    | char len =>
      refine ⟨.string [], ⟨Nat.zero_le _, List.not_mem_nil⟩, ?_⟩
      simp [Value.raw, IxCol.len]
  have hcols : ∀ cols : List IxCol, ∃ vals, List.Forall₂ IxCol.Holds cols vals ∧
      keyBytes cols vals = List.replicate (Grmdb.colTotLen cols) 0 := by
    intro cols
    induction cols with
    | nil => exact ⟨[], .nil, rfl⟩
    | cons col cols ih =>
      obtain ⟨v, hv, hraw⟩ := hcol col
      obtain ⟨vals, hvals, hbytes⟩ := ih
      refine ⟨v :: vals, .cons hv hvals, ?_⟩
      rw [keyBytes, hraw, hbytes, List.replicate_append_replicate]
      simp [Grmdb.colTotLen]
  obtain ⟨vals, hvals, hbytes⟩ := hcols index.ixCols
  refine ⟨vals, hvals, Subtype.ext ?_⟩
  rw [ofValues_val hvals, hbytes]
  rfl

theorem Indexes.ofRows {L : IxLayout (IxKey index.ixCols)} {s : IxFile (IxKey index.ixCols)}
    {rows : Rid → Option TableRow} (h : index.Indexes L s rows) : s.OfRows := by
  have hkeys := h.run.keysIn (h.zeroKey ▸ isRowKey_zero)
  intro p n hn e he
  exact (hkeys p n hn).entries e he

theorem ChosenFor.left (h : index.ChosenFor given conds) : conds ⊆ given ∧
    conds.length = given.length := by
  obtain ⟨cat, tabName, tab, names, -, -, hcols, -⟩ := h.chosen
  exact ⟨getIndexCols_subset hcols, getIndexCols_length hcols⟩

theorem ChosenFor.toChosen (h : index.ChosenFor given conds)
    (hnodup : (index.cols.map ColMeta.name).Nodup) : index.Chosen conds := by
  obtain ⟨cat, tabName, tab, names, hmade, htab, hcols, hindex⟩ := h.chosen
  exact ⟨⟨cat, tabName, tab, given, names, hmade, htab, hcols, hindex⟩, h.plain, hnodup,
    fun cond hcond => h.typed cond (h.left.1 hcond)⟩

/-- An index that names no column twice loses no condition. -/
theorem ChosenFor.perm (h : index.ChosenFor given conds)
    (hnodup : (index.cols.map ColMeta.name).Nodup) : conds.Perm given :=
  ((((h.toChosen hnodup).ranged.nodup hnodup).subperm h.left.1).perm_of_length_le h.left.2.ge)

end IndexMeta

end Conds

section Range

variable {index : IndexMeta} {given conds : List Condition} {row : TableRow}

theorem zip_rowVals :
    index.cols.zip (index.rowVals row) = index.cols.map fun col => (col, row col.name) := by
  have hzip := @List.zip_map' _ _ _ id (fun col : ColMeta => row col.name) index.cols
  rwa [List.map_id] at hzip

theorem rowMeets_iff (hranged : Ranged index.cols conds) (hperm : conds.Perm given) :
    row.Meets given ↔ Meets index.cols conds (index.rowVals row) := by
  constructor
  · intro h cond hcond p hp hname w hw
    rw [zip_rowVals] at hp
    obtain ⟨col, -, rfl⟩ := List.mem_map.mp hp
    have hholds := h cond (hperm.mem_iff.mp hcond) w hw
    rwa [← hname] at hholds
  · intro h cond hcond w hw
    have hmem := hperm.mem_iff.mpr hcond
    obtain ⟨col, hcol, hname⟩ := List.mem_map.mp (hranged.names cond hmem)
    rw [← hname]
    refine h cond hmem (col, row col.name) ?_ hname w hw
    rw [zip_rowVals]
    exact List.mem_map_of_mem hcol

/-- The range holds the rows that meet the conditions, but for what the greatest values let in or
leave out. -/
theorem padded_iff (hranged : Ranged index.cols conds)
    (hnodup : (index.cols.map ColMeta.name).Nodup) (hperm : conds.Perm given)
    {rows : Rid → Option TableRow}
    (hholds : ∀ r row, rows r = some row →
      List.Forall₂ IxCol.Holds index.ixCols (index.rowVals row)) :
    (∀ r row, rows r = some row →
      (row.Meets given ↔ index.InRange conds (index.rowKey row))) ↔
      index.Padded conds rows given := by
  refine forall_congr' fun r => forall_congr' fun row => forall_congr' fun hrow => ?_
  have hvals := hholds r row hrow
  have hmeets := @rowMeets_iff index given conds row hranged hperm
  constructor
  · exact fun h => ⟨fun hrow => (h.mp hrow).2, fun _ hin => h.mpr hin⟩
  · rintro ⟨hupper, hlower⟩
    refine ⟨fun hrow => ⟨fun hbelow => ?_, hupper hrow⟩, fun hin => ?_⟩
    · have hsat : index.Satisfies conds (index.rowKey row) := ⟨_, hvals, hmeets.mp hrow, rfl⟩
      unfold IndexMeta.Below at hbelow
      split at hbelow
      next hstrict => exact absurd hbelow (lowKey_lt hranged hstrict hsat).not_ge
      next => exact absurd hbelow (lowKey_le hranged hsat).not_gt
    · by_cases hstrict : IndexMeta.StrictLow conds
      · exact hlower hstrict hin
      · obtain ⟨hnot, hwithin⟩ := hin
        refine hmeets.mpr (hranged.meets hnodup hstrict hvals ?_ ?_)
        · have hle := le_of_not_below hnot
          unfold IndexMeta.lowKey at hle
          rwa [if_neg hstrict] at hle
        · unfold IndexMeta.Within IndexMeta.highKey at hwithin
          by_cases hhigh : IndexMeta.StrictHigh conds
          · rw [if_pos hhigh] at hwithin ⊢
            rwa [if_pos hhigh] at hwithin
          · rw [if_neg hhigh] at hwithin ⊢
            rwa [if_neg hhigh] at hwithin

end Range

/-- The places of the two ends of the range in the stored keys. -/
structure Cuts (index : IndexMeta) (conds : List Condition) (s : IxFile (IxKey index.ixCols))
    (front rest front' rest' : List (IxKey index.ixCols × Rid)) : Prop where
  split : front ++ rest = front' ++ rest'
  sorted : ((front ++ rest).map Prod.fst).Pairwise (· < ·)
  stores : ∀ k r, (k, r) ∈ front ++ rest ↔ Stores s.tree k r
  below : ∀ e ∈ front, index.Below conds e.1
  notBelow : ∀ e ∈ rest, ¬index.Below conds e.1
  within : ∀ e ∈ front', index.Within conds e.1
  notWithin : ∀ e ∈ rest', ¬index.Within conds e.1

namespace Cuts

variable {index : IndexMeta} {conds : List Condition} {s : IxFile (IxKey index.ixCols)}
  {front rest front' rest' mid : List (IxKey index.ixCols × Rid)} {e : IxKey index.ixCols × Rid}
  {k : IxKey index.ixCols}

/-- The places come in this order or in the other one. -/
theorem cases (c : Cuts index conds s front rest front' rest') :
    (∃ mid, front' = front ++ mid ∧ rest = mid ++ rest') ∨
      ∃ e mid, front = front' ++ e :: mid ∧ rest' = e :: mid ++ rest := by
  rcases List.append_eq_append_iff.mp c.split with ⟨mid, hfront, hrest⟩ | ⟨mid, hfront, hrest⟩
  · exact Or.inl ⟨mid, hfront, hrest⟩
  · cases mid with
    | nil => exact Or.inl ⟨[], by simpa using hfront.symm, by simpa using hrest.symm⟩
    | cons e mid => exact Or.inr ⟨e, mid, hfront, hrest⟩

theorem stored (c : Cuts index conds s front rest front' rest') (k : IxKey index.ixCols) :
    s.Stored k ↔ ∃ e ∈ front ++ rest, e.1 = k := by
  simp only [IxFile.Stored, ← c.stores]
  constructor
  · rintro ⟨r, hr⟩
    exact ⟨(k, r), hr, rfl⟩
  · rintro ⟨e, he, rfl⟩
    exact ⟨e.2, he⟩

theorem rest_sorted (c : Cuts index conds s front rest front' rest') :
    (rest.map Prod.fst).Pairwise (· < ·) := by
  have hsorted := c.sorted
  rw [List.map_append] at hsorted
  exact (List.pairwise_append.mp hsorted).2.1

theorem front_sorted (c : Cuts index conds s front rest front' rest') :
    (front.map Prod.fst).Pairwise (· < ·) := by
  have hsorted := c.sorted
  rw [List.map_append] at hsorted
  exact (List.pairwise_append.mp hsorted).1

theorem stored_below (c : Cuts index conds s front rest front' rest') :
    s.Stored k ∧ index.Below conds k ↔ ∃ e ∈ front, e.1 = k := by
  rw [c.stored]
  constructor
  · rintro ⟨⟨e, he, rfl⟩, hbelow⟩
    rcases List.mem_append.mp he with he | he
    · exact ⟨e, he, rfl⟩
    · exact absurd hbelow (c.notBelow e he)
  · rintro ⟨e, he, rfl⟩
    exact ⟨⟨e, List.mem_append_left _ he, rfl⟩, c.below e he⟩

theorem stored_notBelow (c : Cuts index conds s front rest front' rest') :
    s.Stored k ∧ ¬index.Below conds k ↔ ∃ e ∈ rest, e.1 = k := by
  rw [c.stored]
  constructor
  · rintro ⟨⟨e, he, rfl⟩, hbelow⟩
    rcases List.mem_append.mp he with he | he
    · exact absurd (c.below e he) hbelow
    · exact ⟨e, he, rfl⟩
  · rintro ⟨e, he, rfl⟩
    exact ⟨⟨e, List.mem_append_right _ he, rfl⟩, c.notBelow e he⟩

theorem all_below (c : Cuts index conds s front rest front' rest') :
    (∀ k, s.Stored k → index.Below conds k) ↔ rest = [] := by
  constructor
  · intro hall
    refine List.eq_nil_iff_forall_not_mem.mpr fun e he => ?_
    obtain ⟨hstored, hnot⟩ := c.stored_notBelow.mpr ⟨e, he, rfl⟩
    exact hnot (hall e.1 hstored)
  · rintro rfl k hk
    by_contra hnot
    obtain ⟨e, he, -⟩ := c.stored_notBelow.mp ⟨hk, hnot⟩
    cases he

theorem all_within (c : Cuts index conds s front rest front' rest') :
    (∀ k, s.Stored k → index.Within conds k) ↔ rest' = [] := by
  constructor
  · intro hall
    refine List.eq_nil_iff_forall_not_mem.mpr fun e he => c.notWithin e he (hall e.1 ?_)
    rw [c.stored, c.split]
    exact ⟨e, List.mem_append_right _ he, rfl⟩
  · rintro rfl k hk
    rw [c.stored, c.split, List.append_nil] at hk
    obtain ⟨e, he, rfl⟩ := hk
    exact c.within e he

/-- In the usual order no key is crossed, and the keys between the places are those in the range. -/
theorem ordered (c : Cuts index conds s front rest (front ++ mid) rest') :
    (¬∃ k, index.Crossed s conds k) ∧
      ∀ k, s.Stored k ∧ index.InRange conds k ↔ ∃ e ∈ mid, e.1 = k := by
  constructor
  · rintro ⟨k, hstored, hbelow, hnot⟩
    obtain ⟨e, he, rfl⟩ := c.stored_below.mp ⟨hstored, hbelow⟩
    exact hnot (c.within e (List.mem_append_left _ he))
  · intro k
    constructor
    · rintro ⟨hstored, hnot, hwithin⟩
      rw [c.stored, c.split, List.append_assoc] at hstored
      obtain ⟨e, he, rfl⟩ := hstored
      rcases List.mem_append.mp he with he | he
      · exact absurd (c.below e he) hnot
      · rcases List.mem_append.mp he with he | he
        · exact ⟨e, he, rfl⟩
        · exact absurd hwithin (c.notWithin e he)
    · rintro ⟨e, he, rfl⟩
      have hrest : rest = mid ++ rest' := by
        have hsplit := c.split
        rwa [List.append_assoc, List.append_cancel_left_eq] at hsplit
      obtain ⟨hstored, hnot⟩ :=
        c.stored_notBelow.mpr ⟨e, by rw [hrest]; exact List.mem_append_left _ he, rfl⟩
      exact ⟨hstored, hnot, c.within e (List.mem_append_right _ he)⟩

/-- In the other order the keys between the places are those crossed. -/
theorem crossed (c : Cuts index conds s (front' ++ e :: mid) rest front' rest') :
    index.Crossed s conds k ↔ ∃ x ∈ e :: mid, x.1 = k := by
  have hrest : rest' = e :: mid ++ rest := by
    have hsplit := c.split
    rw [List.append_assoc, List.append_cancel_left_eq] at hsplit
    exact hsplit.symm
  constructor
  · rintro ⟨hstored, hbelow, hnot⟩
    obtain ⟨x, hx, rfl⟩ := c.stored_below.mp ⟨hstored, hbelow⟩
    rcases List.mem_append.mp hx with hx | hx
    · exact absurd (c.within x hx) hnot
    · exact ⟨x, hx, rfl⟩
  · rintro ⟨x, hx, rfl⟩
    obtain ⟨hstored, hbelow⟩ := c.stored_below.mpr ⟨x, List.mem_append_right _ hx, rfl⟩
    refine ⟨hstored, hbelow, c.notWithin x ?_⟩
    rw [hrest]
    exact List.mem_append_left _ hx

theorem low_le (c : Cuts index conds s front rest front' rest') (he : e ∈ rest) :
    index.lowKey conds ≤ e.1 := le_of_not_below (c.notBelow e he)

variable {iids : Iid × Iid} {bufs : GapBuffers index.ixCols} {r : GapRange index.ixCols}

theorem lowStored_iff (c : Cuts index conds s front rest front' rest') :
    index.LowStored s conds ↔ ∃ e ∈ rest, e.1 = index.lowKey conds := c.stored_notBelow

theorem keyBefore_concat {κ : Type} (front : List (κ × Rid)) (e : κ × Rid) (first : κ) :
    keyBefore (front ++ [e]) first = e.1 := by
  simp [keyBefore]

/-- The gap of a scan whose start lies behind its end. -/
theorem ends_crossed (c : Cuts index conds s (front' ++ e :: mid) rest front' rest')
    (hr : gapAt (iids, index.lowKey conds) (front' ++ e :: mid) rest rest' bufs = some r) :
    r.2.2 < r.2.1 ↔
      (∃ k k', index.Crossed s conds k ∧ index.Crossed s conds k' ∧ k ≠ k') ∨
        index.LowStored s conds ∨
        (∀ k, s.Stored k → index.Below conds k) ∧
          endKey index.ixCols bufs.lowerBound = index.lowKey conds ∧
          ∃ k, index.Crossed s conds k ∧ k ≠ index.lowKey conds := by
  obtain ⟨hupper, hlow⟩ := gapAt_some hr
  dsimp only at hlow
  have hfirst : r.2.2 = e.1 := by
    have hsplit := c.split
    rw [List.append_assoc, List.append_cancel_left_eq] at hsplit
    rw [hupper, ← hsplit]
    rfl
  have hle : ∀ x ∈ e :: mid, x.1 ≤ index.lowKey conds :=
    fun x hx => Below.le (c.below x (List.mem_append_right _ hx))
  have hmid : ∀ x ∈ mid, e.1 < x.1 := by
    have hsorted := c.front_sorted
    rw [List.map_append, List.map_cons] at hsorted
    intro x hx
    exact (List.pairwise_cons.mp (List.pairwise_append.mp hsorted).2.1).1 x.1
      (List.mem_map_of_mem hx)
  have hcross : ∀ x ∈ e :: mid, index.Crossed s conds x.1 := fun x hx => c.crossed.mpr ⟨x, hx, rfl⟩
  rw [hfirst]
  constructor
  · intro hlt
    rcases hlow with ⟨-, hkey⟩ | ⟨hafter, hkey⟩
    · cases mid with
      | nil =>
        rw [hkey, keyBefore_concat] at hlt
        exact absurd hlt (lt_irrefl _)
      | cons x mid =>
        exact Or.inl ⟨e.1, x.1, hcross e (by simp), hcross x (by simp), (hmid x (by simp)).ne⟩
    · rw [hkey] at hlt
      cases rest with
      | nil => exact Or.inr (Or.inr ⟨c.all_below.mpr rfl, hafter.symm, e.1, hcross e (by simp), hlt.ne⟩)
      | cons x rest => exact Or.inr (Or.inl (c.lowStored_iff.mpr ⟨x, by simp, hafter.symm⟩))
  · rintro (⟨k, k', hk, hk', hne⟩ | hstored | ⟨hall, heq, k, hk, hne⟩)
    · rcases List.eq_nil_or_concat mid with rfl | ⟨mid, x, rfl⟩
      · obtain ⟨y, hy, rfl⟩ := c.crossed.mp hk
        obtain ⟨z, hz, rfl⟩ := c.crossed.mp hk'
        rw [List.mem_singleton.mp hy, List.mem_singleton.mp hz] at hne
        exact absurd rfl hne
      · rw [List.concat_eq_append] at hmid hle hlow
        have hlast := hmid x (by simp)
        rcases hlow with ⟨-, hkey⟩ | ⟨-, hkey⟩
        · have hconcat : front' ++ e :: (mid ++ [x]) = (front' ++ e :: mid) ++ [x] := by simp
          rw [hkey, hconcat, keyBefore_concat]
          exact hlast
        · rw [hkey]
          exact hlast.trans_le (hle x (by simp))
    · obtain ⟨x, hx, hxlow⟩ := c.lowStored_iff.mp hstored
      have hafter : ¬index.lowKey conds < keyAfter rest (endKey index.ixCols bufs.lowerBound) := by
        rcases keyAfter_cases c.rest_sorted (endKey index.ixCols bufs.lowerBound) with
          ⟨hnil, -⟩ | ⟨y, -, hy, hleast⟩
        · rw [hnil] at hx
          cases hx
        · rw [hy, not_lt, ← hxlow]
          exact hleast x hx
      obtain ⟨-, hkey⟩ := hlow.resolve_left fun h => hafter h.1
      rw [hkey]
      refine lt_of_le_of_ne (hle e (by simp)) fun heq => hstored.2 ?_
      rw [← heq]
      exact c.below e (by simp)
    · rw [c.all_below.mp hall] at hlow
      obtain ⟨-, hkey⟩ := hlow.resolve_left fun h => absurd h.1 (heq ▸ lt_irrefl _)
      obtain ⟨x, hx, rfl⟩ := c.crossed.mp hk
      have hlt := lt_of_le_of_ne (hle x hx) hne
      rw [hkey]
      rcases List.mem_cons.mp hx with rfl | hx
      · exact hlt
      · exact (hmid x hx).trans hlt

/-- Where a scan with a key in its range starts. -/
theorem startsAt (c : Cuts index conds s front (e :: rest) front' rest')
    (hr : gapAt (iids, index.lowKey conds) front (e :: rest) rest' bufs = some r) :
    index.StartsAt s conds k ↔ k = r.2.1 := by
  have hleast : ∀ x ∈ e :: rest, e.1 ≤ x.1 := by
    have hsorted := c.rest_sorted
    rw [List.map_cons, List.pairwise_cons] at hsorted
    intro x hx
    rcases List.mem_cons.mp hx with rfl | hx
    · exact le_refl _
    · exact (hsorted.1 x.1 (List.mem_map_of_mem hx)).le
  rcases (gapAt_some hr).2 with ⟨hlt, hkey⟩ | ⟨heq, hkey⟩
  · have hnot : ¬index.LowStored s conds := by
      intro hstored
      obtain ⟨x, hx, hxlow⟩ := c.lowStored_iff.mp hstored
      exact absurd hlt (hxlow ▸ hleast x hx).not_gt
    rw [hkey, IndexMeta.StartsAt]
    simp only [hnot, false_and, not_false_eq_true, true_and, false_or]
    rcases List.eq_nil_or_concat front with rfl | ⟨front, x, rfl⟩
    · have hnone : ∀ k, s.Stored k → ¬index.Below conds k := by
        intro k hk hbelow
        obtain ⟨x, hx, -⟩ := c.stored_below.mp ⟨hk, hbelow⟩
        cases hx
      constructor
      · rintro (⟨⟨hk, hbelow⟩, -⟩ | ⟨-, rfl⟩)
        · exact absurd hbelow (hnone k hk)
        · rfl
      · rintro rfl
        exact Or.inr ⟨hnone, rfl⟩
    · rw [List.concat_eq_append] at c hkey ⊢
      have hbefore := keyBefore_concat front x (index.lowKey conds)
      have hgreatest : IsGreatest {k | s.Stored k ∧ index.Below conds k} x.1 := by
        refine ⟨c.stored_below.mpr ⟨x, by simp, rfl⟩, fun k hk => ?_⟩
        obtain ⟨y, hy, rfl⟩ := c.stored_below.mp hk
        have hsorted := c.front_sorted
        rw [List.map_append] at hsorted
        rcases List.mem_append.mp hy with hy | hy
        · exact ((List.pairwise_append.mp hsorted).2.2 y.1 (List.mem_map_of_mem hy) x.1
            (by simp)).le
        · rw [List.mem_singleton.mp hy]
      rw [hbefore]
      constructor
      · rintro (hk | ⟨hnone, -⟩)
        · exact hk.unique hgreatest
        · exact absurd hgreatest.1.2 (hnone x.1 hgreatest.1.1)
      · rintro rfl
        exact Or.inl hgreatest
  · have hstored : index.LowStored s conds := c.lowStored_iff.mpr ⟨e, by simp, heq.symm⟩
    rw [hkey, IndexMeta.StartsAt]
    simp only [hstored, true_and, not_true_eq_false, false_and, or_false]

/-- The gap of a scan with a key in its range. -/
theorem ends_ordered (c : Cuts index conds s front rest (front ++ e :: mid) rest')
    (hr : gapAt (iids, index.lowKey conds) front rest rest' bufs = some r) :
    r.2.2 < r.2.1 ↔ index.EndsBefore s conds bufs.upperBound := by
  have hrest : rest = e :: (mid ++ rest') := by
    have hsplit := c.split
    rwa [List.append_assoc, List.append_cancel_left_eq] at hsplit
  subst hrest
  obtain ⟨hupper, hlow⟩ := gapAt_some hr
  have hle : r.2.1 ≤ index.lowKey conds := by
    rcases hlow with ⟨-, hkey⟩ | ⟨-, hkey⟩
    · rw [hkey]
      rcases keyBefore_cases front (index.lowKey conds) with ⟨-, hsame⟩ | ⟨x, hx, hsame⟩
      · exact hsame.le
      · rw [hsame]
        exact Below.le (c.below x hx)
    · exact hkey.le
  simp only [IndexMeta.EndsBefore, c.all_within, c.startsAt hr, exists_eq_left]
  rw [hupper]
  cases rest' with
  | nil => exact ⟨fun hlt => ⟨rfl, hlt⟩, And.right⟩
  | cons x rest' =>
    have hsorted := c.rest_sorted
    rw [List.map_cons, List.pairwise_cons] at hsorted
    have hlt : e.1 < x.1 := hsorted.1 x.1 (List.mem_map_of_mem (by simp))
    have hgt : r.2.1 < x.1 := (hle.trans (c.low_le (by simp))).trans_lt hlt
    exact iff_of_false hgt.not_gt fun h => List.cons_ne_nil _ _ h.1

theorem mem_mid (c : Cuts index conds s front rest (front ++ mid) rest') {rid : Rid} :
    (k, rid) ∈ mid ↔ Stores s.tree k rid ∧ index.InRange conds k := by
  have hrest : rest = mid ++ rest' := by
    have hsplit := c.split
    rwa [List.append_assoc, List.append_cancel_left_eq] at hsplit
  rw [← c.stores]
  constructor
  · intro hmem
    have hback : (k, rid) ∈ rest := by
      rw [hrest]
      exact List.mem_append_left _ hmem
    exact ⟨List.mem_append_right _ hback, c.notBelow _ hback,
      c.within _ (List.mem_append_right _ hmem)⟩
  · rintro ⟨hmem, hnot, hwithin⟩
    rcases List.mem_append.mp hmem with hfront | hback
    · exact absurd (c.below _ hfront) hnot
    · rw [hrest] at hback
      exact (List.mem_append.mp hback).resolve_right fun hmem => c.notWithin _ hmem hwithin

end Cuts

section Answers

variable {index : IndexMeta} {given conds : List Condition} {L : IxLayout (IxKey index.ixCols)}
  {s : IxFile (IxKey index.ixCols)} {rows : Rid → Option TableRow}
  {front rest front' rest' mid : List (IxKey index.ixCols × Rid)} {e : IxKey index.ixCols × Rid}

theorem answers_nil : Answers rows given [] ↔ ∀ r row, rows r = some row → ¬row.Meets given := by
  constructor
  · rintro ⟨-, hall⟩ r row hrow hmeets
    exact absurd ((hall r).mpr ⟨row, hrow, hmeets⟩) List.not_mem_nil
  · intro hnone
    refine ⟨List.nodup_nil, fun r => iff_of_false List.not_mem_nil ?_⟩
    rintro ⟨row, hrow, hmeets⟩
    exact hnone r row hrow hmeets

/-- Pairs of the index answer the conditions where they are those of the rows that meet them. -/
theorem answers_pairs (hindex : index.Indexes L s rows) {es : List (IxKey index.ixCols × Rid)}
    (hsorted : (es.map Prod.fst).Pairwise (· < ·)) {P : IxKey index.ixCols → Prop}
    (hes : ∀ k r, (k, r) ∈ es ↔ Stores s.tree k r ∧ P k) :
    Answers rows given (es.map Prod.snd) ↔
      ∀ r row, rows r = some row → (row.Meets given ↔ P (index.rowKey row)) := by
  have hmem : ∀ r, r ∈ es.map Prod.snd ↔ ∃ row, rows r = some row ∧ P (index.rowKey row) := by
    intro r
    constructor
    · intro hr
      obtain ⟨⟨k, r'⟩, hk, rfl⟩ := List.mem_map.mp hr
      obtain ⟨hstores, hin⟩ := (hes k r').mp hk
      obtain ⟨row, hrow, rfl⟩ := (hindex.stores k r').mp hstores
      exact ⟨row, hrow, hin⟩
    · rintro ⟨row, hrow, hin⟩
      exact List.mem_map.mpr ⟨(index.rowKey row, r),
        (hes _ r).mpr ⟨(hindex.stores _ r).mpr ⟨row, hrow, rfl⟩, hin⟩, rfl⟩
  constructor
  · rintro ⟨-, hall⟩ r row hrow
    have hboth := (hall r).symm.trans (hmem r)
    constructor
    · intro hmeets
      obtain ⟨row', hrow', hin⟩ := hboth.mp ⟨row, hrow, hmeets⟩
      cases hrow.symm.trans hrow'
      exact hin
    · intro hin
      obtain ⟨row', hrow', hmeets⟩ := hboth.mpr ⟨row, hrow, hin⟩
      cases hrow.symm.trans hrow'
      exact hmeets
  · intro hfit
    refine ⟨?_, fun r => (hmem r).trans (exists_congr fun row => and_congr_right fun hrow =>
      (hfit r row hrow).symm)⟩
    have hkeys : (es.map Prod.fst).Nodup := hsorted.imp fun h => h.ne
    -- a rid has one row, and a row has one key
    refine List.Nodup.map_on (fun x hx y hy hsame => ?_) (hkeys.of_map _)
    obtain ⟨row, hrow, hkey⟩ := (hindex.stores x.1 x.2).mp ((hes x.1 x.2).mp hx).1
    obtain ⟨row', hrow', hkey'⟩ := (hindex.stores y.1 y.2).mp ((hes y.1 y.2).mp hy).1
    rw [hsame] at hrow
    cases hrow.symm.trans hrow'
    exact Prod.ext (hkey.trans hkey'.symm) hsame

theorem answers_mid (c : Cuts index conds s front rest (front ++ mid) rest')
    (hindex : index.Indexes L s rows) :
    Answers rows given (mid.map Prod.snd) ↔ ∀ r row, rows r = some row →
      (row.Meets given ↔ index.InRange conds (index.rowKey row)) := by
  refine answers_pairs hindex ?_ fun k r => c.mem_mid
  have hsorted := c.sorted
  rw [c.split, List.append_assoc, List.map_append, List.map_append] at hsorted
  exact (List.pairwise_append.mp (List.pairwise_append.mp hsorted).2.1).1

end Answers

section Runs

variable {index : IndexMeta} {given conds : List Condition} {L : IxLayout (IxKey index.ixCols)}
  {s : IxFile (IxKey index.ixCols)} {rows : Rid → Option TableRow} {g : Labels PageNo (IxKey index.ixCols)}
  {ls : List PageNo} {front rest front' rest' mid : List (IxKey index.ixCols × Rid)}
  {e : IxKey index.ixCols × Rid} {lower upper : Iid} {bufs : GapBuffers index.ixCols}
  {range : GapRange index.ixCols}

theorem cuts_of_names (h : BTree s g ls) (hlower : s.Names ls front rest lower)
    (hupper : s.Names ls front' rest' upper)
    (hcut : (∀ e ∈ front, index.Below conds e.1) ∧ ∀ e ∈ rest, ¬index.Below conds e.1)
    (hcut' : (∀ e ∈ front', index.Within conds e.1) ∧ ∀ e ∈ rest', ¬index.Within conds e.1) :
    Cuts index conds s front rest front' rest' where
  split := hlower.pairs_eq.symm.trans hupper.pairs_eq
  sorted := by
    rw [← hlower.pairs_eq]
    exact h.pairs_sorted
  stores := fun k r => by rw [← hlower.pairs_eq, h.mem_pairs]
  below := hcut.1
  notBelow := hcut.2
  within := hcut'.1
  notWithin := hcut'.2

/-- A scan between places in the other order reads nothing or fails. -/
theorem scan_crossed (h : BTree s g ls) (hlower : s.Names ls (front' ++ e :: mid) rest lower)
    (hupper : s.Names ls front' rest' upper)
    (hgap : IndexScanExecutor.gap L s conds bufs = some range) (hrange : range.1 = (lower, upper))
    (rid : Rid) :
    (∃ rounds rids, (∀ fuel, rounds ≤ fuel →
        IndexScanExecutor.enumerate L s conds bufs rid fuel = some rids) ∧
          Answers rows given rids) ↔
      range.2.2 < range.2.1 ∧ ∀ r row, rows r = some row → ¬row.Meets given := by
  rw [← answers_nil]
  have hrun := fun fuel => IndexScanExecutor.enumerate_eq hgap rid fuel
  constructor
  · rintro ⟨rounds, rids, hreads, hanswers⟩
    have hread := (hrun rounds).symm.trans (hreads rounds (le_refl _))
    by_cases hflag : range.2.2 < range.2.1
    · rw [if_pos hflag] at hread
      cases hread
      exact ⟨hflag, hanswers⟩
    · rw [if_neg hflag, hrange, rids_beyond h L hlower hupper rfl rounds] at hread
      cases hread
  · rintro ⟨hflag, hanswers⟩
    exact ⟨0, [], fun fuel _ => by rw [hrun, if_pos hflag], hanswers⟩

theorem scan_ordered (h : BTree s g ls) (hlower : s.Names ls front (mid ++ rest') lower)
    (hupper : s.Names ls (front ++ mid) rest' upper)
    (hgap : IndexScanExecutor.gap L s conds bufs = some range) (hrange : range.1 = (lower, upper))
    (rid : Rid) :
    (∃ rounds rids, (∀ fuel, rounds ≤ fuel →
        IndexScanExecutor.enumerate L s conds bufs rid fuel = some rids) ∧
          Answers rows given rids) ↔
      if range.2.2 < range.2.1 then ∀ r row, rows r = some row → ¬row.Meets given
      else Answers rows given (mid.map Prod.snd) := by
  rw [← answers_nil]
  have hrun := fun fuel => IndexScanExecutor.enumerate_eq hgap rid fuel
  have hbetween : ∀ fuel, mid.length ≤ fuel →
      IxScan.rids L s fuel ⟨range.1.1, range.1.2⟩ = some (mid.map Prod.snd) := by
    intro fuel hfuel
    rw [hrange]
    exact h.rids_between L hlower hupper hfuel
  by_cases hflag : range.2.2 < range.2.1
  · simp only [if_pos hflag] at hrun ⊢
    constructor
    · rintro ⟨rounds, rids, hreads, hanswers⟩
      cases (hrun rounds).symm.trans (hreads rounds (le_refl _))
      exact hanswers
    · intro hanswers
      exact ⟨0, [], fun fuel _ => hrun fuel, hanswers⟩
  · simp only [if_neg hflag] at hrun ⊢
    constructor
    · rintro ⟨rounds, rids, hreads, hanswers⟩
      have hread := (hrun (rounds + mid.length)).symm.trans (hreads _ (Nat.le_add_right _ _))
      rw [hbetween _ (Nat.le_add_left _ _)] at hread
      cases hread
      exact hanswers
    · intro hanswers
      exact ⟨mid.length, _, fun fuel hfuel => by rw [hrun, hbetween fuel hfuel], hanswers⟩

theorem gapAt_places {place : (Iid × Iid) × IxKey index.ixCols}
    (h : gapAt place front rest rest' bufs = some range) : range.1 = place.1 := by
  obtain ⟨key, -, rfl⟩ := Option.map_eq_some_iff.mp h
  rfl

section Range

variable (h : BTree s g ls) (hindex : index.Indexes L s rows)
  (hlower : s.Names ls front rest lower) (hupper : s.Names ls front' rest' upper)
  (c : Cuts index conds s front rest front' rest')
  (hgap : ∀ bufs, IndexScanExecutor.gap L s conds bufs =
    gapAt ((lower, upper), index.lowKey conds) front rest rest' bufs)
  (hpadded : (∀ r row, rows r = some row →
    (row.Meets given ↔ index.InRange conds (index.rowKey row))) ↔ index.Padded conds rows given)

include hgap in
/-- Every run of a scan gets its gap. -/
theorem gap_of_scans (hscan : index.ScansExactly L s rows given conds)
    (bufs : GapBuffers index.ixCols) :
    ∃ range, gapAt ((lower, upper), index.lowKey conds) front rest rest' bufs = some range := by
  obtain ⟨rounds, rids, hreads, -⟩ := hscan bufs ⟨0, 0⟩
  obtain ⟨e, he, -⟩ := Option.bind_eq_some_iff.mp (hreads rounds (le_refl _))
  obtain ⟨range, hrange, -⟩ := Option.bind_eq_some_iff.mp he
  exact ⟨range, (hgap bufs).symm.trans hrange⟩

include h hlower hupper c hgap in
theorem crossed_of_scans (hscan : index.ScansExactly L s rows given conds)
    (hcrossed : ∃ k, index.Crossed s conds k) :
    (∀ r row, rows r = some row → ¬row.Meets given) ∧
      ((∃ k k', index.Crossed s conds k ∧ index.Crossed s conds k' ∧ k ≠ k') ∨
        index.LowStored s conds ∨
        (∀ k, s.Stored k → index.Below conds k) ∧
          (∀ key, endKey index.ixCols key = index.lowKey conds) ∧
          ∃ k, index.Crossed s conds k ∧ k ≠ index.lowKey conds) := by
  obtain ⟨k, hk⟩ := hcrossed
  rcases c.cases with ⟨mid, rfl, -⟩ | ⟨e, mid, rfl, -⟩
  · exact absurd ⟨k, hk⟩ c.ordered.1
  have heach : ∀ key, (∀ r row, rows r = some row → ¬row.Meets given) ∧
      ((∃ k k', index.Crossed s conds k ∧ index.Crossed s conds k' ∧ k ≠ k') ∨
        index.LowStored s conds ∨
        (∀ k, s.Stored k → index.Below conds k) ∧
          endKey index.ixCols key = index.lowKey conds ∧
          ∃ k, index.Crossed s conds k ∧ k ≠ index.lowKey conds) := by
    intro key
    obtain ⟨range, hplaces⟩ := gap_of_scans hgap hscan ⟨key, key, key, key⟩
    obtain ⟨hflag, hnone⟩ := (scan_crossed h hlower hupper ((hgap _).trans hplaces)
      (gapAt_places hplaces) ⟨0, 0⟩).mp (hscan _ _)
    exact ⟨hnone, (c.ends_crossed hplaces).mp hflag⟩
  refine ⟨(heach k).1, ?_⟩
  by_cases htwo : ∃ k k', index.Crossed s conds k ∧ index.Crossed s conds k' ∧ k ≠ k'
  · exact Or.inl htwo
  by_cases hstored : index.LowStored s conds
  · exact Or.inr (Or.inl hstored)
  have hlast := fun key => ((heach key).2.resolve_left htwo).resolve_left hstored
  exact Or.inr (Or.inr ⟨(hlast k).1, fun key => (hlast key).2.1, (hlast k).2.2⟩)

include h hindex hlower hupper c hgap hpadded in
theorem ordered_of_scans (hscan : index.ScansExactly L s rows given conds)
    (hordered : ¬∃ k, index.Crossed s conds k) :
    (∀ r row, rows r = some row → ¬row.Meets given) ∧
        ((∀ k, s.Stored k → ¬index.InRange conds k) ∨ ∀ key, index.EndsBefore s conds key) ∨
      index.Padded conds rows given ∧ ∀ key, ¬index.EndsBefore s conds key := by
  rcases c.cases with ⟨mid, rfl, rfl⟩ | ⟨e, mid, rfl, -⟩
  swap
  · exact absurd ⟨e.1, c.crossed.mpr ⟨e, by simp, rfl⟩⟩ hordered
  have heach : ∀ key, ∃ range, gapAt ((lower, upper), index.lowKey conds) front (mid ++ rest') rest'
        ⟨key, key, key, key⟩ = some range ∧
      if range.2.2 < range.2.1 then ∀ r row, rows r = some row → ¬row.Meets given
      else Answers rows given (mid.map Prod.snd) := by
    intro key
    obtain ⟨range, hplaces⟩ := gap_of_scans hgap hscan ⟨key, key, key, key⟩
    exact ⟨range, hplaces, (scan_ordered h hlower hupper ((hgap _).trans hplaces)
      (gapAt_places hplaces) ⟨0, 0⟩).mp (hscan _ _)⟩
  cases mid with
  | nil =>
    obtain ⟨range, -, hread⟩ := heach (index.lowKey conds)
    refine Or.inl ⟨?_, Or.inl fun k hk hin => ?_⟩
    · split at hread
      next => exact hread
      next => exact answers_nil.mp hread
    · obtain ⟨e, he, -⟩ := (c.ordered.2 k).mp ⟨hk, hin⟩
      cases he
  | cons e mid =>
    by_cases hall : ∀ key, index.EndsBefore s conds key
    · obtain ⟨range, hplaces, hread⟩ := heach (index.lowKey conds)
      rw [if_pos ((c.ends_ordered hplaces).mpr (hall _))] at hread
      exact Or.inl ⟨hread, Or.inr hall⟩
    · obtain ⟨key, hkey⟩ := not_forall.mp hall
      obtain ⟨range, hplaces, hread⟩ := heach key
      rw [if_neg fun hflag => hkey ((c.ends_ordered hplaces).mp hflag)] at hread
      refine Or.inr ⟨hpadded.mp ((answers_mid c hindex).mp hread), fun key' hends => ?_⟩
      -- with other buffers the scan would leave out the row of `e`
      obtain ⟨range', hplaces', hread'⟩ := heach key'
      rw [if_pos ((c.ends_ordered hplaces').mpr hends)] at hread'
      obtain ⟨row, hrow, hmeets⟩ := (hread.2 e.2).mp (by simp)
      exact hread' e.2 row hrow hmeets

include h hindex hlower hupper c hgap hpadded in
theorem scans_of_fits (hfits : index.RangeFits s conds rows given) :
    index.ScansExactly L s rows given conds := by
  intro bufs rid
  have hle : index.lowKey conds ≤ keyAfter rest (endKey index.ixCols bufs.lowerBound) := by
    cases rest with
    | nil => exact hfits.returns (c.all_below.mpr rfl) _
    | cons e rest => exact c.low_le (by simp)
  obtain ⟨range, hplaces⟩ := @gapAt_returns index ((lower, upper), index.lowKey conds) front rest
    rest' bufs hle
  have hrange := (hgap bufs).trans hplaces
  rcases c.cases with ⟨mid, rfl, rfl⟩ | ⟨e, mid, rfl, -⟩
  · refine (scan_ordered h hlower hupper hrange (gapAt_places hplaces) rid).mpr ?_
    have hordered := hfits.ordered c.ordered.1
    cases mid with
    | nil =>
      have hnone : ∀ r row, rows r = some row → ¬row.Meets given := by
        rcases hordered with ⟨hnone, -⟩ | ⟨hpad, -⟩
        · exact hnone
        · exact answers_nil.mp ((answers_mid c hindex).mpr (hpadded.mpr hpad))
      split
      next => exact hnone
      next => exact answers_nil.mpr hnone
    | cons e mid =>
      have hends := c.ends_ordered hplaces
      rcases hordered with ⟨hnone, hwhy⟩ | ⟨hpad, hnot⟩
      · have hflag : range.2.2 < range.2.1 := by
          refine hends.mpr (hwhy.resolve_left (fun hempty => ?_) _)
          obtain ⟨hstored, hin⟩ := (c.ordered.2 e.1).mpr ⟨e, by simp, rfl⟩
          exact hempty e.1 hstored hin
        rw [if_pos hflag]
        exact hnone
      · rw [if_neg fun hflag => hnot _ (hends.mp hflag)]
        exact (answers_mid c hindex).mpr (hpadded.mpr hpad)
  · refine (scan_crossed h hlower hupper hrange (gapAt_places hplaces) rid).mpr ?_
    obtain ⟨hnone, hwhy⟩ := hfits.crossed ⟨e.1, c.crossed.mpr ⟨e, by simp, rfl⟩⟩
    refine ⟨(c.ends_crossed hplaces).mpr ?_, hnone⟩
    rcases hwhy with htwo | hstored | ⟨hall, heq, hother⟩
    · exact Or.inl htwo
    · exact Or.inr (Or.inl hstored)
    · exact Or.inr (Or.inr ⟨hall, heq _, hother⟩)

end Range

/-- A scan with conditions of an index with entries. -/
theorem scansExactly_range (h : BTree s g ls) (hindex : index.Indexes L s rows)
    (hfilled : s.isEmpty = false) (hranged : Ranged index.cols conds)
    (hnodup : (index.cols.map ColMeta.name).Nodup) (hperm : conds.Perm given) (hne : conds ≠ []) :
    index.ScansExactly L s rows given conds ↔ index.RangeFits s conds rows given := by
  obtain ⟨lower, upper, front, rest, front', rest', hlower, hupper, hcut, hcut', hboth⟩ :=
    gap_eq h L hindex.ofRows hranged hnodup hne
  have c := cuts_of_names h hlower hupper hcut hcut'
  have hpadded := padded_iff hranged hnodup hperm hindex.holds
  have hgap := fun bufs => (hboth bufs).1
  refine ⟨fun hscan => ⟨hfilled, fun hall key => ?_, ?_, ?_⟩, ?_⟩
  · obtain ⟨range, hrange⟩ := gap_of_scans hgap hscan ⟨key, key, key, key⟩
    rw [c.all_below.mp hall] at hrange
    rcases (gapAt_some hrange).2 with ⟨hlt, -⟩ | ⟨heq, -⟩
    · exact le_of_lt hlt
    · exact le_of_eq heq
  · exact crossed_of_scans h hlower hupper c hgap hscan
  · exact ordered_of_scans h hindex hlower hupper c hgap hpadded hscan
  · exact scans_of_fits h hindex hlower hupper c hgap hpadded

end Runs

end Grmdb
