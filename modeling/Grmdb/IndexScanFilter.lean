import Grmdb.IndexScanExact

namespace Grmdb

open PagedTree Tiling BTree

section Empty

variable {index : IndexMeta} {conds : List Condition} {L : IxLayout (IxKey index.ixCols)}
  {s : IxFile (IxKey index.ixCols)}

namespace Emptied

theorem findLeafValues (h : Emptied L s) (vals : List Value) : s.findLeafValues L vals = none := by
  rw [IxFile.findLeafValues]
  cases s.nextPageNo.toNat with
  | zero => rfl
  | succ fuel => simp [IxFile.findLeafLoopValues, h.pages]

/-- Without a root the searches for the corners fail. -/
theorem gap_range (h : Emptied L s) (hne : conds ≠ []) (bufs : GapBuffers index.ixCols) :
    IndexScanExecutor.gap L s conds bufs = none := by
  have hlower : ∀ vals, s.lowerBoundValues L vals = none :=
    fun vals => by rw [IxFile.lowerBoundValues, h.findLeafValues, Option.bind_none]
  have hupper : ∀ vals, s.upperBoundValues L vals = none :=
    fun vals => by rw [IxFile.upperBoundValues, h.findLeafValues, Option.bind_none]
  have hbound : IndexScanExecutor.getBound L s conds bufs.lowerKey bufs.upperKey = none := by
    unfold IndexScanExecutor.getBound getBoundWith
    rw [if_neg hne]
    simp only [hlower, hupper, ite_self, Option.bind_none]
  rw [IndexScanExecutor.gap, hbound, Option.bind_none]

theorem leafEnd (h : Emptied L s) (hends : s.EndsMeet) : s.leafEnd = some s.leafBegin := by
  unfold IxFile.leafEnd IxFile.leafBegin
  rw [hends h.rootPage, h.pages]
  split
  next hlast => rw [hlast]
  next => rfl

/-- Without conditions nothing is searched. -/
theorem gap_nil (h : Emptied L s) (hends : s.EndsMeet) (bufs : GapBuffers index.ixCols) :
    IndexScanExecutor.gap L s [] bufs = some ((s.leafBegin, s.leafBegin),
      IxKey.ofValues index.ixCols (index.ixCols.map IxCol.generateMin),
      endKey index.ixCols bufs.upperBound) := by
  have hkey : ∀ key, s.getKey L s.leafBegin key = some (endKey index.ixCols key) :=
    fun key => if_pos (h.leafEnd hends)
  have hbound : IndexScanExecutor.getBound L s [] bufs.lowerKey bufs.upperKey =
      some ((s.leafBegin, s.leafBegin),
        IxKey.ofValues index.ixCols (index.ixCols.map IxCol.generateMin),
        copyValues (· + ·) 0 index.ixCols (index.ixCols.map IxCol.generateMax) bufs.upperKey) := by
    unfold IndexScanExecutor.getBound getBoundWith
    rw [if_pos rfl, h.leafEnd hends, Option.map_some,
      copyValues_add (holds_map IxCol.holds_generateMin _)]
  rw [IndexScanExecutor.gap, hbound, Option.bind_some]
  unfold IndexScanExecutor.getGapLockKey getGapLockKeyWith
  dsimp only
  rw [hkey, hkey, Option.bind_some, Option.bind_some]
  rcases lt_or_eq_of_le (minKey_le (endKey index.ixCols bufs.lowerBound)) with hlt | heq
  · rw [if_pos hlt, IxFile.minusOne, if_pos rfl]
    rfl
  · rw [if_neg heq.not_lt, if_pos heq, ← heq]
    rfl

end Emptied

end Empty

section Whole

variable {index : IndexMeta} {given conds : List Condition} {L : IxLayout (IxKey index.ixCols)}
  {s : IxFile (IxKey index.ixCols)} {rows : Rid → Option TableRow}
  {g : Labels PageNo (IxKey index.ixCols)} {ls : List PageNo}

theorem names_leafBegin (h : BTree s g ls) : s.Names ls [] (s.pairs ls) s.leafBegin := by
  obtain ⟨front, rest, hnames, hnone, -⟩ := h.leafBegin
  have hfront : front = [] := List.eq_nil_iff_forall_not_mem.mpr fun e he => hnone e he
  subst hfront
  have hpairs : s.pairs ls = rest := hnames.pairs_eq
  exact hpairs ▸ hnames

/-- Without conditions the scan reads every row, of an empty table as well. -/
theorem scansExactly_nil (hindex : index.Indexes L s rows) :
    index.ScansExactly L s rows [] [] := by
  intro bufs rid
  have hall : ∀ row : TableRow, row.Meets [] := fun row cond hcond => absurd hcond List.not_mem_nil
  rcases hindex.run.indexRun.isIndex with h | ⟨g, ls, h⟩
  · have hgap := h.gap_nil hindex.run.indexRun.endsMeet bufs
    refine ⟨0, [], fun fuel _ => ?_, answers_nil.mpr fun r row hrow => ?_⟩
    · rw [IndexScanExecutor.enumerate_eq hgap, if_neg (minKey_le _).not_gt]
      cases fuel with
      | zero => simp [IxScan.rids, IxScan.isEnd]
      | succ fuel => simp [IxScan.rids, IxScan.isEnd]
    · exact absurd ((hindex.stores _ r).mpr ⟨row, hrow, rfl⟩) h.stores
  · have ht := h.bTree
    obtain ⟨last, hlast, hboth⟩ := gap_nil ht L
    have hgap := (hboth bufs).1
    rw [copyValues_add (holds_map IxCol.holds_generateMin _)] at hgap
    obtain ⟨range, hplaces⟩ := @gapAt_returns index ((s.leafBegin, last),
      IxKey.ofValues index.ixCols (index.ixCols.map IxCol.generateMin)) [] (s.pairs ls) [] bufs
      (minKey_le _)
    have hlow : range.2.1 = IxKey.ofValues index.ixCols (index.ixCols.map IxCol.generateMin) := by
      rcases (gapAt_some hplaces).2 with ⟨-, hkey⟩ | ⟨-, hkey⟩
      · exact hkey
      · exact hkey
    have hlower : s.Names ls [] (s.pairs ls ++ []) s.leafBegin := by
      rw [List.append_nil]
      exact names_leafBegin ht
    refine (scan_ordered ht hlower hlast (hgap.trans hplaces) (gapAt_places hplaces) rid).mpr ?_
    rw [if_neg (hlow ▸ (minKey_le _).not_gt)]
    refine (answers_pairs hindex ht.pairs_sorted (P := fun _ => True) fun k r => ?_).mpr
      fun r row _ => iff_of_true (hall row) trivial
    rw [ht.mem_pairs, and_true]

end Whole

/-- An index scan reads the rows that meet the conditions, each once, if there are no conditions or
the index names no column twice and the corners fit the stored keys; on indexes that name no column
twice only then. -/
theorem indexScan_exact (index : IndexMeta) (given conds : List Condition)
    (hchosen : index.ChosenFor given conds) (L : IxLayout (IxKey index.ixCols))
    (s : IxFile (IxKey index.ixCols)) (rows : Rid → Option TableRow)
    (hindex : index.Indexes L s rows) :
    (conds = [] ∨ (index.cols.map ColMeta.name).Nodup ∧ index.RangeFits s conds rows given →
        index.ScansExactly L s rows given conds) ∧
      ((index.cols.map ColMeta.name).Nodup → index.ScansExactly L s rows given conds →
        conds = [] ∨ index.RangeFits s conds rows given) := by
  by_cases hne : conds = []
  · subst hne
    have hgiven : given = [] := List.length_eq_zero_iff.mp hchosen.left.2.symm
    subst hgiven
    exact ⟨fun _ => scansExactly_nil hindex, fun _ _ => Or.inl rfl⟩
  have hiff : (index.cols.map ColMeta.name).Nodup →
      (index.ScansExactly L s rows given conds ↔ index.RangeFits s conds rows given) := by
    intro hnodup
    rcases hindex.run.indexRun.isIndex with h | ⟨g, ls, h⟩
    · refine iff_of_false (fun hscan => ?_) fun hfits => ?_
      · let key := index.lowKey conds
        obtain ⟨rounds, rids, hreads, -⟩ := hscan ⟨key, key, key, key⟩ ⟨0, 0⟩
        have hread := hreads rounds (le_refl _)
        rw [IndexScanExecutor.enumerate, IndexScanExecutor.beginTuple, h.gap_range hne] at hread
        cases hread
      · have hfilled := hfits.filled
        rw [IxFile.isEmpty, h.rootPage] at hfilled
        cases hfilled
    · exact scansExactly_range h.bTree hindex (Bool.not_eq_true _ ▸ h.not_empty)
        (hchosen.toChosen hnodup).ranged hnodup (hchosen.perm hnodup) hne
  constructor
  · rintro (heq | ⟨hnodup, hfits⟩)
    · exact absurd heq hne
    · exact (hiff hnodup).mpr hfits
  · exact fun hnodup hscan => Or.inr ((hiff hnodup).mp hscan)

theorem chosenFor_onA (cond : Condition) (i : Int) (hval : cond.rhsVal = some (.int i))
    (hi : IsInt32 i) (hcols : getIndexCols (indexedTable ["a"]).tabs "t" [cond] =
      some ([cond], some ["a"])) : indexOnA.ChosenFor [cond] [cond] := by
  refine ⟨⟨_, "t", _, ["a"], indexedTable_made ["a"], rfl, hcols, rfl⟩, ?_, ?_⟩
  · intro col hcol
    rw [List.mem_singleton.mp hcol]
    exact Or.inl ⟨rfl, rfl⟩
  · intro c hc col hcol _
    rw [List.mem_singleton.mp hc, List.mem_singleton.mp hcol]
    exact ⟨.int i, hval, hi⟩

theorem KeyRun.insertAll {κ : Type} [LinearOrder κ] {K : κ → Prop} {L : IxLayout κ} {s s' : IxFile κ}
    {es : List (κ × Rid)} (h : KeyRun K L s) (hkeys : ∀ e ∈ es, K e.1)
    (hrun : s.insertAll L es = some s') : KeyRun K L s' := by
  induction es generalizing s with
  | nil =>
    cases hrun
    exact h
  | cons e es ih =>
    simp only [IxFile.insertAll] at hrun
    split at hrun
    next s₁ hone =>
      exact ih (h.insert (hkeys e List.mem_cons_self) hone)
        (fun x hx => hkeys x (List.mem_cons_of_mem e hx)) hrun
    · cases hrun

/-- The values of `a` in a table of five rows, with the rids of the rows. -/
def fiveRows : List (Int × Rid) :=
  [(7, ⟨1, 0⟩), (1, ⟨1, 1⟩), (5, ⟨1, 2⟩), (9, ⟨1, 3⟩), (3, ⟨1, 4⟩)]

def fiveEntries : List (IxKey indexOnA.ixCols × Rid) :=
  fiveRows.map fun e => (IxKey.ofValues indexOnA.ixCols [.int e.1], e.2)

def fiveTable (r : Rid) : Option TableRow :=
  (fiveRows.find? fun e => e.2 = r).map fun e _ => .int e.1

theorem fiveTable_eq {r : Rid} {row : TableRow} :
    fiveTable r = some row ↔ ∃ i, (i, r) ∈ fiveRows ∧ row = fun _ => .int i := by
  constructor
  · intro h
    obtain ⟨e, he, rfl⟩ := Option.map_eq_some_iff.mp h
    have hr : e.2 = r := by simpa using List.find?_some he
    exact ⟨e.1, hr ▸ List.mem_of_find?_eq_some he, rfl⟩
  · rintro ⟨i, hmem, rfl⟩
    simp only [fiveRows, List.mem_cons, Prod.mk.injEq, List.not_mem_nil, or_false] at hmem
    rcases hmem with ⟨rfl, rfl⟩ | ⟨rfl, rfl⟩ | ⟨rfl, rfl⟩ | ⟨rfl, rfl⟩ | ⟨rfl, rfl⟩ <;> rfl

/-- `a >= 4` on a table of five rows, two of which lie in front of the range. -/
theorem indexScan_exact_five :
    ∃ s, IxFile.insertAll (IxLayout.ofCols indexOnA.ixCols (by decide)) (IxFile.create _)
        fiveEntries = some s ∧
      indexOnA.Indexes (IxLayout.ofCols indexOnA.ixCols (by decide)) s fiveTable ∧
      indexOnA.RangeFits s [onA .ge 4] fiveTable [onA .ge 4] ∧
      indexOnA.ScansExactly (IxLayout.ofCols indexOnA.ixCols (by decide)) s fiveTable [onA .ge 4]
        [onA .ge 4] := by
  have hchosen := chosenFor_onA (onA .ge 4) 4 rfl (by decide) (by decide +kernel)
  have hempty := IxFile.create_emptied (IxLayout.ofCols indexOnA.ixCols (by decide))
  have hint : ∀ e ∈ fiveRows, IsInt32 e.1 := by decide
  have hholds : ∀ {i r}, (i, r) ∈ fiveRows → List.Forall₂ IxCol.Holds indexOnA.ixCols [.int i] :=
    fun hmem => .cons (hint _ hmem) .nil
  obtain ⟨s, hs⟩ := Option.isSome_iff_exists.mp (show (IxFile.insertAll
    (IxLayout.ofCols indexOnA.ixCols (by decide)) (IxFile.create _) fiveEntries).isSome from by
      decide +kernel)
  obtain ⟨hisIndex, hstores⟩ := IsIndex.insertAll (.inl hempty) hs
  have hmem : ∀ {k r}, Stores s.tree k r ↔
      ∃ i, (i, r) ∈ fiveRows ∧ k = IxKey.ofValues indexOnA.ixCols [.int i] := by
    intro k r
    rw [hstores, or_iff_right hempty.stores]
    constructor
    · intro h
      obtain ⟨e, he, heq⟩ := List.mem_map.mp h
      cases heq
      exact ⟨e.1, he, rfl⟩
    · rintro ⟨i, hi, rfl⟩
      exact List.mem_map.mpr ⟨_, hi, rfl⟩
  have hindex : indexOnA.Indexes (IxLayout.ofCols indexOnA.ixCols (by decide)) s fiveTable := by
    refine ⟨rfl, .insertAll .create (fun e he => ?_) hs, fun r row hrow => ?_, fun k r => ?_⟩
    · obtain ⟨x, hx, rfl⟩ := List.mem_map.mp he
      exact ⟨_, hholds hx, rfl⟩
    · obtain ⟨i, hi, rfl⟩ := fiveTable_eq.mp hrow
      exact hholds hi
    · rw [hmem]
      constructor
      · rintro ⟨i, hi, rfl⟩
        exact ⟨_, fiveTable_eq.mpr ⟨i, hi, rfl⟩, rfl⟩
      · rintro ⟨row, hrow, rfl⟩
        obtain ⟨i, hi, rfl⟩ := fiveTable_eq.mp hrow
        exact ⟨i, hi, rfl⟩
  -- All keys lie in front of the upper corner, and with the lower one of the end of the leaves.
  have hkeys : ∀ e ∈ fiveRows,
      IxKey.ofValues indexOnA.ixCols [.int e.1] < indexOnA.highKey [onA .ge 4] ∧
        IxKey.ofValues indexOnA.ixCols [.int e.1] <
          IxKey.ofValues indexOnA.ixCols [.int (2 ^ 31 - 1)] := by decide +kernel
  have hlow : indexOnA.lowKey [onA .ge 4] < IxKey.ofValues indexOnA.ixCols [.int (2 ^ 31 - 1)] := by
    decide +kernel
  have hend : ∀ key, endKey indexOnA.ixCols key =
      IxKey.ofValues indexOnA.ixCols [.int (2 ^ 31 - 1)] := fun key =>
    copyValues_add (holds_map IxCol.holds_generateMax [.int]) key
  have hwithin : ∀ k, s.Stored k → indexOnA.Within [onA .ge 4] k := by
    rintro k ⟨r, hr⟩
    obtain ⟨i, hi, rfl⟩ := hmem.mp hr
    unfold IndexMeta.Within
    rw [if_neg (by decide)]
    exact (hkeys _ hi).1.le
  have hbefore : ∀ key, ¬indexOnA.EndsBefore s [onA .ge 4] key := by
    rintro key ⟨-, k, hk, hlt⟩
    rw [hend] at hlt
    rcases hk with ⟨-, rfl⟩ | ⟨-, hgreatest | ⟨-, rfl⟩⟩
    · exact absurd hlt hlow.not_gt
    · obtain ⟨⟨r, hr⟩, -⟩ := hgreatest.1
      obtain ⟨i, hi, rfl⟩ := hmem.mp hr
      exact absurd hlt (hkeys _ hi).2.not_gt
    · exact absurd hlt hlow.not_gt
  have hfilled : s.isEmpty = false := by
    rcases hisIndex with h | ⟨g, ls, h⟩
    · have hfirst : ((7 : Int), (⟨1, 0⟩ : Rid)) ∈ fiveRows := by decide
      exact absurd (hmem.mpr ⟨7, hfirst, rfl⟩) h.stores
    · exact Bool.eq_false_iff.mpr h.not_empty
  have hfits : indexOnA.RangeFits s [onA .ge 4] fiveTable [onA .ge 4] := by
    refine ⟨hfilled, fun _ key => (hend key ▸ hlow).le, ?_, fun _ => Or.inr ⟨?_, hbefore⟩⟩
    · rintro ⟨k, hk, -, hnot⟩
      exact absurd (hwithin k hk) hnot
    · refine fun r row hrow => ⟨fun _ => ?_, fun hstrict => absurd hstrict (by decide)⟩
      obtain ⟨i, hi, rfl⟩ := fiveTable_eq.mp hrow
      exact hwithin _ ⟨r, hmem.mpr ⟨i, hi, rfl⟩⟩
  exact ⟨s, hs, hindex, hfits, (indexScan_exact indexOnA _ _ hchosen _ s fiveTable hindex).1
    (Or.inr ⟨by decide, hfits⟩)⟩

/-- `a = 1` on an empty table. -/
theorem indexScan_empty_fails :
    indexOnA.ChosenFor [onA .eq 1] [onA .eq 1] ∧
      indexOnA.Indexes (IxLayout.ofCols indexOnA.ixCols (by decide)) (IxFile.create _)
        (fun _ => none) ∧
      ¬indexOnA.ScansExactly (IxLayout.ofCols indexOnA.ixCols (by decide)) (IxFile.create _)
        (fun _ => none) [onA .eq 1] [onA .eq 1] := by
  have h := IxFile.create_emptied (IxLayout.ofCols indexOnA.ixCols (by decide))
  refine ⟨chosenFor_onA (onA .eq 1) 1 rfl (by decide) (by decide +kernel), ⟨rfl, .create, ?_, ?_⟩, ?_⟩
  · intro r row hrow
    cases hrow
  · refine fun k r => iff_of_false h.stores ?_
    rintro ⟨row, hrow, -⟩
    cases hrow
  · intro hscan
    let key := indexOnA.lowKey [onA .eq 1]
    obtain ⟨rounds, rids, hreads, -⟩ := hscan ⟨key, key, key, key⟩ ⟨0, 0⟩
    have hread := hreads rounds (le_refl _)
    rw [IndexScanExecutor.enumerate, IndexScanExecutor.beginTuple, h.gap_range (by decide)] at hread
    cases hread

end Grmdb
