import Grmdb.GapRange

namespace Grmdb

open PagedTree Tiling BTree

section Agree

variable {index : IndexMeta} {conds : List Condition} {s : IxFile (IxKey index.ixCols)}
  {g : Labels PageNo (IxKey index.ixCols)} {ls : List PageNo}

/-- What both copies of the gap computation come to, for the places and the keys of a range. -/
def gapAt (range : (Iid × Iid) × IxKey index.ixCols)
    (front rest rest' : List (IxKey index.ixCols × Rid)) (bufs : GapBuffers index.ixCols) :
    Option (GapRange index.ixCols) :=
  (if range.2 < keyAfter rest (endKey index.ixCols bufs.lowerBound) then
    some (keyBefore front range.2)
  else if range.2 = keyAfter rest (endKey index.ixCols bufs.lowerBound) then some range.2
  else none).map fun key => (range.1, key, keyAfter rest' (endKey index.ixCols bufs.upperBound))

/-- With conditions the two copies differ in nothing. The one of the scan compares values, so the
stored keys have to be keys of rows for it. -/
theorem gap_eq_ofRows (h : BTree s g ls) (L : IxLayout (IxKey index.ixCols))
    (hranged : Ranged index.cols conds) (hnodup : (index.cols.map ColMeta.name).Nodup)
    (hne : conds ≠ []) :
    ∃ lower upper front rest front' rest', s.Names ls front rest lower ∧
      s.Names ls front' rest' upper ∧
      ((∀ e ∈ front, index.Below conds e.1) ∧ ∀ e ∈ rest, ¬index.Below conds e.1) ∧
      ((∀ e ∈ front', index.Within conds e.1) ∧ ∀ e ∈ rest', ¬index.Within conds e.1) ∧
      ∀ bufs,
        (s.OfRows → IndexScanExecutor.gap L s conds bufs =
            gapAt ((lower, upper), index.lowKey conds) front rest rest' bufs) ∧
          LockManager.gap L s conds bufs =
            gapAt ((lower, upper), index.lowKey conds) front rest rest' bufs := by
  obtain ⟨lower, upper, ⟨front, rest, hlower, hcut⟩, ⟨front', rest', hupper, hcut'⟩, hbound⟩ :=
    getBoundWith_eq h L hranged hnodup hne
  refine ⟨lower, upper, front, rest, front', rest', hlower, hupper, hcut, hcut', fun bufs => ?_⟩
  constructor
  · intro hrows
    unfold IndexScanExecutor.gap IndexScanExecutor.getBound
    rw [hbound _ _ _ (fun vals hvals => h.lowerBoundValues_eq hrows hvals)
      fun vals hvals => h.upperBoundValues_eq hrows hvals, Option.bind_some]
    exact getGapLockKeyWith_eq (fun _ => rfl) h hlower hupper _ _ _ _
  · unfold LockManager.gap LockManager.getBound
    rw [hbound _ _ _ (fun vals _ => rfl) fun vals _ => rfl, Option.bind_some]
    exact getGapLockKeyWith_eq (fun _ => rfl) h hlower hupper _ _ _ _

theorem gap_eq (h : BTree s g ls) (L : IxLayout (IxKey index.ixCols)) (hrows : s.OfRows)
    (hranged : Ranged index.cols conds) (hnodup : (index.cols.map ColMeta.name).Nodup)
    (hne : conds ≠ []) :
    ∃ lower upper front rest front' rest', s.Names ls front rest lower ∧
      s.Names ls front' rest' upper ∧
      ((∀ e ∈ front, index.Below conds e.1) ∧ ∀ e ∈ rest, ¬index.Below conds e.1) ∧
      ((∀ e ∈ front', index.Within conds e.1) ∧ ∀ e ∈ rest', ¬index.Within conds e.1) ∧
      ∀ bufs,
        IndexScanExecutor.gap L s conds bufs =
            gapAt ((lower, upper), index.lowKey conds) front rest rest' bufs ∧
          LockManager.gap L s conds bufs =
            gapAt ((lower, upper), index.lowKey conds) front rest rest' bufs := by
  obtain ⟨lower, upper, front, rest, front', rest', hlower, hupper, hcut, hcut', hgap⟩ :=
    gap_eq_ofRows h L hranged hnodup hne
  exact ⟨lower, upper, front, rest, front', rest', hlower, hupper, hcut, hcut',
    fun bufs => ⟨(hgap bufs).1 hrows, (hgap bufs).2⟩⟩

/-- Without conditions the range is the whole index. `next` moves the offset of the copy. -/
theorem gap_nil (h : BTree s g ls) (L : IxLayout (IxKey index.ixCols)) :
    ∃ last, s.Names ls (s.pairs ls) [] last ∧ ∀ bufs,
      IndexScanExecutor.gap L s [] bufs =
          gapAt ((s.leafBegin, last), copyValues (· + ·) 0 index.ixCols
            (index.ixCols.map IxCol.generateMin) bufs.lowerKey) [] (s.pairs ls) [] bufs ∧
        LockManager.gap L s [] bufs =
          gapAt ((s.leafBegin, last), copyValues (fun offset _ => offset) 0 index.ixCols
            (index.ixCols.map IxCol.generateMin) bufs.lowerKey) [] (s.pairs ls) [] bufs := by
  obtain ⟨front, rest, hfirst, hnone, -⟩ := h.leafBegin
  obtain ⟨last, hlast, front', rest', hend, -, hall⟩ := h.leafEnd
  have hfront : front = [] := List.eq_nil_iff_forall_not_mem.mpr fun e he => hnone e he
  have hrest' : rest' = [] := List.eq_nil_iff_forall_not_mem.mpr fun e he => hall e he trivial
  subst hfront hrest'
  have hpairs : rest = s.pairs ls := hfirst.pairs_eq.symm
  subst hpairs
  have hall : front' = s.pairs ls := by rw [hend.pairs_eq, List.append_nil]
  subst hall
  refine ⟨last, hend, fun bufs => ⟨?_, ?_⟩⟩
  · unfold IndexScanExecutor.gap IndexScanExecutor.getBound getBoundWith
    rw [if_pos rfl, hlast, Option.map_some, Option.bind_some]
    exact getGapLockKeyWith_eq (fun _ => rfl) h hfirst hend _ _ _ _
  · unfold LockManager.gap LockManager.getBound getBoundWith
    rw [if_pos rfl, hlast, Option.map_some, Option.bind_some]
    exact getGapLockKeyWith_eq (fun _ => rfl) h hfirst hend _ _ _ _

end Agree

/-- When the gap covers what the conditions allow. `ls` are the leaves in key order. -/
structure IndexMeta.GapCovers (index : IndexMeta) (s : IxFile (IxKey index.ixCols))
    (ls : List PageNo) (conds : List Condition) : Prop where
  ne : conds ≠ []
  returns : (∀ e ∈ s.pairs ls, index.Below conds e.1) →
    ∀ key, index.lowKey conds ≤ endKey index.ixCols key
  low : IndexMeta.StrictLow conds ∨ ¬index.Satisfies conds (index.lowKey conds) ∨
    (∀ e ∈ s.pairs ls, e.1 ≠ index.lowKey conds) ∧
      (∃ e ∈ s.pairs ls, e.1 < index.lowKey conds) ∧
      ((∀ e ∈ s.pairs ls, e.1 < index.lowKey conds) →
        ∀ key, index.lowKey conds < endKey index.ixCols key)
  high : ∀ k, index.Satisfies conds k →
    (∀ e ∈ s.pairs ls, index.highKey conds < e.1 → k < e.1) ∧
      ((∀ e ∈ s.pairs ls, index.Within conds e.1) → ∀ key, k < endKey index.ixCols key)

section Ends

variable {κ : Type}

theorem keyBefore_cases (front : List (κ × Rid)) (first : κ) :
    front = [] ∧ keyBefore front first = first ∨ ∃ e ∈ front, keyBefore front first = e.1 := by
  rcases List.eq_nil_or_concat front with rfl | ⟨front, e, rfl⟩
  · exact Or.inl ⟨rfl, rfl⟩
  · refine Or.inr ⟨e, by simp, ?_⟩
    simp [keyBefore]

/-- The first key behind a place is the least one there. -/
theorem keyAfter_cases [LinearOrder κ] {rest : List (κ × Rid)}
    (hsorted : (rest.map Prod.fst).Pairwise (· < ·)) (last : κ) :
    rest = [] ∧ keyAfter rest last = last ∨
      ∃ e ∈ rest, keyAfter rest last = e.1 ∧ ∀ e' ∈ rest, e.1 ≤ e'.1 := by
  cases rest with
  | nil => exact Or.inl ⟨rfl, rfl⟩
  | cons e rest =>
    rw [List.map_cons, List.pairwise_cons] at hsorted
    refine Or.inr ⟨e, List.mem_cons_self, rfl, fun e' he' => ?_⟩
    rcases List.mem_cons.mp he' with rfl | he'
    · exact le_refl _
    · exact (hsorted.1 e'.1 (List.mem_map_of_mem he')).le

end Ends

section Cover

variable {index : IndexMeta} {conds : List Condition} {s : IxFile (IxKey index.ixCols)}
  {g : Labels PageNo (IxKey index.ixCols)} {ls : List PageNo}
  {range : (Iid × Iid) × IxKey index.ixCols} {front rest rest' : List (IxKey index.ixCols × Rid)}
  {bufs : GapBuffers index.ixCols} {r : GapRange index.ixCols}

theorem gapAt_some (h : gapAt range front rest rest' bufs = some r) :
    r.2.2 = keyAfter rest' (endKey index.ixCols bufs.upperBound) ∧
      (range.2 < keyAfter rest (endKey index.ixCols bufs.lowerBound) ∧
          r.2.1 = keyBefore front range.2 ∨
        range.2 = keyAfter rest (endKey index.ixCols bufs.lowerBound) ∧ r.2.1 = range.2) := by
  obtain ⟨key, hkey, rfl⟩ := Option.map_eq_some_iff.mp h
  refine ⟨rfl, ?_⟩
  split at hkey
  next hlt => exact Or.inl ⟨hlt, (Option.some.inj hkey).symm⟩
  next =>
    split at hkey
    next heq => exact Or.inr ⟨heq, (Option.some.inj hkey).symm⟩
    next => cases hkey

theorem gapAt_returns
    (h : range.2 ≤ keyAfter rest (endKey index.ixCols bufs.lowerBound)) :
    ∃ r, gapAt range front rest rest' bufs = some r := by
  unfold gapAt
  rcases lt_or_eq_of_le h with hlt | heq
  · rw [if_pos hlt]
    exact ⟨_, rfl⟩
  · rw [if_neg heq.not_lt, if_pos heq]
    exact ⟨_, rfl⟩

/-- Without conditions the least key is left out. -/
theorem not_covers_nil (h : BTree s g ls) (L : IxLayout (IxKey index.ixCols)) :
    ∃ k, index.Satisfies [] k ∧ ∀ bufs r, IndexScanExecutor.gap L s [] bufs = some r →
      ¬r.2.1 < k := by
  have hmin := holds_map IxCol.holds_generateMin index.ixCols
  refine ⟨_, ⟨_, hmin, fun cond hcond => absurd hcond List.not_mem_nil, rfl⟩, ?_⟩
  intro bufs r hr
  obtain ⟨last, -, hgap⟩ := gap_nil h L
  rw [(hgap bufs).1, copyValues_add hmin] at hr
  rcases (gapAt_some hr).2 with ⟨-, hlow⟩ | ⟨-, hlow⟩
  · rw [hlow]
    exact lt_irrefl _
  · rw [hlow]
    exact lt_irrefl _

variable {front' : List (IxKey index.ixCols × Rid)} {K : IxKey index.ixCols}

/-- From a gap that covers the range to the condition. -/
theorem covers_of_gap (hpairs : s.pairs ls = front ++ rest) (hpairs' : s.pairs ls = front' ++ rest')
    (hsorted : ((s.pairs ls).map Prod.fst).Pairwise (· < ·)) (hne : conds ≠ [])
    (hcut : (∀ e ∈ front, index.Below conds e.1) ∧ ∀ e ∈ rest, ¬index.Below conds e.1)
    (hcut' : (∀ e ∈ front', index.Within conds e.1) ∧ ∀ e ∈ rest', ¬index.Within conds e.1)
    {iids : Iid × Iid}
    (hrun : ∀ bufs, ∃ r, gapAt (iids, index.lowKey conds) front rest rest' bufs = some r ∧
      ∀ k, index.Satisfies conds k → r.2.1 < k ∧ k < r.2.2) : index.GapCovers s ls conds := by
  have hrest : (rest.map Prod.fst).Pairwise (· < ·) := by
    rw [hpairs, List.map_append] at hsorted
    exact (List.pairwise_append.mp hsorted).2.1
  have hrest' : (rest'.map Prod.fst).Pairwise (· < ·) := by
    rw [hpairs', List.map_append] at hsorted
    exact (List.pairwise_append.mp hsorted).2.1
  refine ⟨hne, ?_, ?_, ?_⟩
  · intro hall key
    have hnil : rest = [] := List.eq_nil_iff_forall_not_mem.mpr fun e he =>
      hcut.2 e he (hall e (by rw [hpairs]; exact List.mem_append_right _ he))
    subst hnil
    obtain ⟨r, hr, -⟩ := hrun ⟨key, key, key, key⟩
    rcases (gapAt_some hr).2 with ⟨hlt, -⟩ | ⟨heq, -⟩
    · exact le_of_lt hlt
    · exact le_of_eq heq
  · by_cases hstrict : IndexMeta.StrictLow conds
    · exact Or.inl hstrict
    by_cases hsat : index.Satisfies conds (index.lowKey conds)
    · refine Or.inr (Or.inr ?_)
      simp only [IndexMeta.Below, if_neg hstrict] at hcut
      -- the lower key moves down to a stored key
      have hmoved : ∀ key, index.lowKey conds < keyAfter rest (endKey index.ixCols key) ∧
          ∃ e ∈ front, e.1 < index.lowKey conds := by
        intro key
        obtain ⟨r, hr, hcover⟩ := hrun ⟨key, key, key, key⟩
        have hlow := (hcover _ hsat).1
        rcases (gapAt_some hr).2 with ⟨hlt, hkey⟩ | ⟨-, hkey⟩
        · refine ⟨hlt, ?_⟩
          rw [hkey] at hlow
          rcases keyBefore_cases front (index.lowKey conds) with ⟨-, hsame⟩ | ⟨e, he, -⟩
          · exact absurd hlow (by rw [hsame]; exact lt_irrefl _)
          · exact ⟨e, he, hcut.1 e he⟩
        · exact absurd hlow (by rw [hkey]; exact lt_irrefl _)
      refine ⟨fun e he heq => ?_, ?_, fun hall key => ?_⟩
      · rw [hpairs, List.mem_append] at he
        rcases he with he | he
        · exact absurd (hcut.1 e he) (heq ▸ lt_irrefl _)
        · have hlt := (hmoved (index.lowKey conds)).1
          rcases keyAfter_cases hrest (endKey index.ixCols (index.lowKey conds)) with
            ⟨hnil, -⟩ | ⟨e', -, hkey, hleast⟩
          · rw [hnil] at he
            cases he
          · rw [hkey] at hlt
            exact absurd (hlt.trans_le (hleast e he)) (heq ▸ lt_irrefl _)
      · obtain ⟨e, he, hlt⟩ := (hmoved (index.lowKey conds)).2
        exact ⟨e, by rw [hpairs]; exact List.mem_append_left _ he, hlt⟩
      · have hnil : rest = [] := List.eq_nil_iff_forall_not_mem.mpr fun e he =>
          hcut.2 e he (hall e (by rw [hpairs]; exact List.mem_append_right _ he))
        have hlt := (hmoved key).1
        rw [hnil] at hlt
        exact hlt
    · exact Or.inr (Or.inl hsat)
  · intro k hk
    have hlt : ∀ key, k < keyAfter rest' (endKey index.ixCols key) := by
      intro key
      obtain ⟨r, hr, hcover⟩ := hrun ⟨key, key, key, key⟩
      have hhigh := (hcover k hk).2
      rwa [(gapAt_some hr).1] at hhigh
    refine ⟨fun e he habove => ?_, fun hall key => ?_⟩
    · rw [hpairs', List.mem_append] at he
      rcases he with he | he
      · have hwithin := hcut'.1 e he
        unfold IndexMeta.Within at hwithin
        split at hwithin
        next => exact absurd habove hwithin.not_gt
        next => exact absurd habove (not_lt.mpr hwithin)
      · rcases keyAfter_cases hrest' (endKey index.ixCols k) with ⟨hnil, -⟩ | ⟨e', -, hkey, hleast⟩
        · rw [hnil] at he
          cases he
        · exact (hkey ▸ hlt k).trans_le (hleast e he)
    · have hnil : rest' = [] := List.eq_nil_iff_forall_not_mem.mpr fun e he =>
        hcut'.2 e he (hall e (by rw [hpairs']; exact List.mem_append_right _ he))
      have hend := hlt key
      rw [hnil] at hend
      exact hend

/-- And back. -/
theorem gap_of_covers (hranged : Ranged index.cols conds) (hpairs : s.pairs ls = front ++ rest)
    (hpairs' : s.pairs ls = front' ++ rest')
    (hsorted : ((s.pairs ls).map Prod.fst).Pairwise (· < ·))
    (hcut : (∀ e ∈ front, index.Below conds e.1) ∧ ∀ e ∈ rest, ¬index.Below conds e.1)
    (hcut' : (∀ e ∈ front', index.Within conds e.1) ∧ ∀ e ∈ rest', ¬index.Within conds e.1)
    {iids : Iid × Iid} (hcovers : index.GapCovers s ls conds) (bufs : GapBuffers index.ixCols) :
    ∃ r, gapAt (iids, index.lowKey conds) front rest rest' bufs = some r ∧
      ∀ k, index.Satisfies conds k → r.2.1 < k ∧ k < r.2.2 := by
  have hrest : (rest.map Prod.fst).Pairwise (· < ·) := by
    rw [hpairs, List.map_append] at hsorted
    exact (List.pairwise_append.mp hsorted).2.1
  have hrest' : (rest'.map Prod.fst).Pairwise (· < ·) := by
    rw [hpairs', List.map_append] at hsorted
    exact (List.pairwise_append.mp hsorted).2.1
  have hlower := keyAfter_cases hrest (endKey index.ixCols bufs.lowerBound)
  have hfront : rest = [] → ∀ e ∈ s.pairs ls, e ∈ front := by
    rintro rfl e he
    rwa [hpairs, List.append_nil] at he
  have hle : index.lowKey conds ≤ keyAfter rest (endKey index.ixCols bufs.lowerBound) := by
    rcases hlower with ⟨hnil, hkey⟩ | ⟨e, he, hkey, -⟩
    · rw [hkey]
      exact hcovers.returns (fun e he => hcut.1 e (hfront hnil e he)) _
    · rw [hkey]
      exact le_of_not_below (hcut.2 e he)
  obtain ⟨r, hr⟩ := @gapAt_returns index (iids, index.lowKey conds) front rest rest' bufs hle
  obtain ⟨hupper, hlow⟩ := gapAt_some hr
  have hrle : r.2.1 ≤ index.lowKey conds := by
    rcases hlow with ⟨-, hkey⟩ | ⟨-, hkey⟩
    · rw [hkey]
      rcases keyBefore_cases front (index.lowKey conds) with ⟨-, hsame⟩ | ⟨e, he, hsame⟩
      · exact hsame.le
      · rw [hsame]
        exact Below.le (hcut.1 e he)
    · exact hkey.le
  refine ⟨r, hr, fun k hk => ⟨?_, ?_⟩⟩
  · by_cases hstrict : IndexMeta.StrictLow conds
    · exact hrle.trans_lt (lowKey_lt hranged hstrict hk)
    have hklow := lowKey_le hranged hk
    rcases hcovers.low with hstrict' | hunsat | ⟨hnew, ⟨e, he, hbelow⟩, hend⟩
    · exact absurd hstrict' hstrict
    · exact hrle.trans_lt (lt_of_le_of_ne hklow fun heq => hunsat (heq ▸ hk))
    · refine lt_of_lt_of_le ?_ hklow
      simp only [IndexMeta.Below, if_neg hstrict] at hcut
      rcases hlow with ⟨-, hkey⟩ | ⟨heq, -⟩
      · rw [hkey]
        rcases keyBefore_cases front (index.lowKey conds) with ⟨hnil, -⟩ | ⟨e', he', hsame⟩
        · rw [hpairs, hnil, List.nil_append] at he
          exact absurd hbelow (hcut.2 e he)
        · rw [hsame]
          exact hcut.1 e' he'
      · rcases hlower with ⟨hnil, hkey⟩ | ⟨e', he', hkey, -⟩
        · have hlt := hend (fun e he => hcut.1 e (hfront hnil e he)) bufs.lowerBound
          rw [← hkey] at hlt
          exact absurd heq hlt.ne
        · refine absurd (heq.trans hkey).symm (hnew e' ?_)
          rw [hpairs]
          exact List.mem_append_right _ he'
  · obtain ⟨habove, hend⟩ := hcovers.high k hk
    rw [hupper]
    rcases keyAfter_cases hrest' (endKey index.ixCols bufs.upperBound) with
      ⟨hnil, hkey⟩ | ⟨e, he, hkey, -⟩
    · rw [hkey]
      refine hend (fun e he => hcut'.1 e ?_) _
      rwa [hpairs', hnil, List.append_nil] at he
    · rw [hkey]
      have hout := hcut'.2 e he
      unfold IndexMeta.Within at hout
      split at hout
      next hstrict => exact (lt_highKey hranged hstrict hk).trans_le (not_lt.mp hout)
      next =>
        refine habove e ?_ (not_le.mp hout)
        rw [hpairs']
        exact List.mem_append_right _ he

end Cover

/-- Exactly when the gap that an index scan locks holds every key that its conditions allow. -/
theorem gapBounds_cover_iff (index : IndexMeta) (conds : List Condition)
    (hchosen : index.Chosen conds) (L : IxLayout (IxKey index.ixCols))
    (s : IxFile (IxKey index.ixCols)) (g : Labels PageNo (IxKey index.ixCols)) (ls : List PageNo)
    (h : BTree s g ls) (hrows : s.OfRows) :
    (∀ bufs, ∃ r, IndexScanExecutor.gap L s conds bufs = some r ∧
      ∀ k, index.Satisfies conds k → r.2.1 < k ∧ k < r.2.2) ↔ index.GapCovers s ls conds := by
  by_cases hne : conds = []
  · subst hne
    refine ⟨fun hrun => ?_, fun hcovers => absurd rfl hcovers.ne⟩
    obtain ⟨k, hk, hnot⟩ := @not_covers_nil index s g ls h L
    obtain ⟨r, hr, hcover⟩ := hrun ⟨k, k, k, k⟩
    exact absurd (hcover k hk).1 (hnot _ r hr)
  · obtain ⟨lower, upper, front, rest, front', rest', hlower, hupper, hcut, hcut', hgap⟩ :=
      gap_eq h L hrows hchosen.ranged hchosen.distinct hne
    constructor
    · intro hrun
      refine @covers_of_gap index conds s ls front rest rest' front' hlower.pairs_eq
        hupper.pairs_eq h.pairs_sorted hne hcut hcut' (lower, upper) fun bufs => ?_
      rw [← (hgap bufs).1]
      exact hrun bufs
    · intro hcovers bufs
      rw [(hgap bufs).1]
      exact gap_of_covers hchosen.ranged hlower.pairs_eq hupper.pairs_eq h.pairs_sorted hcut hcut'
        hcovers bufs

/-- The index on `a` of `CREATE TABLE t (a INT, b INT)`. -/
def indexOnA : IndexMeta := ⟨"t", 4, 1, [⟨"t", "a", .int, 4, 0⟩]⟩

def onA (op : CompOp) (i : Int) : Condition :=
  ⟨⟨"t", "a"⟩, op, true, ⟨"", ""⟩, some (.int i)⟩

theorem chosen_onA {conds : List Condition}
    (hcols : getIndexCols (indexedTable ["a"]).tabs "t" conds = some (conds, some ["a"]))
    (htyped : ∀ cond ∈ conds, ∃ i, cond.rhsVal = some (.int i) ∧ IsInt32 i) :
    indexOnA.Chosen conds := by
  refine ⟨⟨_, "t", _, conds, ["a"], indexedTable_made ["a"], rfl, hcols, rfl⟩, ?_, by decide, ?_⟩
  · intro col hcol
    rw [List.mem_singleton.mp hcol]
    exact Or.inl ⟨rfl, rfl⟩
  · intro cond hcond col hcol _
    obtain ⟨i, hval, hi⟩ := htyped cond hcond
    rw [List.mem_singleton.mp hcol]
    exact ⟨.int i, hval, hi⟩

theorem twoLeaves_ofRows : twoLeaves.OfRows := by
  intro p n hn e he
  have hkey : ∃ i : Int, IsInt32 i ∧ e.1 = IxKey.ofValues [.int] [.int i] := by
    rcases twoLeaves_cases hn with ⟨-, rfl⟩ | ⟨-, rfl⟩ | ⟨-, rfl⟩
    · rw [List.mem_singleton.mp he]
      exact ⟨1, by decide, rfl⟩
    · rw [List.mem_singleton.mp he]
      exact ⟨2, by decide, rfl⟩
    · rcases List.mem_cons.mp he with rfl | he
      · exact ⟨0, by decide, rfl⟩
      · rw [List.mem_singleton.mp he]
        exact ⟨2, by decide, rfl⟩
  obtain ⟨i, hi, heq⟩ := hkey
  exact ⟨[.int i], .cons hi .nil, heq⟩

/-- `a > 1 AND a < 3` in a tree that holds 1 and 2. -/
theorem gapBounds_cover_openRange :
    indexOnA.GapCovers twoLeaves [3, 4] [onA .gt 1, onA .lt 3] ∧
      ∀ bufs, ∃ r, IndexScanExecutor.gap (IxLayout.ofCols indexOnA.ixCols (by decide)) twoLeaves
          [onA .gt 1, onA .lt 3] bufs = some r ∧
        ∀ k, indexOnA.Satisfies [onA .gt 1, onA .lt 3] k → r.2.1 < k ∧ k < r.2.2 := by
  have hchosen : indexOnA.Chosen [onA .gt 1, onA .lt 3] := by
    refine chosen_onA (by decide +kernel) fun cond hcond => ?_
    rcases List.mem_cons.mp hcond with rfl | hcond
    · exact ⟨1, rfl, by decide⟩
    · rw [List.mem_singleton.mp hcond]
      exact ⟨3, rfl, by decide⟩
  have hhigh : ∀ key, indexOnA.highKey [onA .gt 1, onA .lt 3] < endKey indexOnA.ixCols key := by
    intro key
    have hend : endKey indexOnA.ixCols key = IxKey.ofValues [.int] [.int (2 ^ 31 - 1)] :=
      copyValues_add (holds_map IxCol.holds_generateMax [.int]) key
    rw [hend]
    exact (ixCompare_neg_iff _ _).mp (by decide +kernel)
  have hcovers : indexOnA.GapCovers twoLeaves [3, 4] [onA .gt 1, onA .lt 3] := by
    refine ⟨by decide, fun hall => ?_, Or.inl (by decide), fun k hk => ⟨fun e he habove => ?_, ?_⟩⟩
    · have hbelow := hall (smallKey 2, ⟨1, 1⟩) (by decide)
      unfold IndexMeta.Below at hbelow
      rw [if_pos (by decide)] at hbelow
      exact absurd hbelow (not_le.mpr ((ixCompare_neg_iff _ _).mp (by decide +kernel)))
    · have hlt : e.1 < indexOnA.highKey [onA .gt 1, onA .lt 3] := by
        rcases List.mem_cons.mp he with rfl | he
        · exact (ixCompare_neg_iff _ _).mp (by decide +kernel)
        · rw [List.mem_singleton.mp he]
          exact (ixCompare_neg_iff _ _).mp (by decide +kernel)
      exact absurd habove hlt.not_gt
    · intro _ key
      exact (lt_highKey hchosen.ranged (by decide) hk).trans (hhigh key)
  exact ⟨hcovers, (gapBounds_cover_iff indexOnA _ hchosen _ twoLeaves twoLeavesLabels [3, 4]
    twoLeaves_btree twoLeaves_ofRows).mpr hcovers⟩

/-- `a = 1` where 1 is stored: the lower key stays there. -/
theorem gapBounds_leave_out_stored :
    indexOnA.Chosen [onA .eq 1] ∧ BTree twoLeaves twoLeavesLabels [3, 4] ∧ twoLeaves.OfRows ∧
      ¬∀ bufs, ∃ r, IndexScanExecutor.gap (IxLayout.ofCols indexOnA.ixCols (by decide)) twoLeaves
          [onA .eq 1] bufs = some r ∧
        ∀ k, indexOnA.Satisfies [onA .eq 1] k → r.2.1 < k ∧ k < r.2.2 := by
  refine ⟨?_, twoLeaves_btree, twoLeaves_ofRows, fun hrun => ?_⟩
  · refine chosen_onA (by decide +kernel) fun cond hcond => ?_
    rw [List.mem_singleton.mp hcond]
    exact ⟨1, rfl, by decide⟩
  · have hgap : (IndexScanExecutor.gap (IxLayout.ofCols indexOnA.ixCols (by decide)) twoLeaves [onA .eq 1]
        ⟨smallKey 0, smallKey 0, smallKey 0, smallKey 0⟩).map (fun r => r.2.1.1) =
          some [1, 0, 0, 0] := by
      decide +kernel
    obtain ⟨r, hr, hcover⟩ := hrun ⟨smallKey 0, smallKey 0, smallKey 0, smallKey 0⟩
    rw [hr, Option.map_some, Option.some_inj] at hgap
    have hkey : r.2.1 = smallKey 1 := Subtype.ext hgap
    refine absurd (hcover (smallKey 1) ⟨[.int 1], .cons (show IsInt32 1 by decide) .nil, ?_, rfl⟩).1 ?_
    · intro cond hcond p hp _ w hw
      rw [List.mem_singleton.mp hcond] at hw ⊢
      rw [List.mem_singleton.mp hp]
      cases hw
      rfl
    · rw [hkey]
      exact lt_irrefl _

end Grmdb
