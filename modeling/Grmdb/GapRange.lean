import Grmdb.GapBounds

namespace Grmdb

open PagedTree Tiling BTree

/-- `get_index_meta`; `none` is the `IndexNotFoundError`. -/
def TabMeta.getIndexMeta (tab : TabMeta) (colNames : List String) : Option IndexMeta :=
  tab.indexes.find? fun index => index.hasCols colNames

/-- A scan of an index on INT and CHAR columns that `get_index_cols` chose, with the conditions that
it left and literals of the types of their columns. -/
structure IndexMeta.Chosen (index : IndexMeta) (conds : List Condition) : Prop where
  chosen : ∃ (cat : SmManager) (tabName : String) (tab : TabMeta) (given : List Condition)
    (names : List String), cat.Made ∧ cat.tabs tabName = some tab ∧
      getIndexCols cat.tabs tabName given = some (conds, some names) ∧
      tab.getIndexMeta names = some index
  plain : ∀ col ∈ index.cols, col.type = .int ∧ col.len = 4 ∨ col.type = .string
  distinct : (index.cols.map ColMeta.name).Nodup
  typed : Typed index.cols conds

theorem IndexMeta.Chosen.ranged {index : IndexMeta} {conds : List Condition}
    (h : index.Chosen conds) : Ranged index.cols conds := by
  obtain ⟨cat, tabName, tab, given, names, hmade, htab, hcols, hindex⟩ := h.chosen
  have hcounted := hmade.counted tabName tab htab
  have hmem := List.mem_of_find?_eq_some hindex
  have hhas := List.find?_some hindex
  simp only [IndexMeta.hasCols, Bool.and_eq_true, beq_iff_eq] at hhas
  have hnames : index.cols.map ColMeta.name = names := by
    rw [← hhas.2, hcounted index hmem, List.take_length]
  by_cases hgiven : given = []
  · subst hgiven
    have hnil : conds = [] := by
      cases conds with
      | nil => rfl
      | cons cond conds => exact absurd (getIndexCols_subset hcols List.mem_cons_self) (by simp)
    rw [hnil]
    exact .nil _
  · obtain ⟨hops, index', -, hnames', hmatch⟩ := getIndexCols_index htab hcounted hgiven hcols
    have hsame : index'.cols.map ColMeta.name = index.cols.map ColMeta.name :=
      hnames'.trans hnames.symm
    rcases hmatch with hprefix | ⟨cond, cond', hconds, hsingle, hpair⟩
    · exact .of_eqPrefix (hsame ▸ hprefix.names) hprefix.equal
        (fun cond hcond => (hops cond (getIndexCols_subset hcols hcond)).2) h.typed
    · exact .of_twoBounds ⟨cond, cond', hconds, hsame ▸ hsingle, hpair⟩ h.typed

/-- A key of a row that meets the conditions. -/
def IndexMeta.Satisfies (index : IndexMeta) (conds : List Condition) (k : IxKey index.ixCols) :
    Prop :=
  ∃ vals, List.Forall₂ IxCol.Holds index.ixCols vals ∧ Meets index.cols conds vals ∧
    k = IxKey.ofValues index.ixCols vals

/-- The first key behind a place. -/
def keyAfter {κ : Type} (rest : List (κ × Rid)) (last : κ) : κ :=
  (rest.head?.map Prod.fst).getD last

/-- The last key in front of a place. -/
def keyBefore {κ : Type} (front : List (κ × Rid)) (first : κ) : κ :=
  (front.getLast?.map Prod.fst).getD first

section Corners

variable {index : IndexMeta} {conds : List Condition} {k : IxKey index.ixCols}

theorem holds_lowKey (h : Ranged index.cols conds) :
    List.Forall₂ IxCol.Holds index.ixCols (corner CompOp.isLower
      (if IndexMeta.StrictLow conds then IxCol.generateMax else IxCol.generateMin) index.cols
        conds) := by
  refine h.holds_corner (Or.inl rfl) fun ixCol => ?_
  split
  next => exact ixCol.holds_generateMax
  next => exact ixCol.holds_generateMin

theorem holds_highKey (h : Ranged index.cols conds) :
    List.Forall₂ IxCol.Holds index.ixCols (corner CompOp.isUpper
      (if IndexMeta.StrictHigh conds then IxCol.generateMin else IxCol.generateMax) index.cols
        conds) := by
  refine h.holds_corner (Or.inr rfl) fun ixCol => ?_
  split
  next => exact ixCol.holds_generateMin
  next => exact ixCol.holds_generateMax

theorem lowKey_lt (h : Ranged index.cols conds) (hstrict : IndexMeta.StrictLow conds)
    (hk : index.Satisfies conds k) : index.lowKey conds < k := by
  obtain ⟨vals, hvals, hmeets, rfl⟩ := hk
  unfold IndexMeta.lowKey
  rw [if_pos hstrict]
  exact h.low_lt hstrict IxCol.holds_generateMax hvals hmeets

theorem lowKey_le (h : Ranged index.cols conds) (hk : index.Satisfies conds k) :
    index.lowKey conds ≤ k := by
  by_cases hstrict : IndexMeta.StrictLow conds
  · exact (lowKey_lt h hstrict hk).le
  · obtain ⟨vals, hvals, hmeets, rfl⟩ := hk
    unfold IndexMeta.lowKey
    rw [if_neg hstrict]
    exact h.low_le hstrict hvals hmeets

theorem lt_highKey (h : Ranged index.cols conds) (hstrict : IndexMeta.StrictHigh conds)
    (hk : index.Satisfies conds k) : k < index.highKey conds := by
  obtain ⟨vals, hvals, hmeets, rfl⟩ := hk
  unfold IndexMeta.highKey
  rw [if_pos hstrict]
  exact h.lt_high hstrict IxCol.holds_generateMin hvals hmeets

theorem Below.le (h : index.Below conds k) : k ≤ index.lowKey conds := by
  unfold IndexMeta.Below at h
  split at h
  next => exact h
  next => exact h.le

theorem le_of_not_below (h : ¬index.Below conds k) : index.lowKey conds ≤ k := by
  unfold IndexMeta.Below at h
  split at h
  next => exact (not_le.mp h).le
  next => exact not_lt.mp h

end Corners

namespace Ranged

variable {cols : List ColMeta} {conds : List Condition}

theorem lowerFull_eq (h : Ranged cols conds) :
    (conds.foldl CondBounds.add .start).lowerFull cols = corner CompOp.isLower
      (if IndexMeta.StrictLow conds then IxCol.generateMax else IxCol.generateMin) cols conds := by
  have hvals : (conds.foldl CondBounds.add .start).lowerValues =
      (conds.filter fun c => c.op.isLower).filterMap Condition.rhsVal := by
    rw [CondBounds.foldl_add_lower]
    rfl
  unfold CondBounds.lowerFull corner
  rw [hvals]
  by_cases hstrict : IndexMeta.StrictLow conds
  · simp only [h.lowerComp_iff, if_pos hstrict]
  · simp only [h.lowerComp_iff, if_neg hstrict]

theorem upperFull_eq (h : Ranged cols conds) :
    (conds.foldl CondBounds.add .start).upperFull cols = corner CompOp.isUpper
      (if IndexMeta.StrictHigh conds then IxCol.generateMin else IxCol.generateMax) cols conds := by
  have hvals : (conds.foldl CondBounds.add .start).upperValues =
      (conds.filter fun c => c.op.isUpper).filterMap Condition.rhsVal := by
    rw [CondBounds.foldl_add_upper]
    rfl
  unfold CondBounds.upperFull corner
  rw [hvals]
  by_cases hstrict : IndexMeta.StrictHigh conds
  · simp only [h.upperComp_iff, if_pos hstrict]
  · simp only [h.upperComp_iff, if_neg hstrict]

/-- The assertion holds. -/
theorem balanced (h : Ranged cols conds) : (conds.foldl CondBounds.add .start).Balanced := by
  have hlengths := h.lengths
  rw [CondBounds.Balanced, CondBounds.foldl_add_lower, CondBounds.foldl_add_upper]
  simp only [CondBounds.start, List.nil_append]
  omega

end Ranged

section Spec

variable {index : IndexMeta} {conds : List Condition} {s : IxFile (IxKey index.ixCols)}
  {g : Labels PageNo (IxKey index.ixCols)} {ls : List PageNo} {L : IxLayout (IxKey index.ixCols)}

/-- `get_bound` finds the places of the corners, whichever way it searches. -/
theorem getBoundWith_eq (h : BTree s g ls) (L : IxLayout (IxKey index.ixCols))
    (hranged : Ranged index.cols conds) (hnodup : (index.cols.map ColMeta.name).Nodup)
    (hne : conds ≠ []) :
    ∃ lower upper, CutAt s ls (index.Below conds) lower ∧ CutAt s ls (index.Within conds) upper ∧
      ∀ (next : Nat → Nat → Nat)
        (lowerBound upperBound : List Value → IxKey index.ixCols → Option Iid),
        (∀ vals, List.Forall₂ IxCol.Holds index.ixCols vals →
          lowerBound vals (IxKey.ofValues index.ixCols vals) =
            s.lowerBound L (IxKey.ofValues index.ixCols vals)) →
        (∀ vals, List.Forall₂ IxCol.Holds index.ixCols vals →
          upperBound vals (IxKey.ofValues index.ixCols vals) =
            s.upperBound L (IxKey.ofValues index.ixCols vals)) →
        ∀ lowerKey upperKey, getBoundWith next lowerBound upperBound s conds lowerKey upperKey =
          some ((lower, upper), index.lowKey conds, index.highKey conds) := by
  have hlow := holds_lowKey hranged
  have hhigh := holds_highKey hranged
  have hlower : ∃ lower, (if IndexMeta.StrictLow conds then s.upperBound L (index.lowKey conds)
      else s.lowerBound L (index.lowKey conds)) = some lower ∧
      CutAt s ls (index.Below conds) lower := by
    unfold IndexMeta.Below
    split
    next => exact h.upperBound L _
    next => exact h.lowerBound L _
  have hupper : ∃ upper, (if IndexMeta.StrictHigh conds then s.lowerBound L (index.highKey conds)
      else s.upperBound L (index.highKey conds)) = some upper ∧
      CutAt s ls (index.Within conds) upper := by
    unfold IndexMeta.Within
    split
    next => exact h.lowerBound L _
    next => exact h.upperBound L _
  obtain ⟨lower, hlower, hcutLower⟩ := hlower
  obtain ⟨upper, hupper, hcutUpper⟩ := hupper
  refine ⟨lower, upper, hcutLower, hcutUpper, ?_⟩
  intro next lowerBound upperBound hlb hub lowerKey upperKey
  unfold getBoundWith
  simp only [if_neg hne, hranged.collect_eq hnodup, if_pos hranged.balanced, hranged.lowerFull_eq,
    hranged.upperFull_eq, copyValues_add hlow, copyValues_add hhigh, hlb _ hlow, hub _ hlow,
    hlb _ hhigh, hub _ hhigh, hranged.lowerComp_iff, hranged.upperComp_iff]
  change ((if IndexMeta.StrictHigh conds then s.lowerBound L (index.highKey conds)
    else s.upperBound L (index.highKey conds)).bind fun upper =>
      (if IndexMeta.StrictLow conds then s.upperBound L (index.lowKey conds)
        else s.lowerBound L (index.lowKey conds)).map fun lower =>
        ((lower, upper), index.lowKey conds, index.highKey conds)) = _
  rw [hupper, Option.bind_some, hlower, Option.map_some]

/-- `get_gap_lock_key` moves the keys to the stored ones around the places. -/
theorem getGapLockKeyWith_eq {equal : IxKey index.ixCols → IxKey index.ixCols → IxKey index.ixCols}
    (hequal : ∀ k, equal k k = k) (h : BTree s g ls)
    {front rest front' rest' : List (IxKey index.ixCols × Rid)} {lower upper : Iid}
    (hlower : s.Names ls front rest lower) (hupper : s.Names ls front' rest' upper)
    (lowerBuf upperBuf lowerKey upperKey : IxKey index.ixCols) :
    getGapLockKeyWith equal L s lowerBuf upperBuf ((lower, upper), lowerKey, upperKey) =
      (if lowerKey < keyAfter rest (endKey index.ixCols lowerBuf) then
        some (keyBefore front lowerKey)
      else if lowerKey = keyAfter rest (endKey index.ixCols lowerBuf) then some lowerKey
      else none).map fun key =>
        ((lower, upper), key, keyAfter rest' (endKey index.ixCols upperBuf)) := by
  simp only [getGapLockKeyWith, h.getKey_names L hlower, h.getKey_names L hupper, Option.bind_some]
  change (if lowerKey < keyAfter rest (endKey index.ixCols lowerBuf) then _
    else if lowerKey = keyAfter rest (endKey index.ixCols lowerBuf) then _ else none).map _ = _
  by_cases hlt : lowerKey < keyAfter rest (endKey index.ixCols lowerBuf)
  · rw [if_pos hlt, if_pos hlt]
    rcases List.eq_nil_or_concat front with rfl | ⟨front, e, rfl⟩
    · rw [h.minusOne_first hlower]
      rfl
    · rw [List.concat_eq_append] at hlower ⊢
      obtain ⟨iid, hminus, hnames⟩ := h.minusOne_names hlower
      rw [hminus, Option.bind_some]
      dsimp only
      rw [h.getKey_names L hnames]
      simp [keyBefore, keyAfter]
  · rw [if_neg hlt, if_neg hlt]
    by_cases heq : lowerKey = keyAfter rest (endKey index.ixCols lowerBuf)
    · rw [if_pos heq, if_pos heq]
      change (some (equal lowerKey (keyAfter rest (endKey index.ixCols lowerBuf)))).map _ = _
      rw [← heq, hequal]
      rfl
    · rw [if_neg heq, if_neg heq]
      rfl

end Spec

end Grmdb
