import Grmdb.CondRange
import Grmdb.GapKeys

namespace Grmdb

/-- What the loops of `get_bound` collect. `match_lower` and `match_upper` are the lengths. -/
structure CondBounds where
  lowerValues : List Value
  upperValues : List Value
  lowerComp : CompOp
  upperComp : CompOp

namespace CondBounds

def start : CondBounds := ⟨[], [], .eq, .eq⟩

def add (b : CondBounds) (cond : Condition) : CondBounds :=
  match cond.op with
  | .eq =>
    { b with
      lowerValues := b.lowerValues ++ cond.rhsVal.toList
      upperValues := b.upperValues ++ cond.rhsVal.toList }
  | .gt | .ge => { b with lowerValues := b.lowerValues ++ cond.rhsVal.toList, lowerComp := cond.op }
  | .lt | .le => { b with upperValues := b.upperValues ++ cond.rhsVal.toList, upperComp := cond.op }
  | .ne => b

/-- The loop over the index columns, with the one over the conditions inside. -/
def collect (cols : List ColMeta) (conds : List Condition) : CondBounds :=
  cols.foldl (fun b col =>
    conds.foldl (fun b cond => if col.name = cond.lhsCol.colName then b.add cond else b) b) start

/-- The assertion of `get_bound`. -/
def Balanced (b : CondBounds) : Prop :=
  b.lowerValues.length = b.upperValues.length ∨ b.upperValues.length = b.lowerValues.length + 1 ∨
    b.lowerValues.length = b.upperValues.length + 1

instance (b : CondBounds) : Decidable b.Balanced :=
  inferInstanceAs (Decidable (_ ∨ _))

def lowerFull (b : CondBounds) (cols : List ColMeta) : List Value :=
  b.lowerValues ++ (cols.drop b.lowerValues.length).map fun col =>
    if b.lowerComp = .gt then col.ixCol.generateMax else col.ixCol.generateMin

def upperFull (b : CondBounds) (cols : List ColMeta) : List Value :=
  b.upperValues ++ (cols.drop b.upperValues.length).map fun col =>
    if b.upperComp = .lt then col.ixCol.generateMin else col.ixCol.generateMax

end CondBounds

/-- The keys that `new char[]` hands out, whatever their bytes are. -/
structure GapBuffers (cols : List IxCol) where
  lowerKey : IxKey cols
  upperKey : IxKey cols
  lowerBound : IxKey cols
  upperBound : IxKey cols

/-- The two ends of a scan, and the two keys of its gap. -/
abbrev GapRange (cols : List IxCol) : Type := (Iid × Iid) × IxKey cols × IxKey cols

variable {index : IndexMeta}

/-- `get_bound`. `next` moves the offset for an empty list; the searches are given the values and
the key that is made of them. `none` is an assertion that fails. -/
def getBoundWith (next : Nat → Nat → Nat)
    (lowerBound upperBound : List Value → IxKey index.ixCols → Option Iid)
    (s : IxFile (IxKey index.ixCols)) (conds : List Condition)
    (lowerKey upperKey : IxKey index.ixCols) : Option (GapRange index.ixCols) :=
  if conds = [] then
    s.leafEnd.map fun last =>
      ((s.leafBegin, last),
        copyValues next 0 index.ixCols (index.ixCols.map IxCol.generateMin) lowerKey,
        copyValues next 0 index.ixCols (index.ixCols.map IxCol.generateMax) upperKey)
  else
    let b := CondBounds.collect index.cols conds
    if b.Balanced then
      let lowerValues := b.lowerFull index.cols
      let upperValues := b.upperFull index.cols
      let lowerKey := copyValues (· + ·) 0 index.ixCols lowerValues lowerKey
      let upperKey := copyValues (· + ·) 0 index.ixCols upperValues upperKey
      (if b.upperComp = .lt then lowerBound upperValues upperKey
        else upperBound upperValues upperKey).bind fun upper =>
      (if b.lowerComp = .gt then upperBound lowerValues lowerKey
        else lowerBound lowerValues lowerKey).map fun lower =>
      ((lower, upper), lowerKey, upperKey)
    else none

/-- `get_gap_lock_key`. `equal` is what becomes of the lower key where it is the key of its place.
`none` is an error or an assertion that fails. -/
def getGapLockKeyWith (equal : IxKey index.ixCols → IxKey index.ixCols → IxKey index.ixCols)
    (L : IxLayout (IxKey index.ixCols)) (s : IxFile (IxKey index.ixCols))
    (lowerBuf upperBuf : IxKey index.ixCols) (range : GapRange index.ixCols) :
    Option (GapRange index.ixCols) :=
  (s.getKey L range.1.1 lowerBuf).bind fun lowerBound =>
  (s.getKey L range.1.2 upperBuf).bind fun upperBound =>
  (if range.2.1 < lowerBound then
    (s.minusOne range.1.1).bind fun
      | none => some range.2.1
      | some iid => s.getKey L iid lowerBound
  else if range.2.1 = lowerBound then some (equal range.2.1 lowerBound)
  else none).map fun lowerKey => (range.1, lowerKey, upperBound)

namespace IndexScanExecutor

/-- `IndexScanExecutor::get_bound`. -/
def getBound (L : IxLayout (IxKey index.ixCols)) (s : IxFile (IxKey index.ixCols)) :
    List Condition → IxKey index.ixCols → IxKey index.ixCols → Option (GapRange index.ixCols) :=
  getBoundWith (· + ·) (fun vals _ => s.lowerBoundValues L vals)
    (fun vals _ => s.upperBoundValues L vals) s

/-- `IndexScanExecutor::get_gap_lock_key`. -/
def getGapLockKey (L : IxLayout (IxKey index.ixCols)) (s : IxFile (IxKey index.ixCols)) :
    IxKey index.ixCols → IxKey index.ixCols → GapRange index.ixCols →
      Option (GapRange index.ixCols) :=
  getGapLockKeyWith (fun _ lowerBound => lowerBound) L s

/-- What `beginTuple` hands to the lock manager. -/
def gap (L : IxLayout (IxKey index.ixCols)) (s : IxFile (IxKey index.ixCols))
    (conds : List Condition) (bufs : GapBuffers index.ixCols) : Option (GapRange index.ixCols) :=
  (getBound L s conds bufs.lowerKey bufs.upperKey).bind
    (getGapLockKey L s bufs.lowerBound bufs.upperBound)

end IndexScanExecutor

namespace LockManager

/-- `LockManager::get_bound`. The loops for an empty list do not move their offset, and the searches
take the bytes of the keys. -/
def getBound (L : IxLayout (IxKey index.ixCols)) (s : IxFile (IxKey index.ixCols)) :
    List Condition → IxKey index.ixCols → IxKey index.ixCols → Option (GapRange index.ixCols) :=
  getBoundWith (fun offset _ => offset) (fun _ key => s.lowerBound L key)
    (fun _ key => s.upperBound L key) s

/-- `LockManager::get_gap_lock_key`. -/
def getGapLockKey (L : IxLayout (IxKey index.ixCols)) (s : IxFile (IxKey index.ixCols)) :
    IxKey index.ixCols → IxKey index.ixCols → GapRange index.ixCols →
      Option (GapRange index.ixCols) :=
  getGapLockKeyWith (fun lowerKey _ => lowerKey) L s

/-- What `calculate_gaps_on_table` makes of the conditions of a gap. -/
def gap (L : IxLayout (IxKey index.ixCols)) (s : IxFile (IxKey index.ixCols))
    (conds : List Condition) (bufs : GapBuffers index.ixCols) : Option (GapRange index.ixCols) :=
  (getBound L s conds bufs.lowerKey bufs.upperKey).bind
    (getGapLockKey L s bufs.lowerBound bufs.upperBound)

end LockManager

namespace IndexMeta

/-- The conditions on the index have a strict lower bound. -/
def StrictLow (conds : List Condition) : Prop := ∃ cond ∈ conds, cond.op = .gt

def StrictHigh (conds : List Condition) : Prop := ∃ cond ∈ conds, cond.op = .lt

instance (conds : List Condition) : Decidable (StrictLow conds) :=
  inferInstanceAs (Decidable (∃ cond ∈ conds, cond.op = .gt))

instance (conds : List Condition) : Decidable (StrictHigh conds) :=
  inferInstanceAs (Decidable (∃ cond ∈ conds, cond.op = .lt))

variable (index : IndexMeta) (conds : List Condition)

/-- The lower corner of the conditions: the literals of `=`, `>` and `>=` in the order of the
columns, and behind them the greatest values if there is a `>`, else the least ones. -/
def lowKey : IxKey index.ixCols :=
  IxKey.ofValues index.ixCols (corner CompOp.isLower
    (if StrictLow conds then IxCol.generateMax else IxCol.generateMin) index.cols conds)

/-- The upper corner: the literals of `=`, `<` and `<=`, and behind them the least values if there
is a `<`, else the greatest ones. -/
def highKey : IxKey index.ixCols :=
  IxKey.ofValues index.ixCols (corner CompOp.isUpper
    (if StrictHigh conds then IxCol.generateMin else IxCol.generateMax) index.cols conds)

/-- A key in front of the range. -/
def Below (k : IxKey index.ixCols) : Prop :=
  if StrictLow conds then k ≤ index.lowKey conds else k < index.lowKey conds

/-- A key in front of the end of the range. -/
def Within (k : IxKey index.ixCols) : Prop :=
  if StrictHigh conds then k < index.highKey conds else k ≤ index.highKey conds

end IndexMeta

section Collect

variable {cols : List ColMeta} {conds : List Condition} {b : CondBounds}

namespace CondBounds

theorem foldl_add_lower (conds : List Condition) (b : CondBounds) :
    (conds.foldl add b).lowerValues =
      b.lowerValues ++ (conds.filter fun c => c.op.isLower).filterMap Condition.rhsVal := by
  induction conds generalizing b with
  | nil => simp
  | cons cond conds ih =>
    rw [List.foldl_cons, ih]
    cases hop : cond.op <;> cases hval : cond.rhsVal <;>
      simp [add, hop, hval, CompOp.isLower]

theorem foldl_add_upper (conds : List Condition) (b : CondBounds) :
    (conds.foldl add b).upperValues =
      b.upperValues ++ (conds.filter fun c => c.op.isUpper).filterMap Condition.rhsVal := by
  induction conds generalizing b with
  | nil => simp
  | cons cond conds ih =>
    rw [List.foldl_cons, ih]
    cases hop : cond.op <;> cases hval : cond.rhsVal <;>
      simp [add, hop, hval, CompOp.isUpper]

/-- The operator of the last lower bound. -/
theorem foldl_add_lowerComp (conds : List Condition) (b : CondBounds) :
    (conds.foldl add b).lowerComp =
      ((conds.filter fun c => c.op = .gt ∨ c.op = .ge).getLast?.map Condition.op).getD
        b.lowerComp := by
  induction conds using List.reverseRecOn with
  | nil => rfl
  | append_singleton conds cond ih =>
    rw [List.foldl_append, List.foldl_cons, List.foldl_nil, List.filter_append]
    cases hop : cond.op <;> simp [add, hop, ih]

theorem foldl_add_upperComp (conds : List Condition) (b : CondBounds) :
    (conds.foldl add b).upperComp =
      ((conds.filter fun c => c.op = .lt ∨ c.op = .le).getLast?.map Condition.op).getD
        b.upperComp := by
  induction conds using List.reverseRecOn with
  | nil => rfl
  | append_singleton conds cond ih =>
    rw [List.foldl_append, List.foldl_cons, List.foldl_nil, List.filter_append]
    cases hop : cond.op <;> simp [add, hop, ih]

end CondBounds

namespace Ranged

/-- The two loops meet the conditions in their order. -/
theorem visited (h : Ranged cols conds) (hnodup : (cols.map ColMeta.name).Nodup) :
    (cols.flatMap fun col => conds.filter fun cond => col.name = cond.lhsCol.colName) = conds := by
  induction h with
  | nil => simp
  | @eq col cols cond conds v hname hop hval hv h ih =>
    obtain ⟨hfresh, hnodup⟩ := List.nodup_cons.mp hnodup
    have hhead : (conds.filter fun cond => decide (col.name = cond.lhsCol.colName)) = [] := by
      refine List.filter_eq_nil_iff.mpr fun c hc => ?_
      rw [decide_eq_true_eq]
      exact fun heq => hfresh (heq ▸ h.names c hc)
    have htail : ∀ col' ∈ cols, ((cond :: conds).filter fun cond =>
        decide (col'.name = cond.lhsCol.colName)) =
          conds.filter fun cond => decide (col'.name = cond.lhsCol.colName) := by
      intro col' hcol'
      rw [List.filter_cons_of_neg]
      rw [decide_eq_true_eq, hname]
      exact fun heq => hfresh (heq ▸ List.mem_map_of_mem hcol')
    rw [List.flatMap_cons, List.filter_cons_of_pos (by simp [hname]), hhead,
      List.flatMap_congr htail, ih hnodup]
    rfl
  | @range col cols conds lower upper hlower hupper hconds =>
    obtain ⟨hfresh, -⟩ := List.nodup_cons.mp hnodup
    have hhead : (conds.filter fun cond => decide (col.name = cond.lhsCol.colName)) = conds := by
      refine List.filter_eq_self.mpr fun c hc => ?_
      rw [decide_eq_true_eq, (hconds c hc).1]
    have htail : (cols.flatMap fun col' => conds.filter fun cond =>
        decide (col'.name = cond.lhsCol.colName)) = [] := by
      refine List.flatMap_eq_nil_iff.mpr fun col' hcol' => List.filter_eq_nil_iff.mpr fun c hc => ?_
      rw [decide_eq_true_eq, (hconds c hc).1]
      exact fun heq => hfresh (heq ▸ List.mem_map_of_mem hcol')
    rw [List.flatMap_cons, hhead, htail, List.append_nil]

theorem collect_eq (h : Ranged cols conds) (hnodup : (cols.map ColMeta.name).Nodup) :
    CondBounds.collect cols conds = conds.foldl CondBounds.add .start := by
  have hloops : CondBounds.collect cols conds =
      (cols.flatMap fun col => conds.filter fun cond => col.name = cond.lhsCol.colName).foldl
        CondBounds.add .start := by
    simp only [CondBounds.collect, List.foldl_flatMap, List.foldl_filter, decide_eq_true_eq]
  rw [hloops, h.visited hnodup]

/-- There is no more than one strict or inclusive lower bound. -/
theorem one_lower (h : Ranged cols conds) :
    ∃ lower : Option Condition, (conds.filter fun c => c.op = .gt ∨ c.op = .ge) = lower.toList := by
  induction h with
  | nil => exact ⟨none, rfl⟩
  | @eq col cols cond conds v hname hop hval hv h ih =>
    obtain ⟨lower, hlower⟩ := ih
    exact ⟨lower, by rw [List.filter_cons_of_neg (by simp [hop]), hlower]⟩
  | @range col cols conds lower upper hlower hupper hconds =>
    refine ⟨lower, ?_⟩
    rw [← hlower]
    refine List.filter_congr fun c hc => ?_
    have hne := (hconds c hc).2.1.1
    cases hop : c.op <;> simp [CompOp.isLower, hop] at hne ⊢

theorem one_upper (h : Ranged cols conds) :
    ∃ upper : Option Condition, (conds.filter fun c => c.op = .lt ∨ c.op = .le) = upper.toList := by
  induction h with
  | nil => exact ⟨none, rfl⟩
  | @eq col cols cond conds v hname hop hval hv h ih =>
    obtain ⟨upper, hupper⟩ := ih
    exact ⟨upper, by rw [List.filter_cons_of_neg (by simp [hop]), hupper]⟩
  | @range col cols conds lower upper hlower hupper hconds =>
    refine ⟨upper, ?_⟩
    rw [← hupper]
    refine List.filter_congr fun c hc => ?_
    have hne := (hconds c hc).2.1.1
    cases hop : c.op <;> simp [CompOp.isUpper, hop] at hne ⊢

theorem lowerComp_iff (h : Ranged cols conds) :
    (conds.foldl CondBounds.add .start).lowerComp = .gt ↔ IndexMeta.StrictLow conds := by
  obtain ⟨lower, hlower⟩ := h.one_lower
  have hmem : ∀ c, c ∈ conds ∧ (c.op = .gt ∨ c.op = .ge) ↔ lower = some c := by
    intro c
    rw [← Option.mem_toList, ← hlower, List.mem_filter, decide_eq_true_eq]
  rw [CondBounds.foldl_add_lowerComp, hlower]
  cases lower with
  | none =>
    refine ⟨fun hop => (by cases hop), fun ⟨c, hc, hop⟩ => ?_⟩
    cases (hmem c).mp ⟨hc, Or.inl hop⟩
  | some c =>
    show c.op = .gt ↔ _
    refine ⟨fun hop => ⟨c, ((hmem c).mpr rfl).1, hop⟩, fun ⟨c', hc', hop⟩ => ?_⟩
    cases (hmem c').mp ⟨hc', Or.inl hop⟩
    exact hop

theorem upperComp_iff (h : Ranged cols conds) :
    (conds.foldl CondBounds.add .start).upperComp = .lt ↔ IndexMeta.StrictHigh conds := by
  obtain ⟨upper, hupper⟩ := h.one_upper
  have hmem : ∀ c, c ∈ conds ∧ (c.op = .lt ∨ c.op = .le) ↔ upper = some c := by
    intro c
    rw [← Option.mem_toList, ← hupper, List.mem_filter, decide_eq_true_eq]
  rw [CondBounds.foldl_add_upperComp, hupper]
  cases upper with
  | none =>
    refine ⟨fun hop => (by cases hop), fun ⟨c, hc, hop⟩ => ?_⟩
    cases (hmem c).mp ⟨hc, Or.inl hop⟩
  | some c =>
    show c.op = .lt ↔ _
    refine ⟨fun hop => ⟨c, ((hmem c).mpr rfl).1, hop⟩, fun ⟨c', hc', hop⟩ => ?_⟩
    cases (hmem c').mp ⟨hc', Or.inl hop⟩
    exact hop

/-- The equalities count on both sides, and a range has at most one bound on each. -/
theorem lengths (h : Ranged cols conds) :
    ((conds.filter fun c => c.op.isLower).filterMap Condition.rhsVal).length ≤
        ((conds.filter fun c => c.op.isUpper).filterMap Condition.rhsVal).length + 1 ∧
      ((conds.filter fun c => c.op.isUpper).filterMap Condition.rhsVal).length ≤
        ((conds.filter fun c => c.op.isLower).filterMap Condition.rhsVal).length + 1 := by
  have hone : ∀ bound : Option Condition,
      (bound.toList.filterMap Condition.rhsVal).length ≤ 1 := by
    intro bound
    refine (List.length_filterMap_le _ _).trans ?_
    cases bound with
    | none => exact Nat.zero_le 1
    | some c => exact Nat.le_refl 1
  induction h with
  | nil => exact ⟨Nat.zero_le _, Nat.zero_le _⟩
  | @eq col cols cond conds v hname hop hval hv h ih =>
    rw [List.filter_cons_of_pos (by rw [hop]; rfl), List.filter_cons_of_pos (by rw [hop]; rfl),
      List.filterMap_cons_some hval, List.filterMap_cons_some hval, List.length_cons,
      List.length_cons]
    omega
  | @range col cols conds lower upper hlower hupper hconds =>
    have hlow := hone lower
    have hhigh := hone upper
    rw [hlower, hupper]
    omega

end Ranged

end Collect

end Grmdb
