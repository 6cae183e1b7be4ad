import Grmdb.CondMeaning

namespace Grmdb

section

variable {left right : Executor} {conds : List Condition} {cond : Condition} {rowsL rowsR : List Bytes}
  {l r : Bytes}

/-- The column of the pair: the left input is asked first. -/
def sideCol (left right : Executor) (target : TabCol) : Option ColMeta :=
  (findCol left.cols target).or (findCol right.cols target)

/-- Its value, in the record that it belongs to. -/
def sideValue (left right : Executor) (l r : Bytes) (target : TabCol) : Option Value :=
  match findCol left.cols target with
  | some col => col.read l
  | none => (findCol right.cols target).bind fun col => col.read r

/-- What a condition says about a pair of records. -/
def pairMeets (left right : Executor) (l r : Bytes) (cond : Condition) : Bool :=
  match sideValue left right l r cond.lhsCol, sideValue left right l r cond.rhsCol with
  | some v, some w => v.meets w cond.op
  | _, _ => false

/-- A condition between two columns of the same type. -/
structure MatchesTypes (left right : Executor) (cond : Condition) : Prop where
  isCol : cond.isRhsVal = false
  cols : ∃ lhs rhs, sideCol left right cond.lhsCol = some lhs ∧
    sideCol left right cond.rhsCol = some rhs ∧ lhs.type = rhs.type

/-- The records of an input, with INT and CHAR columns in them. -/
structure PlainRows (exec : Executor) (rows : List Bytes) : Prop where
  cols : ∀ col ∈ exec.cols, col.Plain exec.tupleLen
  records : ∀ row ∈ rows, row.length = exec.tupleLen

/-- The joined record holds the values of both. -/
theorem getValue_join (hl : l.length = left.tupleLen) {target : TabCol} {v : Value}
    (h : sideValue left right l r target = some v) :
    getValue (joinCols left right) target (l ++ r) = some v := by
  unfold sideValue at h
  rw [getValue, joinCols, findCol_append, findCol_shift]
  cases hcol : findCol left.cols target with
  | some col =>
    rw [hcol] at h
    exact ColMeta.read_append_left h
  | none =>
    rw [hcol] at h
    obtain ⟨col, hright, hread⟩ := Option.bind_eq_some_iff.mp h
    rw [hright, Option.none_or, Option.map_some, Option.bind_some, ← hl,
      ColMeta.read_append_right]
    exact hread

theorem sideValue_isSome (hL : PlainRows left rowsL) (hR : PlainRows right rowsR) (hl : l ∈ rowsL)
    (hr : r ∈ rowsR) {target : TabCol} {col : ColMeta}
    (h : sideCol left right target = some col) :
    ∃ v, sideValue left right l r target = some v ∧ v.type = col.type ∧
      (v.type = .int ∨ v.type = .string) := by
  unfold sideValue
  unfold sideCol at h
  cases hcol : findCol left.cols target with
  | some colL =>
    rw [hcol, Option.some_or] at h
    cases h
    have hplain := hL.cols _ (List.mem_of_find?_eq_some hcol)
    rw [← hL.records l hl] at hplain
    obtain ⟨v, hread, htype⟩ := hplain.read
    exact ⟨v, hread, htype, htype ▸ hplain.int_or_string⟩
  | none =>
    rw [hcol, Option.none_or] at h
    have hplain := hR.cols _ (List.mem_of_find?_eq_some h)
    rw [← hR.records r hr] at hplain
    obtain ⟨v, hread, htype⟩ := hplain.read
    refine ⟨v, ?_, htype, htype ▸ hplain.int_or_string⟩
    rw [h]
    exact hread

theorem evalConds_join (hL : PlainRows left rowsL) (hR : PlainRows right rowsR)
    (hconds : ∀ cond ∈ conds, MatchesTypes left right cond) (hl : l ∈ rowsL) (hr : r ∈ rowsR) :
    evalConds (joinCols left right) conds (l ++ r) =
      some (conds.all (pairMeets left right l r)) := by
  refine evalConds_all fun cond hcond => ?_
  obtain ⟨hisCol, lhs, rhs, hlhs, hrhs, htype⟩ := hconds cond hcond
  obtain ⟨v, hv, hvtype, hplain⟩ := sideValue_isSome hL hR hl hr hlhs
  obtain ⟨w, hw, hwtype, -⟩ := sideValue_isSome hL hR hl hr hrhs
  have hlen := hL.records l hl
  have hright : (if cond.isRhsVal then cond.rhsVal
      else getValue (joinCols left right) cond.rhsCol (l ++ r)) = some w := by
    rw [hisCol, if_neg (by simp)]
    exact getValue_join hlen hw
  have hsame : v.type = w.type := by rw [hvtype, htype, hwtype]
  rw [evalCond_meets (getValue_join hlen hv) hright hsame hplain, pairMeets, hv, hw]

/-- The filtered cross product, in outer-major order. -/
def filteredProduct (left right : Executor) (conds : List Condition) (rowsL rowsR : List Bytes) :
    List Bytes :=
  ((rowsL ×ˢ rowsR).filter fun pair => conds.all (pairMeets left right pair.1 pair.2)).map
    fun pair => pair.1 ++ pair.2

/-- `beginTuple` starts the same records from every place that calls can come to. -/
def Executor.Restarts (exec : Executor) (rows : List Bytes) : Prop :=
  ∃ At, exec.cursor.Walks exec.init rows At

end

/-- What a plan yields restarts where the plan is steady, such as a scan of a table: only an index
scan asks something for that, places that do not depend on the memory of its keys. -/
theorem Plan.Yields.restarts {db : Database} {fuel : Nat} {plan : Plan} {exec : Executor}
    {rows : List Bytes} (h : plan.Yields db fuel exec rows) (hsteady : plan.Steady db fuel) :
    exec.Restarts rows :=
  hsteady.walks h

/-- A nested-loop join of two inputs that restart is their filtered cross product. The constructor
makes its second child the outer one. -/
theorem nestedLoopJoin_filters (outer inner : Executor) (rowsL rowsR : List Bytes)
    (conds : List Condition) (hrestartsL : outer.Restarts rowsL) (hrestartsR : inner.Restarts rowsR)
    (hL : PlainRows outer rowsL) (hR : PlainRows inner rowsR)
    (hconds : ∀ cond ∈ conds, MatchesTypes outer inner cond) :
    ∃ n, ∀ fuel, n ≤ fuel →
      (nestedLoopJoinExecutor fuel inner outer conds).FirstPass
        (filteredProduct outer inner conds rowsL rowsR) := by
  obtain ⟨AtL, hwalksL⟩ := hrestartsL
  obtain ⟨AtR, hwalksR⟩ := hrestartsR
  refine ⟨(rowsL ×ˢ rowsR).length, fun fuel hfuel => ?_⟩
  refine nestedLoopCursor_delivers hwalksL hwalksR (fun pair hpair => ?_) hfuel
  obtain ⟨hl, hr⟩ := List.mem_product.mp hpair
  exact evalConds_join hL hR hconds hl hr

theorem nestedLoopJoin_filters_twoRows :
    ∃ outer inner : Executor, ∃ n, ∀ fuel, n ≤ fuel →
      (nestedLoopJoinExecutor fuel inner outer [⟨⟨"a", "x"⟩, .lt, false, ⟨"b", "x"⟩, none⟩]).FirstPass
        (filteredProduct outer inner [⟨⟨"a", "x"⟩, .lt, false, ⟨"b", "x"⟩, none⟩]
          [[2, 0, 0, 0, 5, 0, 0, 0], [1, 0, 0, 0, 7, 0, 0, 0]]
          [[2, 0, 0, 0, 5, 0, 0, 0], [1, 0, 0, 0, 7, 0, 0, 0]]) := by
  have hyields : ∀ t, ∃ exec, (Plan.scan ⟨false, t, [], []⟩).Yields twoRowsDatabase 2 exec
      [[2, 0, 0, 0, 5, 0, 0, 0], [1, 0, 0, 0, 7, 0, 0, 0]] ∧
      exec.cols = [⟨t, "x", .int, 4, 0⟩, ⟨t, "y", .int, 4, 4⟩] ∧ exec.tupleLen = 8 :=
    fun t => ⟨_, ⟨rfl, _, rfl, .cons rfl rfl rfl (.cons rfl rfl rfl (.nil rfl))⟩, rfl, rfl⟩
  obtain ⟨outer, houter, hcolsL, hlenL⟩ := hyields "a"
  obtain ⟨inner, hinner, hcolsR, hlenR⟩ := hyields "b"
  have hplain : ∀ exec : Executor, ∀ t, exec.cols = [⟨t, "x", .int, 4, 0⟩, ⟨t, "y", .int, 4, 4⟩] →
      exec.tupleLen = 8 →
      PlainRows exec [[2, 0, 0, 0, 5, 0, 0, 0], [1, 0, 0, 0, 7, 0, 0, 0]] := by
    intro exec t hcols hlen
    constructor
    · rw [hcols, hlen]
      intro col hcol
      simp only [List.mem_cons, List.not_mem_nil, or_false] at hcol
      rcases hcol with rfl | rfl
      · exact ⟨Or.inl ⟨rfl, rfl⟩, by simp⟩
      · exact ⟨Or.inl ⟨rfl, rfl⟩, by simp⟩
    · rw [hlen]
      decide
  have hsequential : ∀ t, (Plan.scan ⟨false, t, [], []⟩).Steady twoRowsDatabase 2 :=
    fun t hindex => absurd hindex (by simp)
  refine ⟨outer, inner, nestedLoopJoin_filters outer inner _ _ _ (houter.restarts (hsequential "a"))
    (hinner.restarts (hsequential "b")) (hplain outer "a" hcolsL hlenL) (hplain inner "b" hcolsR hlenR)
    fun cond hcond => ?_⟩
  rw [List.mem_singleton] at hcond
  subst hcond
  refine ⟨rfl, ⟨"a", "x", .int, 4, 0⟩, ⟨"b", "x", .int, 4, 0⟩, ?_, ?_, rfl⟩
  · rw [sideCol, hcolsL]
    rfl
  · rw [sideCol, hcolsL, hcolsR]
    rfl

end Grmdb
