import Grmdb.SmMeta

namespace Grmdb

structure TabCol where
  tabName : String
  colName : String
  deriving DecidableEq, Repr

inductive CompOp where
  | eq
  | ne
  | lt
  | gt
  | le
  | ge
  deriving DecidableEq, Repr

/-- A literal. A `float` is kept as its bits. -/
inductive Value where
  | int (intVal : Int)
  | float (bits : UInt32)
  | string (strVal : Bytes)
  deriving DecidableEq, Repr

/-- The right side is a column for `isRhsVal = false`; the other field is then the one that the
constructor leaves. -/
structure Condition where
  lhsCol : TabCol
  op : CompOp
  isRhsVal : Bool
  rhsCol : TabCol
  rhsVal : Option Value
  deriving DecidableEq, Repr

/-- `swap_op` of the planner. -/
def CompOp.swap : CompOp → CompOp
  | .eq => .eq
  | .ne => .ne
  | .lt => .gt
  | .gt => .lt
  | .le => .ge
  | .ge => .le

/-- The condition with its operands exchanged. -/
def Condition.swap (cond : Condition) : Condition :=
  { cond with lhsCol := cond.rhsCol, rhsCol := cond.lhsCol, op := cond.op.swap }

/-- `op` has no value where the analyzer does not set it. -/
structure SubQueryClause where
  lhs : TabCol
  op : Option CompOp
  inClause : Bool
  deriving DecidableEq, Repr

inductive AggrType where
  | sum
  | max
  | min
  | count
  | countStar
  deriving DecidableEq, Repr

structure AggrCol where
  tabCol : TabCol
  type : AggrType
  aliasName : String
  deriving DecidableEq, Repr

structure HavingCond where
  lhsCol : AggrCol
  op : CompOp
  rhsVal : Value
  deriving DecidableEq, Repr

/-- The tables of the catalog, `db_.tabs_`. -/
abbrev Catalog := String → Option TabMeta

structure ScanPlan where
  indexScan : Bool
  tabName : String
  conds : List Condition
  indexColNames : List String
  deriving DecidableEq, Repr

/-- Query plans; `null` is the null pointer. -/
inductive Plan where
  | null
  | scan (scan : ScanPlan)
  | scanSub (scan : ScanPlan) (subClause : SubQueryClause) (subPlan : Plan)
  | values (values : List Value) (col : ColMeta)
  | join (sortMerge : Bool) (left right : Plan) (conds : List Condition)
  | sort (subplan : Plan) (selCol : TabCol) (isDesc : Bool)
  | aggr (subplan : Plan) (havings : List HavingCond) (aggregates : List AggrCol)
      (groupBys : List TabCol)
  | projection (subplan : Plan) (cols selCols : List TabCol)
  deriving DecidableEq, Repr

namespace IndexMeta

/-- The loop of `MatchIndex` over the columns of the index. -/
def matchedConds (conditions : List Condition) : List ColMeta → List Condition
  | [] => []
  | col :: cols =>
    let here := conditions.filter fun cond => cond.lhsCol.colName = col.name
    match here with
    | [cond] => cond :: if cond.op = .eq then matchedConds conditions cols else []
    | _ => []

/-- `MatchIndex`: the reordered conditions when it returns true. -/
def matchIndex (index : IndexMeta) (conditions : List Condition) : Option (List Condition) :=
  let newConds := matchedConds conditions index.cols
  if newConds.length = conditions.length then some newConds else none

end IndexMeta

namespace TabMeta

/-- The pairs of operators that bound one column from both sides. -/
def validPair : CompOp → CompOp → Bool
  | .le, .ge | .le, .gt | .lt, .ge | .lt, .gt => true
  | .ge, .le | .ge, .lt | .gt, .lt | .gt, .le => true
  | _, _ => false

/-- The names of the index columns when it returns true. -/
def matchIndexSingle (tab : TabMeta) : List Condition → Option (List String)
  | [cond] =>
    let names := [cond.lhsCol.colName]
    if tab.isIndex names then some names else none
  | [cond, cond'] =>
    let names := [cond.lhsCol.colName]
    if validPair cond.op cond'.op ∧ tab.isIndex names then some names else none
  | _ => none

/-- The loop of `MatchIndexMultiple`: the conditions as the matches so far have left them, the
index chosen so far, and the bound that the next one has to stay below. -/
def matchIndexLoop : List IndexMeta → Nat → List Condition → Option IndexMeta →
    List Condition × Option IndexMeta
  | [], _, conditions, chosen => (conditions, chosen)
  | index :: rest, maxMatchNum, conditions, chosen =>
    if index.colNum < maxMatchNum then
      match index.matchIndex conditions with
      | some newConds => matchIndexLoop rest index.colNum newConds (some index)
      | none => matchIndexLoop rest maxMatchNum conditions chosen
    else matchIndexLoop rest maxMatchNum conditions chosen

def matchIndexMultiple (tab : TabMeta) (conditions : List Condition) :
    List Condition × List String :=
  let (conds, chosen) := matchIndexLoop tab.indexes (IX_MAX_COL_LEN + 1) conditions none
  (conds, chosen.elim [] fun index => index.cols.map ColMeta.name)

end TabMeta

/-- `Planner::get_index_cols`: the conditions as it leaves them and the index columns when it
returns true; `none` is the `TableNotFoundError`. -/
def getIndexCols (cat : Catalog) (tabName : String) (currConds : List Condition) :
    Option (List Condition × Option (List String)) :=
  if currConds.any fun cond =>
      !cond.isRhsVal || cond.lhsCol.tabName != tabName || cond.op == .ne then
    some (currConds, none)
  else
    (cat tabName).map fun tab =>
      match currConds with
      | [] => (currConds, tab.indexes.head?.map fun index => index.cols.map ColMeta.name)
      | [_] => (currConds, tab.matchIndexSingle currConds)
      | [cond, cond'] =>
        if cond.lhsCol.colName = cond'.lhsCol.colName then
          (currConds, tab.matchIndexSingle currConds)
        else
          let (conds, names) := tab.matchIndexMultiple currConds
          (conds, if names.isEmpty then none else some names)
      | _ =>
        let (conds, names) := tab.matchIndexMultiple currConds
        (conds, if names.isEmpty then none else some names)

/-- The test of `pop_conds`. -/
def Condition.popped (cond : Condition) (tabName : String) : Bool :=
  (cond.lhsCol.tabName == tabName && cond.isRhsVal) ||
    cond.lhsCol.tabName == cond.rhsCol.tabName

/-- `pop_conds`: the conditions for the scan, and those that stay. -/
def popConds (conds : List Condition) (tabName : String) : List Condition × List Condition :=
  conds.partition fun cond => cond.popped tabName

/-- What `push_conds` returns: 0, 1, 2 or 3. -/
inductive Pushed where
  | no
  | lhs
  | rhs
  | placed
  deriving DecidableEq, Repr

/-- `left_res + right_res`, where one of them is 0. -/
def Pushed.add : Pushed → Pushed → Pushed
  | .no, r => r
  | l, _ => l

def pushScan (cond : Condition) (tabName : String) : Pushed :=
  if tabName = cond.lhsCol.tabName then .lhs
  else if tabName = cond.rhsCol.tabName then .rhs
  else .no

/-- `push_conds`: the plan with the condition on the node it belongs to. -/
def pushConds (cond : Condition) : Plan → Plan × Pushed
  | .scan s => (.scan s, pushScan cond s.tabName)
  | .scanSub s clause sub => (.scanSub s clause sub, pushScan cond s.tabName)
  | .join sm left right conds =>
    match pushConds cond left with
    | (left', .placed) => (.join sm left' right conds, .placed)
    | (_, leftRes) =>
      match pushConds cond right with
      | (right', .placed) => (.join sm left right' conds, .placed)
      | (_, rightRes) =>
        if leftRes = .no ∨ rightRes = .no then (.join sm left right conds, leftRes.add rightRes)
        else
          (.join sm left right
            (conds ++ [if leftRes = .rhs then cond.swap else cond]), .placed)
  | plan => (plan, .no)

/-- `enable_nestedloop_join` and `enable_sortmerge_join`. -/
structure JoinKnobs where
  nestedloop : Bool
  sortmerge : Bool
  deriving DecidableEq, Repr

namespace Plan

/-- The table of a `ScanPlan`. -/
def tabName : Plan → Option String
  | .scan s => some s.tabName
  | .scanSub s _ _ => some s.tabName
  | _ => none

def isIndexScan : Plan → Bool
  | .scan s => s.indexScan
  | .scanSub s _ _ => s.indexScan
  | _ => false

end Plan

/-- `table_join_executors`, `scantbl` as the positions that it marks, and `joined_tables`. -/
structure JoinState where
  plan : Plan
  scantbl : List Nat
  joinedTables : List String
  deriving DecidableEq, Repr

/-- `pop_scan`: the plan that it returns, and the state with the scan marked. -/
def popScan (plans : List Plan) (st : JoinState) (table : String) : Plan × JoinState :=
  match plans.findIdx? fun plan => plan.tabName = some table with
  | some i =>
    (plans.getD i .null,
      { st with scantbl := st.scantbl ++ [i], joinedTables := st.joinedTables ++ [table] })
  | none => (.null, st)

/-- `generate_sort_merge_plan`, with the one condition it is given. -/
def generateSortMergePlan (left right : Plan) (cond : Condition) : Plan :=
  if left.isIndexScan then .join true left right [cond]
  else .join true (.sort left cond.lhsCol false) (.sort right cond.rhsCol false) [cond]

/-- The first join; `none` is the error that no join executor is selected. -/
def firstJoin (knobs : JoinKnobs) (plans : List Plan) (cond : Condition) : Option JoinState :=
  let st : JoinState := ⟨.null, [], List.replicate plans.length ""⟩
  let (left, st) := popScan plans st cond.lhsCol.tabName
  let (right, st) := popScan plans st cond.rhsCol.tabName
  if knobs.nestedloop then some { st with plan := .join false left right [cond] }
  else if knobs.sortmerge then some { st with plan := generateSortMergePlan left right cond }
  else none

/-- One round of the loop over the other join conditions. -/
def joinStep (plans : List Plan) (st : JoinState) (cond : Condition) : JoinState :=
  let (left, st) :=
    if cond.lhsCol.tabName ∈ st.joinedTables then (.null, st)
    else popScan plans st cond.lhsCol.tabName
  let isneedreverse := decide (cond.rhsCol.tabName ∉ st.joinedTables)
  let (right, st) := if isneedreverse then popScan plans st cond.rhsCol.tabName else (.null, st)
  if left ≠ .null ∧ right ≠ .null then
    { st with plan := .join false (.join false left right [cond]) st.plan [] }
  else if left ≠ .null ∨ right ≠ .null then
    if isneedreverse then { st with plan := .join false right st.plan [cond.swap] }
    else { st with plan := .join false left st.plan [cond] }
  else { st with plan := (pushConds cond st.plan).1 }

/-- The scans that no condition has joined, each on top of the plan so far. -/
def restJoins (plans : List Plan) (st : JoinState) : Plan :=
  (List.range plans.length).foldl
    (fun plan i => if i ∈ st.scantbl then plan else .join false (plans.getD i .null) plan [])
    st.plan

/-- The joins of `make_one_rel` over the scans of its tables. -/
def joinTables (knobs : JoinKnobs) (plans : List Plan) : List Condition → Option Plan
  | [] => some (restJoins plans ⟨plans.getD 0 .null, [0], []⟩)
  | cond :: conds =>
    (firstJoin knobs plans cond).map fun st => restJoins plans (conds.foldl (joinStep plans) st)

/-- The loop of `make_one_rel` over the tables: their scans, and the conditions that are left. -/
def scanTables (cat : Catalog) : List String → List Condition →
    Option (List ScanPlan × List Condition)
  | [], conds => some ([], conds)
  | tab :: tabs, conds =>
    let (currConds, conds) := popConds conds tab
    (getIndexCols cat tab currConds).bind fun (currConds, indexCols) =>
      (cat tab).bind fun _ =>
        (scanTables cat tabs conds).map fun (scans, conds) =>
          (⟨indexCols.isSome, tab, currConds, indexCols.getD []⟩ :: scans, conds)

/-- `Planner::make_one_rel` for `tables` and the conditions `conds`; `leaf` puts the plan of the
subquery, where the query has one, under the scan of the table at its position. -/
def makeOneRel (cat : Catalog) (knobs : JoinKnobs) (leaf : Nat → ScanPlan → Plan)
    (tables : List String) (conds : List Condition) : Option Plan :=
  (scanTables cat tables conds).bind fun (scans, conds) =>
    let plans := scans.mapIdx leaf
    if tables.length = 1 then plans.head? else joinTables knobs plans conds

end Grmdb
