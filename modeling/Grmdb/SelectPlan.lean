import Grmdb.WhereConds

namespace Grmdb

open MapM

/-- The operators of a selector; `noOp` is a plain column and `all` stands for `*`. -/
inductive SvAggrType where
  | noOp
  | sum
  | max
  | min
  | count
  | countStar
  | all
  deriving DecidableEq, Repr

/-- A selector. COUNT(*) and `*` have no column. -/
structure AggCol where
  column : TabCol
  aggType : SvAggrType
  hasAlias : Bool
  aliasName : String
  deriving DecidableEq, Repr

structure HavingExpr where
  lhs : AggCol
  op : CompOp
  rhs : Value
  deriving DecidableEq, Repr

structure OrderBy where
  cols : TabCol
  isDesc : Bool
  deriving DecidableEq, Repr

/-- `orderBys` is `none` for `has_sort_ = false`. -/
structure SelectStmt (σ : Type) where
  aggCols : List AggCol
  tabs : List String
  conds : List (BinaryExpr σ)
  groupBys : List TabCol
  havings : List HavingExpr
  orderBys : Option OrderBy
  deriving DecidableEq, Repr

structure Alias where
  hasAlias : Bool
  aliasName : String
  deriving DecidableEq, Repr

/-- An analyzed SELECT. `parse` is its order, which only the outermost query has: the analyzer does
not set the field for a subquery. -/
structure SelectQuery (ρ : Type) where
  query : Query ρ
  cols : List TabCol
  aliases : List Alias
  aggregates : List AggrCol
  groupBys : List TabCol
  havings : List HavingCond
  parse : Option OrderBy
  deriving DecidableEq, Repr

section Analyze

/-- `convert_sv_aggr`; `*` falls out of the switch. -/
def convertSvAggr : SvAggrType → Option AggrType
  | .count => some .count
  | .max => some .max
  | .min => some .min
  | .sum => some .sum
  | .countStar => some .countStar
  | .noOp => none
  | .all => none

/-- `cols`, `aliases_`, `aggregates_` and `non_agg_cols` after some of the selectors. -/
structure SelectCols where
  cols : List TabCol
  aliases : List Alias
  aggregates : List AggrCol
  nonAggCols : List TabCol
  deriving DecidableEq, Repr

/-- One round of the loop over the selectors. -/
def addSelector (allCols : List ColMeta) (st : SelectCols) (col : AggCol) : Option SelectCols :=
  match col.aggType with
  | .all =>
    let selCols := allCols.map fun col => ⟨col.tabName, col.name⟩
    some { st with
      cols := st.cols ++ selCols
      aliases := st.aliases ++ allCols.map fun _ => ⟨false, ""⟩
      nonAggCols := st.nonAggCols ++ selCols }
  | .noOp =>
    (checkColumn allCols col.column).map fun selCol =>
      { st with
        cols := st.cols ++ [selCol]
        aliases := st.aliases ++ [if col.hasAlias then ⟨true, col.aliasName⟩ else ⟨false, ""⟩]
        nonAggCols := st.nonAggCols ++ [selCol] }
  | .countStar =>
    some { st with
      cols := st.cols ++ [⟨"", col.aliasName⟩]
      aliases := st.aliases ++ [⟨false, ""⟩]
      aggregates := st.aggregates ++ [⟨⟨"", ""⟩, .countStar, col.aliasName⟩] }
  | aggType =>
    (checkColumn allCols col.column).bind fun tabCol =>
      (convertSvAggr aggType).map fun type =>
        { st with
          cols := st.cols ++ [⟨col.column.tabName, col.aliasName⟩]
          aliases := st.aliases ++ [⟨false, ""⟩]
          aggregates := st.aggregates ++ [⟨tabCol, type, col.aliasName⟩] }

/-- One round of the loop over the HAVING clause: a plain column has to be grouped by, and its
condition joins those of the WHERE clause without being checked. -/
def addHaving (allCols : List ColMeta) (groupBys : List TabCol)
    (st : List Condition × List HavingCond) (having : HavingExpr) :
    Option (List Condition × List HavingCond) :=
  match having.lhs.aggType with
  | .countStar => some (st.1, st.2 ++ [⟨⟨⟨"", ""⟩, .countStar, ""⟩, having.op, having.rhs⟩])
  | .noOp =>
    (checkColumn allCols having.lhs.column).bind fun lhsCol =>
      if lhsCol ∈ groupBys then
        some (st.1 ++ [⟨lhsCol, having.op, true, ⟨"", ""⟩, some having.rhs⟩], st.2)
      else none
  | aggType =>
    (checkColumn allCols having.lhs.column).bind fun tabCol =>
      (convertSvAggr aggType).map fun type =>
        (st.1, st.2 ++ [⟨⟨tabCol, type, ""⟩, having.op, having.rhs⟩])

variable {σ ρ : Type}

/-- `analyze_one_select`; `analyzeSub` is its call for a subquery. -/
def analyzeOneSelect (cat : Catalog) (analyzeSub : σ → Option ρ) (x : SelectStmt σ) :
    Option (SelectQuery ρ) :=
  (getAllCols cat x.tabs).bind fun allCols =>
    (x.aggCols.foldlM (addSelector allCols) ⟨[], [], [], []⟩).bind fun sel =>
      (analyzeSelect cat analyzeSub x.tabs x.conds).bind fun query =>
        (x.groupBys.mapM (checkColumn allCols)).bind fun groupBys =>
          if groupBys.isEmpty ∨ ∀ col ∈ sel.nonAggCols, col ∈ groupBys then
            (x.havings.foldlM (addHaving allCols groupBys) (query.conds, [])).map
              fun (conds, havings) =>
                ⟨{ query with conds := conds }, sel.cols, sel.aliases, sel.aggregates, groupBys,
                  havings, none⟩
          else none

/-- `do_analyze` for a SELECT. -/
def doAnalyze (cat : Catalog) (analyzeSub : σ → Option ρ) (x : SelectStmt σ) :
    Option (SelectQuery ρ) :=
  (analyzeOneSelect cat analyzeSub x).map fun query => { query with parse := x.orderBys }

end Analyze

section Plan

variable {ρ : Type} (cat : Catalog) (knobs : JoinKnobs) (selectPlan : ρ → Nat → Option Plan)

/-- The column of `generate_sort_plan`: the last one of its name in any of the tables, whatever
table the clause names. -/
def sortCol (allCols : List ColMeta) (colName : String) : TabCol :=
  ((allCols.filter fun col => col.name = colName).getLast?.map fun col =>
    (⟨col.tabName, col.name⟩ : TabCol)).getD ⟨"", ""⟩

/-- `generate_sort_plan`. -/
def generateSortPlan (query : SelectQuery ρ) (plan : Plan) : Option Plan :=
  match query.parse with
  | none => some plan
  | some orderBys => (getAllCols cat query.query.tables).map fun allCols =>
    .sort plan (sortCol allCols orderBys.cols.colName) orderBys.isDesc

/-- `make_aggr_plan`. -/
def makeAggrPlan (query : SelectQuery ρ) : Option Plan :=
  (query.query.makeOneRel cat knobs selectPlan).map fun subplan =>
    .aggr subplan query.havings query.aggregates query.groupBys

/-- `physical_optimization`. -/
def physicalOptimization (query : SelectQuery ρ) : Option Plan :=
  (if query.aggregates.isEmpty ∧ query.groupBys.isEmpty then
    query.query.makeOneRel cat knobs selectPlan
  else makeAggrPlan cat knobs selectPlan query).bind (generateSortPlan cat query)

/-- `sel_cols_` of `ProjectionPlan`: an alias takes the place of the name. -/
def aliasCols : List TabCol → List Alias → List TabCol
  | col :: cols, name :: names =>
    (if name.hasAlias then { col with colName := name.aliasName } else col) :: aliasCols cols names
  | cols, _ => cols

/-- `generate_select_plan`, which is `generate_aggr_plan` too. -/
def generateSelectPlan (query : SelectQuery ρ) : Option Plan :=
  (physicalOptimization cat knobs selectPlan query).map fun plan =>
    .projection plan query.cols (aliasCols query.cols query.aliases)

end Plan

end Grmdb
