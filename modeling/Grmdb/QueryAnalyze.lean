import Grmdb.MapM
import Grmdb.QueryPlan

namespace Grmdb

open MapM

/-- The right side of a condition of the parser; a subquery is a `σ`. -/
inductive SvExpr (σ : Type) where
  | value (val : Value)
  | col (col : TabCol)
  | subquery (subQuery : σ)
  | valueList (values : List Value)
  deriving DecidableEq, Repr

structure BinaryExpr (σ : Type) where
  lhs : TabCol
  inClause : Bool
  op : CompOp
  rhs : SvExpr σ
  deriving DecidableEq, Repr

def Value.type : Value → ColType
  | .int _ => .int
  | .float _ => .float
  | .string _ => .string

/-- `Value::TypeCompatible`. -/
def ColType.compatible (left right : ColType) : Bool :=
  left == right || (left == .int && right == .float) || (left == .float && right == .int)

/-- Whether `init_raw` gets through: its assertions for numbers, the `StringOverflowError` for
strings. -/
def Value.fits (len : Nat) : Value → Bool
  | .int _ => len == 4
  | .float _ => len == 4
  | .string strVal => strVal.length ≤ len

/-- The loop of `check_column`: the table of the one column of this name, empty when there is
none; `none` is the `AmbiguousColumnError`. -/
def inferTable (colName : String) : List ColMeta → String → Option String
  | [], tabName => some tabName
  | col :: cols, tabName =>
    if col.name = colName then
      if tabName = "" then inferTable colName cols col.tabName else none
    else inferTable colName cols tabName

/-- A qualified column is returned as it is, whether it exists or not. -/
def checkColumn (allCols : List ColMeta) (target : TabCol) : Option TabCol :=
  if target.tabName = "" then
    (inferTable target.colName allCols "").bind fun tabName =>
      if tabName = "" then none else some { target with tabName := tabName }
  else some target

def getAllCols (cat : Catalog) (tabNames : List String) : Option (List ColMeta) :=
  (tabNames.mapM cat).map fun tabs => tabs.flatMap TabMeta.cols

/-- `get_clause` for one condition; the ones with a subquery or a list are left to
`analyze_one_select`. -/
def BinaryExpr.clause {σ : Type} (expr : BinaryExpr σ) : Option Condition :=
  match expr.rhs with
  | .value val => some ⟨expr.lhs, expr.op, true, ⟨"", ""⟩, some val⟩
  | .col col => some ⟨expr.lhs, expr.op, false, col, none⟩
  | .subquery _ => none
  | .valueList _ => none

def getClause {σ : Type} (svConds : List (BinaryExpr σ)) : List Condition :=
  svConds.filterMap BinaryExpr.clause

/-- The type of the right side, which `check_clause` compares with that of the left side. -/
def Condition.rhsType (cat : Catalog) (cond : Condition) (lhsCol : ColMeta) : Option ColType :=
  if cond.isRhsVal then
    cond.rhsVal.bind fun val => if val.fits lhsCol.len then some val.type else none
  else
    (cat cond.rhsCol.tabName).bind fun tab =>
      (tab.getCol cond.rhsCol.colName).map ColMeta.type

/-- One round of `check_clause`. The tables of the columns only have to be in the catalog. -/
def checkCond (cat : Catalog) (allCols : List ColMeta) (cond : Condition) : Option Condition :=
  (checkColumn allCols cond.lhsCol).bind fun lhs =>
    (if cond.isRhsVal then some cond.rhsCol else checkColumn allCols cond.rhsCol).bind fun rhs =>
      let cond := { cond with lhsCol := lhs, rhsCol := rhs }
      (cat lhs.tabName).bind fun tab =>
        (tab.getCol lhs.colName).bind fun col =>
          (cond.rhsType cat col).bind fun rhsType =>
            if col.type.compatible rhsType then some cond else none

/-- The slot of a query for a subquery. `sub` is the analyzed query or the list of values; `op` is
`none` until it is set. -/
structure Subquery (ρ : Type) where
  lhs : TabCol
  op : Option CompOp
  inClause : Bool
  valueList : Bool
  sub : ρ ⊕ List Value
  deriving DecidableEq, Repr

structure Query (ρ : Type) where
  tables : List String
  conds : List Condition
  subquery : Option (Subquery ρ)
  deriving DecidableEq, Repr

section Analyze

variable {σ ρ : Type}

/-- One round of the loop over the subqueries. The flags and the operator of an earlier round
stay where this one does not set them. -/
def addSubquery (analyzeSub : σ → Option ρ) (allCols : List ColMeta)
    (slot : Option (Subquery ρ)) (expr : BinaryExpr σ) : Option (Option (Subquery ρ)) :=
  let inClause := expr.inClause || slot.any Subquery.inClause
  let op := slot.bind Subquery.op
  match expr.rhs with
  | .value _ => some slot
  | .col _ => some slot
  | .subquery subQuery =>
    (checkColumn allCols expr.lhs).bind fun lhs =>
      (analyzeSub subQuery).map fun query =>
        some ⟨lhs, if expr.inClause then op else some expr.op, inClause,
          slot.any Subquery.valueList, .inl query⟩
  | .valueList values =>
    if expr.inClause = false ∧ values.length ≠ 1 then none
    else (checkColumn allCols expr.lhs).map fun lhs => some ⟨lhs, op, inClause, true, .inr values⟩

/-- `analyze_one_select` up to its WHERE clause; `analyzeSub` is its call for a subquery. -/
def analyzeSelect (cat : Catalog) (analyzeSub : σ → Option ρ) (tables : List String)
    (svConds : List (BinaryExpr σ)) : Option (Query ρ) :=
  (getAllCols cat tables).bind fun allCols =>
    ((getClause svConds).mapM (checkCond cat allCols)).bind fun conds =>
      (svConds.foldlM (addSubquery analyzeSub allCols) none).map fun slot =>
        ⟨tables, conds, slot⟩

end Analyze

/-- What the analyzer makes of the columns of a condition. -/
structure Condition.Checked (cond : Condition) : Prop where
  lhs : cond.lhsCol.tabName ≠ ""
  rhs : cond.isRhsVal = false → cond.rhsCol.tabName ≠ ""
  val : cond.isRhsVal = true → cond.rhsCol.tabName = ""

theorem checkColumn_named {allCols : List ColMeta} {target col : TabCol}
    (h : checkColumn allCols target = some col) : col.tabName ≠ "" := by
  unfold checkColumn at h
  split at h
  next =>
    obtain ⟨tabName, -, h⟩ := Option.bind_eq_some_iff.mp h
    split at h
    next => cases h
    next hne =>
      cases h
      exact hne
  next hne =>
    cases h
    exact hne

theorem checkCond_checked {cat : Catalog} {allCols : List ColMeta} {cond cond' : Condition}
    (hval : cond.isRhsVal = true → cond.rhsCol.tabName = "")
    (h : checkCond cat allCols cond = some cond') : cond'.Checked := by
  obtain ⟨lhs, hlhs, h⟩ := Option.bind_eq_some_iff.mp h
  obtain ⟨rhs, hrhs, h⟩ := Option.bind_eq_some_iff.mp h
  obtain ⟨tab, -, h⟩ := Option.bind_eq_some_iff.mp h
  obtain ⟨col, -, h⟩ := Option.bind_eq_some_iff.mp h
  obtain ⟨rhsType, -, h⟩ := Option.bind_eq_some_iff.mp h
  split at h
  next =>
    cases h
    refine ⟨checkColumn_named hlhs, fun hcol => ?_, fun hlit => ?_⟩
    · simp only at hcol
      rw [hcol] at hrhs
      exact checkColumn_named hrhs
    · simp only at hlit
      rw [hlit] at hrhs
      cases hrhs
      exact hval hlit
  next => cases h

theorem getClause_val {σ : Type} {svConds : List (BinaryExpr σ)} {cond : Condition}
    (h : cond ∈ getClause svConds) (hval : cond.isRhsVal = true) : cond.rhsCol.tabName = "" := by
  obtain ⟨expr, -, hclause⟩ := List.mem_filterMap.mp h
  unfold BinaryExpr.clause at hclause
  split at hclause
  · cases hclause
    rfl
  · cases hclause
    cases hval
  · cases hclause
  · cases hclause

theorem analyzeSelect_eq {σ ρ : Type} {cat : Catalog} {analyzeSub : σ → Option ρ}
    {tables : List String} {svConds : List (BinaryExpr σ)} {query : Query ρ}
    (h : analyzeSelect cat analyzeSub tables svConds = some query) :
    ∃ allCols, getAllCols cat tables = some allCols ∧
      (getClause svConds).mapM (checkCond cat allCols) = some query.conds ∧
      svConds.foldlM (addSubquery analyzeSub allCols) none = some query.subquery ∧
      query.tables = tables := by
  obtain ⟨allCols, hcols, h⟩ := Option.bind_eq_some_iff.mp h
  obtain ⟨conds, hconds, h⟩ := Option.bind_eq_some_iff.mp h
  obtain ⟨slot, hslot, rfl⟩ := Option.map_eq_some_iff.mp h
  exact ⟨allCols, hcols, hconds, hslot, rfl⟩

theorem getAllCols_tables {cat : Catalog} {tables : List String} {allCols : List ColMeta}
    (h : getAllCols cat tables = some allCols) : ∀ t ∈ tables, (cat t).isSome := by
  obtain ⟨tabs, htabs, -⟩ := Option.map_eq_some_iff.mp h
  exact fun t ht => isSome_of_mapM htabs ht

theorem analyzeSelect_checked {σ ρ : Type} {cat : Catalog} {analyzeSub : σ → Option ρ}
    {tables : List String} {svConds : List (BinaryExpr σ)} {query : Query ρ}
    (h : analyzeSelect cat analyzeSub tables svConds = some query) :
    ∀ cond ∈ query.conds, cond.Checked := by
  obtain ⟨allCols, -, hconds, -, -⟩ := analyzeSelect_eq h
  intro cond hcond
  obtain ⟨cond', hmem, hcheck⟩ := mem_of_mapM hconds hcond
  exact checkCond_checked (getClause_val hmem) hcheck

end Grmdb
