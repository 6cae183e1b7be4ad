import Grmdb.RecordPrinter
import Grmdb.SelectPlan
import Grmdb.ValueEncoding
import Grmdb.YaccTables

namespace Grmdb

namespace Ast

inductive SvType where
  | int
  | float
  | string
  | bool
  | datetime
  deriving DecidableEq, Repr, Inhabited

structure TypeLen where
  type : SvType
  len : Int
  deriving DecidableEq, Repr, Inhabited

structure ColDef where
  colName : String
  typeLen : TypeLen
  deriving DecidableEq, Repr, Inhabited

inductive OrderByDir where
  | default
  | asc
  | desc
  deriving DecidableEq, Repr, Inhabited

structure OrderBy where
  cols : TabCol
  orderbyDir : OrderByDir
  deriving DecidableEq, Repr

inductive SetKnobType where
  | enableNestLoop
  | enableSortMerge
  deriving DecidableEq, Repr, Inhabited

structure SetClause where
  colName : String
  val : SvValue
  deriving DecidableEq, Repr

structure HavingExpr where
  lhs : AggCol
  op : CompOp
  rhs : SvValue
  deriving DecidableEq, Repr

/-- The right side of a condition as it is parsed; a subquery is a `σ`. -/
inductive Expr (σ : Type) where
  | value (val : SvValue)
  | col (col : TabCol)
  | subquery (subQuery : σ)
  | valueList (values : List SvValue)
  deriving DecidableEq, Repr

structure BinaryExpr (σ : Type) where
  lhs : TabCol
  inClause : Bool
  op : CompOp
  rhs : Expr σ
  deriving DecidableEq, Repr

structure SelectStmt (σ : Type) where
  aggCols : List AggCol
  tabs : List String
  conds : List (BinaryExpr σ)
  groupBys : List TabCol
  havings : List HavingExpr
  orderBys : Option OrderBy
  deriving DecidableEq, Repr

inductive TreeNode where
  | help
  | showTables
  | showIndex (tabName : String)
  | txnBegin
  | txnCommit
  | txnAbort
  | txnRollback
  | ckpStmt
  | offStmt
  | loadStmt (filename tabName : String)
  | createTable (tabName : String) (fields : List ColDef)
  | dropTable (tabName : String)
  | descTable (tabName : String)
  | createIndex (tabName : String) (colNames : List String)
  | dropIndex (tabName : String) (colNames : List String)
  | insertStmt (tabName : String) (vals : List SvValue)
  | deleteStmt (tabName : String) (conds : List (BinaryExpr TreeNode))
  | updateStmt (tabName : String) (setClauses : List SetClause) (conds : List (BinaryExpr TreeNode))
  | selectStmt (stmt : SelectStmt TreeNode)
  | setStmt (setKnobType : SetKnobType) (boolVal : Bool)

/-- The value of a symbol. Of the pointers only `svNode` and `svOrderby` are ever used while they
are null. -/
structure SemValue where
  svInt : Int := 0
  svFloat : UInt32 := 0
  svStr : String := ""
  svBool : Bool := false
  svOrderbyDir : OrderByDir := .default
  svStrs : List String := []
  svNode : Option TreeNode := none
  svCompOp : CompOp := .eq
  svTypeLen : TypeLen := default
  svField : ColDef := default
  svFields : List ColDef := []
  svExpr : Expr TreeNode := .valueList []
  svVal : SvValue := .intLit 0
  svVals : List SvValue := []
  svCol : TabCol := ⟨"", ""⟩
  svCols : List TabCol := []
  svSetClause : SetClause := ⟨"", .intLit 0⟩
  svSetClauses : List SetClause := []
  svCond : BinaryExpr TreeNode := ⟨⟨"", ""⟩, false, .eq, .valueList []⟩
  svConds : List (BinaryExpr TreeNode) := []
  svOrderby : Option OrderBy := none
  svSetKnobType : SetKnobType := default
  svAggCol : AggCol := ⟨⟨"", ""⟩, .noOp, false, ""⟩
  svAggCols : List AggCol := []
  svGroupby : List TabCol := []
  svHaving : HavingExpr := ⟨⟨⟨"", ""⟩, .noOp, false, ""⟩, .eq, .intLit 0⟩
  svHavings : List HavingExpr := []

inductive ParseError where
  | syntaxError
  | memoryExhausted
  | internalError
  deriving DecidableEq, Repr

/-- The constructor of a condition with IN. -/
def BinaryExpr.inList (lhs : TabCol) (rhs : Expr TreeNode) :
    Except ParseError (BinaryExpr TreeNode) :=
  match rhs with
  | .subquery _ => .ok ⟨lhs, true, .eq, rhs⟩
  | .valueList _ => .ok ⟨lhs, true, .eq, rhs⟩
  | _ => .error .internalError

/-- The action of a rule. `yyvs` are the values of its right side and `yyval` is the value of the
first of them, or what the slot behind the stack holds when the right side is empty. The actions of
`start` leave the parse tree in the value. -/
def yyaction (yyn : Nat) (yyvs : List SemValue) (yyval : SemValue) : Except ParseError SemValue :=
  let v := fun i => yyvs.getD (i - 1) {}
  match yyn with
  | 2 => .ok { yyval with svNode := (v 1).svNode }
  | 3 => .ok { yyval with svNode := some .help }
  | 4 => .ok { yyval with svNode := none }
  | 5 => .ok { yyval with svNode := none }
  | 6 => .ok { yyval with svNode := (v 1).svNode }
  | 15 => .ok { yyval with svNode := some .ckpStmt }
  | 16 => .ok { yyval with svNode := some (.loadStmt (v 2).svStr (v 4).svStr) }
  | 17 => .ok { yyval with svNode := some .offStmt }
  | 18 => .ok { yyval with svNode := some .txnBegin }
  | 19 => .ok { yyval with svNode := some .txnCommit }
  | 20 => .ok { yyval with svNode := some .txnAbort }
  | 21 => .ok { yyval with svNode := some .txnRollback }
  | 22 => .ok { yyval with svNode := some .showTables }
  | 23 => .ok { yyval with svNode := some (.showIndex (v 4).svStr) }
  | 24 => .ok { yyval with svNode := some (.setStmt (v 2).svSetKnobType (v 4).svBool) }
  | 25 => .ok { yyval with svNode := some (.createTable (v 3).svStr (v 5).svFields) }
  | 26 => .ok { yyval with svNode := some (.dropTable (v 3).svStr) }
  | 27 => .ok { yyval with svNode := some (.descTable (v 2).svStr) }
  | 28 => .ok { yyval with svNode := some (.createIndex (v 3).svStr (v 5).svStrs) }
  | 29 => .ok { yyval with svNode := some (.dropIndex (v 3).svStr (v 5).svStrs) }
  | 30 => .ok { yyval with svNode := some (.insertStmt (v 3).svStr (v 6).svVals) }
  | 31 => .ok { yyval with svNode := some (.deleteStmt (v 3).svStr (v 4).svConds) }
  | 32 => .ok { yyval with
      svNode := some (.updateStmt (v 2).svStr (v 4).svSetClauses (v 5).svConds) }
  | 33 => .ok { yyval with
      svNode := some (.selectStmt ⟨(v 2).svAggCols, (v 4).svStrs, (v 5).svConds, (v 6).svGroupby,
        (v 7).svHavings, (v 8).svOrderby⟩) }
  | 34 => .ok { yyval with svAggCol := ⟨(v 1).svCol, .noOp, false, ""⟩ }
  | 35 => .ok { yyval with svAggCol := ⟨(v 3).svCol, .sum, false, ""⟩ }
  | 36 => .ok { yyval with svAggCol := ⟨(v 3).svCol, .max, false, ""⟩ }
  | 37 => .ok { yyval with svAggCol := ⟨(v 3).svCol, .min, false, ""⟩ }
  | 38 => .ok { yyval with svAggCol := ⟨(v 3).svCol, .count, false, ""⟩ }
  | 39 => .ok { yyval with svAggCol := ⟨⟨"", ""⟩, .countStar, false, ""⟩ }
  | 40 => .ok { yyval with
      svAggCol := { (v 1).svAggCol with hasAlias := true, aliasName := (v 3).svStr } }
  | 41 => .ok { yyval with svAggCol := (v 1).svAggCol }
  | 42 => .ok { yyval with svAggCol := ⟨⟨"", ""⟩, .all, false, ""⟩ }
  | 43 => .ok { yyval with svAggCols := [(v 1).svAggCol] }
  | 44 => .ok { yyval with svAggCols := yyval.svAggCols ++ [(v 3).svAggCol] }
  | 45 => .ok { yyval with svGroupby := (v 3).svCols }
  | 47 => .ok { yyval with svHaving := ⟨(v 1).svAggCol, (v 2).svCompOp, (v 3).svVal⟩ }
  | 48 => .ok { yyval with svHavings := [(v 1).svHaving] }
  | 49 => .ok { yyval with svHavings := yyval.svHavings ++ [(v 3).svHaving] }
  | 51 => .ok { yyval with svHavings := (v 2).svHavings }
  | 52 => .ok { yyval with svFields := [(v 1).svField] }
  | 53 => .ok { yyval with svFields := yyval.svFields ++ [(v 3).svField] }
  | 54 => .ok { yyval with svStrs := [(v 1).svStr] }
  | 55 => .ok { yyval with svStrs := yyval.svStrs ++ [(v 3).svStr] }
  | 56 => .ok { yyval with svField := ⟨(v 1).svStr, (v 2).svTypeLen⟩ }
  | 57 => .ok { yyval with svTypeLen := ⟨.int, 4⟩ }
  | 58 => .ok { yyval with svTypeLen := ⟨.string, (v 3).svInt⟩ }
  | 59 => .ok { yyval with svTypeLen := ⟨.float, 4⟩ }
  | 60 => .ok { yyval with svTypeLen := ⟨.string, 20⟩ }
  | 61 => .ok { yyval with svVals := [(v 1).svVal] }
  | 62 => .ok { yyval with svVals := yyval.svVals ++ [(v 3).svVal] }
  | 63 => .ok { yyval with svVal := .intLit (v 1).svInt }
  | 64 => .ok { yyval with svVal := .floatLit (v 1).svFloat }
  | 65 => .ok { yyval with svVal := .stringLit (ascii (v 1).svStr) }
  | 66 => .ok { yyval with svVal := .boolLit (v 1).svBool }
  | 67 => .ok { yyval with svVal := .dateTimeLit (ascii (v 1).svStr) }
  | 68 => .ok { yyval with svCond := ⟨(v 1).svCol, false, (v 2).svCompOp, (v 3).svExpr⟩ }
  | 69 => (BinaryExpr.inList (v 1).svCol (v 3).svExpr).map fun cond =>
      { yyval with svCond := cond }
  | 71 => .ok { yyval with svConds := (v 2).svConds }
  | 72 => .ok { yyval with svConds := [(v 1).svCond] }
  | 73 => .ok { yyval with svConds := yyval.svConds ++ [(v 3).svCond] }
  | 74 => .ok { yyval with svCol := ⟨(v 1).svStr, (v 3).svStr⟩ }
  | 75 => .ok { yyval with svCol := ⟨"", (v 1).svStr⟩ }
  | 76 => .ok { yyval with svCols := [(v 1).svCol] }
  | 77 => .ok { yyval with svCols := yyval.svCols ++ [(v 3).svCol] }
  | 78 => .ok { yyval with svCompOp := .eq }
  | 79 => .ok { yyval with svCompOp := .lt }
  | 80 => .ok { yyval with svCompOp := .gt }
  | 81 => .ok { yyval with svCompOp := .ne }
  | 82 => .ok { yyval with svCompOp := .le }
  | 83 => .ok { yyval with svCompOp := .ge }
  | 84 => .ok { yyval with svExpr := .value (v 1).svVal }
  | 85 => .ok { yyval with svExpr := .col (v 1).svCol }
  | 86 => .ok { yyval with svExpr := .subquery ((v 2).svNode.getD .help) }
  | 87 => .ok { yyval with svExpr := .valueList (v 2).svVals }
  | 88 => .ok { yyval with svSetClauses := [(v 1).svSetClause] }
  | 89 => .ok { yyval with svSetClauses := yyval.svSetClauses ++ [(v 3).svSetClause] }
  | 90 => .ok { yyval with svSetClause := ⟨(v 1).svStr, (v 3).svVal⟩ }
  | 91 => .ok { yyval with svStrs := [(v 1).svStr] }
  | 92 => .ok { yyval with svStrs := yyval.svStrs ++ [(v 3).svStr] }
  | 93 => .ok { yyval with svStrs := yyval.svStrs ++ [(v 3).svStr] }
  | 94 => .ok { yyval with svOrderby := (v 3).svOrderby }
  | 96 => .ok { yyval with svOrderby := some ⟨(v 1).svCol, (v 2).svOrderbyDir⟩ }
  | 97 => .ok { yyval with svOrderbyDir := .asc }
  | 98 => .ok { yyval with svOrderbyDir := .desc }
  | 99 => .ok { yyval with svOrderbyDir := .default }
  | 100 => .ok { yyval with svSetKnobType := .enableNestLoop }
  | 101 => .ok { yyval with svSetKnobType := .enableSortMerge }
  | _ => .ok yyval

end Ast

end Grmdb
