import Grmdb.Yyparse

namespace Grmdb

open LR

namespace Ast

/-- A token whose value is not used. The string and the three scalars of `yylval` keep what earlier
tokens have put there; here they are blank in a token that does not set them, since the actions
read each only from a token that does. -/
def tok (t : Terminal) : YyToken := (t, {})

def identifier (name : String) : YyToken := (.IDENTIFIER, { svStr := name })

def sepBy {α : Type} (sep : Terminal) (elem : α → List YyToken) : List α → List YyToken
  | [] => []
  | a :: as => elem a ++ as.flatMap fun b => tok sep :: elem b

def colTokens (col : TabCol) : List YyToken :=
  if col.tabName = "" then [identifier col.colName]
  else [identifier col.tabName, tok .dot, identifier col.colName]

/-- The text of a literal: every byte is a character. -/
def literal (bytes : Bytes) : String := String.ofList (bytes.map fun b => Char.ofNat b.toNat)

def valueToken : SvValue → YyToken
  | .intLit val => (.VALUE_INT, { svInt := val })
  | .floatLit bits => (.VALUE_FLOAT, { svFloat := bits })
  | .stringLit val => (.VALUE_STRING, { svStr := literal val })
  | .boolLit val => (.VALUE_BOOL, { svBool := val })
  | .dateTimeLit val => (.VALUE_DATETIME, { svStr := literal val })

def opToken : CompOp → YyToken
  | .eq => tok .equals
  | .ne => tok .NEQ
  | .lt => tok .less
  | .gt => tok .greater
  | .le => tok .LEQ
  | .ge => tok .GEQ

def aggColTokens (col : AggCol) : List YyToken :=
  match col.aggType with
  | .noOp => colTokens col.column
  | .sum => tok .SUM :: tok .lparen :: (colTokens col.column ++ [tok .rparen])
  | .max => tok .MAX :: tok .lparen :: (colTokens col.column ++ [tok .rparen])
  | .min => tok .MIN :: tok .lparen :: (colTokens col.column ++ [tok .rparen])
  | .count => tok .COUNT :: tok .lparen :: (colTokens col.column ++ [tok .rparen])
  | .countStar => [tok .COUNT, tok .lparen, tok .star, tok .rparen]
  | .all => [tok .star]

def selectorTokens (col : AggCol) : List YyToken :=
  if col.hasAlias then aggColTokens col ++ [tok .AS, identifier col.aliasName]
  else aggColTokens col

def groupByTokens : List TabCol → List YyToken
  | [] => []
  | cols => tok .GROUP :: tok .BY :: sepBy .comma colTokens cols

def havingExprTokens (having : HavingExpr) : List YyToken :=
  aggColTokens having.lhs ++ [opToken having.op, valueToken having.rhs]

def havingTokens : List HavingExpr → List YyToken
  | [] => []
  | havings => tok .HAVING :: sepBy .AND havingExprTokens havings

def ascDescTokens : OrderByDir → List YyToken
  | .default => []
  | .asc => [tok .ASC]
  | .desc => [tok .DESC]

def orderTokens : Option OrderBy → List YyToken
  | none => []
  | some order =>
    tok .ORDER :: tok .BY :: (colTokens order.cols ++ ascDescTokens order.orderbyDir)

section Select

variable {σ : Type} (sub : σ → List YyToken)

def exprTokens : Expr σ → List YyToken
  | .value val => [valueToken val]
  | .col col => colTokens col
  | .subquery q => tok .lparen :: (sub q ++ [tok .rparen])
  | .valueList values =>
    tok .lparen :: (sepBy .comma (fun val => [valueToken val]) values ++ [tok .rparen])

def conditionTokens (cond : BinaryExpr σ) : List YyToken :=
  colTokens cond.lhs ++ (if cond.inClause then tok .IN else opToken cond.op) ::
    exprTokens sub cond.rhs

def whereTokens : List (BinaryExpr σ) → List YyToken
  | [] => []
  | conds => tok .WHERE :: sepBy .AND (conditionTokens sub) conds

def selectTokens (stmt : SelectStmt σ) : List YyToken :=
  tok .SELECT :: (sepBy .comma selectorTokens stmt.aggCols ++
    tok .FROM :: (sepBy .comma (fun name => [identifier name]) stmt.tabs ++
      (whereTokens sub stmt.conds ++ (groupByTokens stmt.groupBys ++
        (havingTokens stmt.havings ++ orderTokens stmt.orderBys)))))

end Select

/-- A subquery whose own subqueries are nested less than `n` deep. -/
def subqueryTokens : Nat → TreeNode → List YyToken
  | n + 1, .selectStmt stmt => selectTokens (subqueryTokens n) stmt
  | _, _ => []

/-- A `datetime` column is a string of 20 bytes for the parser. -/
def typeTokens (typeLen : TypeLen) : List YyToken :=
  match typeLen.type with
  | .int => [tok .INT]
  | .float => [tok .FLOAT]
  | _ => [tok .CHAR, tok .lparen, (.VALUE_INT, { svInt := typeLen.len }), tok .rparen]

def fieldTokens (field : ColDef) : List YyToken :=
  identifier field.colName :: typeTokens field.typeLen

def setClauseTokens (clause : SetClause) : List YyToken :=
  [identifier clause.colName, tok .equals, valueToken clause.val]

def setKnobToken : SetKnobType → YyToken
  | .enableNestLoop => tok .ENABLE_NESTLOOP
  | .enableSortMerge => tok .ENABLE_SORTMERGE

def nameTokens (names : List String) : List YyToken :=
  sepBy .comma (fun name => [identifier name]) names

/-- A statement without its semicolon. -/
def stmtTokens (n : Nat) : TreeNode → List YyToken
  | .help => [tok .HELP]
  | .showTables => [tok .SHOW, tok .TABLES]
  | .showIndex tabName => [tok .SHOW, tok .INDEX, tok .FROM, identifier tabName]
  | .txnBegin => [tok .TXN_BEGIN]
  | .txnCommit => [tok .TXN_COMMIT]
  | .txnAbort => [tok .TXN_ABORT]
  | .txnRollback => [tok .TXN_ROLLBACK]
  | .ckpStmt => [tok .CREATE, tok .STATIC, tok .CHECKPOINT]
  | .offStmt => [tok .SET, tok .OUTPUT_FILE, tok .OFF]
  | .loadStmt filename tabName =>
    [tok .LOAD, (.PATH, { svStr := filename }), tok .INTO, identifier tabName]
  | .createTable tabName fields =>
    tok .CREATE :: tok .TABLE :: identifier tabName :: tok .lparen ::
      (sepBy .comma fieldTokens fields ++ [tok .rparen])
  | .dropTable tabName => [tok .DROP, tok .TABLE, identifier tabName]
  | .descTable tabName => [tok .DESC, identifier tabName]
  | .createIndex tabName colNames =>
    tok .CREATE :: tok .INDEX :: identifier tabName :: tok .lparen ::
      (nameTokens colNames ++ [tok .rparen])
  | .dropIndex tabName colNames =>
    tok .DROP :: tok .INDEX :: identifier tabName :: tok .lparen ::
      (nameTokens colNames ++ [tok .rparen])
  | .insertStmt tabName vals =>
    tok .INSERT :: tok .INTO :: identifier tabName :: tok .VALUES :: tok .lparen ::
      (sepBy .comma (fun val => [valueToken val]) vals ++ [tok .rparen])
  | .deleteStmt tabName conds =>
    tok .DELETE :: tok .FROM :: identifier tabName :: whereTokens (subqueryTokens n) conds
  | .updateStmt tabName setClauses conds =>
    tok .UPDATE :: identifier tabName :: tok .SET ::
      (sepBy .comma setClauseTokens setClauses ++ whereTokens (subqueryTokens n) conds)
  | .selectStmt stmt => selectTokens (subqueryTokens n) stmt
  | .setStmt knob boolVal =>
    [tok .SET, setKnobToken knob, tok .equals, (.VALUE_BOOL, { svBool := boolVal })]

/-- `*` and `COUNT(*)` have no column and `*` has no alias. -/
structure WrittenAggCol (col : AggCol) : Prop where
  column : col.aggType = .countStar ∨ col.aggType = .all → col.column = ⟨"", ""⟩
  all : col.aggType = .all → col.hasAlias = false
  noAlias : col.hasAlias = false → col.aliasName = ""

/-- An expression in HAVING is about an aggregate or a column without an alias. -/
structure WrittenHavingExpr (having : HavingExpr) : Prop where
  lhs : WrittenAggCol having.lhs
  noAlias : having.lhs.hasAlias = false
  notAll : having.lhs.aggType ≠ .all

section Written

variable {σ : Type} (sub : σ → Prop)

def WrittenExpr : Expr σ → Prop
  | .value _ => True
  | .col _ => True
  | .subquery q => sub q
  | .valueList values => values ≠ []

def Expr.isSubquery : Expr σ → Bool
  | .subquery _ => true
  | _ => false

def Expr.isList : Expr σ → Bool
  | .valueList _ => true
  | .subquery _ => true
  | _ => false

/-- IN is followed by a list and has no operator of its own. -/
structure WrittenCond (cond : BinaryExpr σ) : Prop where
  rhs : WrittenExpr sub cond.rhs
  isList : cond.inClause = true → cond.rhs.isList = true
  op : cond.inClause = true → cond.op = .eq

/-- At most one of the conditions has a subquery. -/
structure WrittenWhere (conds : List (BinaryExpr σ)) : Prop where
  written : ∀ cond ∈ conds, WrittenCond sub cond
  once : conds.countP (fun cond => cond.rhs.isSubquery) ≤ 1

structure WrittenSelect (stmt : SelectStmt σ) : Prop where
  aggCols : stmt.aggCols ≠ []
  selectors : ∀ col ∈ stmt.aggCols, WrittenAggCol col
  tabs : stmt.tabs ≠ []
  conds : WrittenWhere sub stmt.conds
  havings : ∀ having ∈ stmt.havings, WrittenHavingExpr having

end Written

/-- A subquery that can be written with subqueries nested less than `n` deep. -/
def WrittenSubquery : Nat → TreeNode → Prop
  | n + 1, .selectStmt stmt => WrittenSelect (WrittenSubquery n) stmt
  | _, _ => False

def WrittenTypeLen (typeLen : TypeLen) : Prop :=
  match typeLen.type with
  | .int => typeLen.len = 4
  | .float => typeLen.len = 4
  | .string => True
  | _ => False

/-- A parse tree that can be written with subqueries nested at most `n` deep. -/
def WrittenTree (n : Nat) : TreeNode → Prop
  | .createTable _ fields => fields ≠ [] ∧ ∀ field ∈ fields, WrittenTypeLen field.typeLen
  | .createIndex _ colNames => colNames ≠ []
  | .dropIndex _ colNames => colNames ≠ []
  | .insertStmt _ vals => vals ≠ []
  | .deleteStmt _ conds => WrittenWhere (WrittenSubquery n) conds
  | .updateStmt _ setClauses conds => setClauses ≠ [] ∧ WrittenWhere (WrittenSubquery n) conds
  | .selectStmt stmt => WrittenSelect (WrittenSubquery n) stmt
  | _ => True

/-- HELP and SET OUTPUT_FILE OFF end without a semicolon. -/
def TreeNode.tokens (n : Nat) (tree : TreeNode) : List YyToken :=
  match tree with
  | .help => stmtTokens n tree
  | .offStmt => stmtTokens n tree
  | _ => stmtTokens n tree ++ [tok .semicolon]

end Ast

end Grmdb
