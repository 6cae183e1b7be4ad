import Grmdb.ShiftReduce

namespace Grmdb

open LR

/-- The tokens in the order of `yysymbol_kind_t`; a character has its name. -/
inductive Terminal where
  | YYEOF | YYerror | YYUNDEF | SHOW | TABLES | CREATE | TABLE | DROP | DESC | INSERT | INTO
  | VALUES | DELETE | FROM | ASC | ORDER | BY | GROUP | HAVING | MAX | MIN | SUM | COUNT | AS | IN
  | WHERE | UPDATE | SET | SELECT | INT | CHAR | FLOAT | INDEX | AND | JOIN | EXIT | HELP | STATIC
  | CHECKPOINT | LOAD | OFF | OUTPUT_FILE | DATETIME | TXN_BEGIN | TXN_COMMIT | TXN_ABORT
  | TXN_ROLLBACK | ORDER_BY | ENABLE_NESTLOOP | ENABLE_SORTMERGE | LEQ | NEQ | GEQ | T_EOF
  | IDENTIFIER | VALUE_STRING | PATH | VALUE_INT | VALUE_FLOAT | VALUE_BOOL | VALUE_DATETIME
  | semicolon | equals | lparen | rparen | star | comma | dot | less | greater
  deriving DecidableEq, Repr

/-- The nonterminals in the order of `yysymbol_kind_t`, where they come after the tokens. -/
inductive Nonterminal where
  | accept | start | stmt | ckpStmt | loadStmt | offStmt | txnStmt | dbStmt | setStmt | ddl | dml
  | dql | aggCol | selector | selectors | optGroupByClause | havingExpr | havingClause
  | optHavingClause | fieldList | colNameList | field | type | valueList | value | condition
  | optWhereClause | whereClause | col | colList | op | expr | setClauses | setClause | tableList
  | optOrderClause | orderClause | optAscDesc | setKnobType | aliasName | tbName | colName
  | fileName
  deriving DecidableEq, Repr

instance : Coe Terminal (Symbol Terminal Nonterminal) := ⟨.terminal⟩

instance : Coe Nonterminal (Symbol Terminal Nonterminal) := ⟨.nonterminal⟩

def yyntokens : Nat := 70

def Terminal.kind (t : Terminal) : Nat := t.ctorIdx

def Nonterminal.kind (A : Nonterminal) : Nat := yyntokens + A.ctorIdx

section Grammar

open Terminal Nonterminal

/-- The rules of `yacc.y`. Bison counts them from 2 on. -/
def grammarRules : List (ContextFreeRule Terminal Nonterminal) := [
  ⟨start, [stmt, semicolon]⟩,
  ⟨start, [HELP]⟩,
  ⟨start, [EXIT]⟩,
  ⟨start, [T_EOF]⟩,
  ⟨start, [offStmt]⟩,
  ⟨stmt, [dbStmt]⟩,
  ⟨stmt, [ddl]⟩,
  ⟨stmt, [dml]⟩,
  ⟨stmt, [txnStmt]⟩,
  ⟨stmt, [setStmt]⟩,
  ⟨stmt, [dql]⟩,
  ⟨stmt, [loadStmt]⟩,
  ⟨stmt, [ckpStmt]⟩,
  ⟨ckpStmt, [CREATE, STATIC, CHECKPOINT]⟩,
  ⟨loadStmt, [LOAD, fileName, INTO, tbName]⟩,
  ⟨offStmt, [SET, OUTPUT_FILE, OFF]⟩,
  ⟨txnStmt, [TXN_BEGIN]⟩,
  ⟨txnStmt, [TXN_COMMIT]⟩,
  ⟨txnStmt, [TXN_ABORT]⟩,
  ⟨txnStmt, [TXN_ROLLBACK]⟩,
  ⟨dbStmt, [SHOW, TABLES]⟩,
  ⟨dbStmt, [SHOW, INDEX, FROM, tbName]⟩,
  ⟨setStmt, [SET, setKnobType, equals, VALUE_BOOL]⟩,
  ⟨ddl, [CREATE, TABLE, tbName, lparen, fieldList, rparen]⟩,
  ⟨ddl, [DROP, TABLE, tbName]⟩,
  ⟨ddl, [DESC, tbName]⟩,
  ⟨ddl, [CREATE, INDEX, tbName, lparen, colNameList, rparen]⟩,
  ⟨ddl, [DROP, INDEX, tbName, lparen, colNameList, rparen]⟩,
  ⟨dml, [INSERT, INTO, tbName, VALUES, lparen, valueList, rparen]⟩,
  ⟨dml, [DELETE, FROM, tbName, optWhereClause]⟩,
  ⟨dml, [UPDATE, tbName, SET, Nonterminal.setClauses, optWhereClause]⟩,
  ⟨dql, [SELECT, selectors, FROM,
    tableList, optWhereClause, optGroupByClause, optHavingClause, optOrderClause]⟩,
  ⟨aggCol, [col]⟩,
  ⟨aggCol, [SUM, lparen, col, rparen]⟩,
  ⟨aggCol, [MAX, lparen, col, rparen]⟩,
  ⟨aggCol, [MIN, lparen, col, rparen]⟩,
  ⟨aggCol, [COUNT, lparen, col, rparen]⟩,
  ⟨aggCol, [COUNT, lparen, star, rparen]⟩,
  ⟨selector, [aggCol, AS, aliasName]⟩,
  ⟨selector, [aggCol]⟩,
  ⟨selector, [star]⟩,
  ⟨selectors, [selector]⟩,
  ⟨selectors, [selectors, comma, selector]⟩,
  ⟨optGroupByClause, [GROUP, BY, colList]⟩,
  ⟨optGroupByClause, []⟩,
  ⟨havingExpr, [aggCol, op, value]⟩,
  ⟨havingClause, [havingExpr]⟩,
  ⟨havingClause, [havingClause, AND, havingExpr]⟩,
  ⟨optHavingClause, []⟩,
  ⟨optHavingClause, [HAVING, havingClause]⟩,
  ⟨fieldList, [field]⟩,
  ⟨fieldList, [fieldList, comma, field]⟩,
  ⟨colNameList, [colName]⟩,
  ⟨colNameList, [colNameList, comma, colName]⟩,
  ⟨field, [colName, type]⟩,
  ⟨type, [INT]⟩,
  ⟨type, [CHAR, lparen, VALUE_INT, rparen]⟩,
  ⟨type, [FLOAT]⟩,
  ⟨type, [DATETIME]⟩,
  ⟨valueList, [value]⟩,
  ⟨valueList, [valueList, comma, value]⟩,
  ⟨value, [VALUE_INT]⟩,
  ⟨value, [VALUE_FLOAT]⟩,
  ⟨value, [VALUE_STRING]⟩,
  ⟨value, [VALUE_BOOL]⟩,
  ⟨value, [VALUE_DATETIME]⟩,
  ⟨condition, [col, op, expr]⟩,
  ⟨condition, [col, IN, expr]⟩,
  ⟨optWhereClause, []⟩,
  ⟨optWhereClause, [WHERE, whereClause]⟩,
  ⟨whereClause, [condition]⟩,
  ⟨whereClause, [whereClause, AND, condition]⟩,
  ⟨col, [tbName, dot, colName]⟩,
  ⟨col, [colName]⟩,
  ⟨colList, [col]⟩,
  ⟨colList, [colList, comma, col]⟩,
  ⟨op, [equals]⟩,
  ⟨op, [less]⟩,
  ⟨op, [greater]⟩,
  ⟨op, [NEQ]⟩,
  ⟨op, [LEQ]⟩,
  ⟨op, [GEQ]⟩,
  ⟨expr, [value]⟩,
  ⟨expr, [col]⟩,
  ⟨expr, [lparen, dql, rparen]⟩,
  ⟨expr, [lparen, valueList, rparen]⟩,
  ⟨Nonterminal.setClauses, [Nonterminal.setClause]⟩,
  ⟨Nonterminal.setClauses, [Nonterminal.setClauses, comma, Nonterminal.setClause]⟩,
  ⟨Nonterminal.setClause, [colName, equals, value]⟩,
  ⟨tableList, [tbName]⟩,
  ⟨tableList, [tableList, comma, tbName]⟩,
  ⟨tableList, [tableList, JOIN, tbName]⟩,
  ⟨optOrderClause, [ORDER, BY, orderClause]⟩,
  ⟨optOrderClause, []⟩,
  ⟨orderClause, [col, optAscDesc]⟩,
  ⟨optAscDesc, [ASC]⟩,
  ⟨optAscDesc, [DESC]⟩,
  ⟨optAscDesc, []⟩,
  ⟨setKnobType, [ENABLE_NESTLOOP]⟩,
  ⟨setKnobType, [ENABLE_SORTMERGE]⟩,
  ⟨aliasName, [IDENTIFIER]⟩,
  ⟨tbName, [IDENTIFIER]⟩,
  ⟨colName, [IDENTIFIER]⟩,
  ⟨fileName, [PATH]⟩]

end Grammar

def yyrule : Nat → Option (ContextFreeRule Terminal Nonterminal)
  | yyn + 2 => grammarRules[yyn]?
  | _ => none

section Tables

def yypact : List Int := [
  57, 0, 16, 18, -48, 6, 39, -48, 77, 23, -148, -148, 11, -148, -148, -148, -148, -148, 68, 10,
  -148, -148, -148, -148, -148, -148, -148, -148, -148, -148, 62, -48, -48, 43, -48, -48, -148,
  -148, -48, -48, 63, 49, -148, -148, 37, 59, 60, 66, 69, 27, -148, 108, -148, -12, -148, 78,
  -148, -148, 126, -148, -148, -48, 90, 92, -148, -148, 93, 146, 133, 105, -148, 101, 107, 107,
  107, 26, 109, -48, 23, 105, -48, -148, 105, 105, 105, 99, 107, -148, -148, 8, -148, 102, -148,
  103, 104, 106, 110, 111, -148, -148, -8, -148, -148, -148, -148, -5, -148, -17, 31, -148, 64,
  91, -148, 132, -13, 105, -148, 91, -148, -148, -148, -148, -148, -48, -48, 149, -148, 105, -148,
  113, -148, -148, -148, -148, 105, -148, -148, -148, -148, -148, -148, 71, -148, 107, 84, -148,
  -148, -148, -148, -148, -148, 84, -148, -148, -148, -148, 153, 154, -148, 114, -148, -148, 91,
  -148, 54, -148, -148, -148, -148, 107, 86, 158, 115, -148, 116, 88, -148, 112, 65, -148, 144,
  165, -148, -148, -148, -148, 107, 91, 86, 107, -148, -148, -148, 32, -148, -148, -148, -148]

def yydefact : List Nat := [
  0, 0, 0, 0, 0, 0, 0, 0, 0, 0, 4, 3, 0, 18, 19, 20, 21, 5, 0, 0, 14, 13, 6, 10, 7, 11, 8, 9, 12,
  22, 0, 0, 0, 0, 0, 0, 103, 27, 0, 0, 0, 0, 100, 101, 0, 0, 0, 0, 0, 104, 42, 41, 43, 0, 34, 0,
  75, 105, 0, 1, 2, 0, 0, 0, 15, 26, 0, 0, 70, 0, 17, 0, 0, 0, 0, 0, 0, 0, 0, 0, 0, 23, 0, 0, 0,
  0, 0, 31, 104, 70, 88, 0, 24, 0, 0, 0, 0, 0, 102, 40, 70, 91, 44, 74, 16, 0, 52, 0, 0, 54, 0, 0,
  72, 71, 0, 0, 32, 0, 36, 37, 35, 39, 38, 0, 0, 46, 25, 0, 57, 0, 59, 60, 56, 28, 0, 29, 65, 63,
  64, 66, 67, 0, 61, 0, 0, 82, 81, 83, 78, 79, 80, 0, 89, 90, 93, 92, 0, 50, 53, 0, 55, 30, 0, 73,
  0, 84, 85, 69, 68, 0, 0, 95, 0, 62, 0, 0, 76, 45, 0, 48, 51, 0, 33, 58, 86, 87, 0, 0, 0, 0, 77,
  47, 49, 99, 94, 98, 97, 96]

def yypgoto : List Int := [
  -148, -148, -148, -148, -148, -148, -148, -148, -148, -148, -148, 19, -147, 117, -148, -148, -6,
  -148, -148, -148, 100, 58, -148, 22, -115, 44, -2, -148, -65, -148, 12, 38, -148, 73, -148,
  -148, -148, -148, -148, -148, -4, -64, -148]

def yydefgoto : List Nat := [
  0, 18, 19, 20, 21, 22, 23, 24, 25, 26, 27, 28, 51, 52, 53, 157, 179, 180, 171, 105, 108, 106,
  132, 141, 142, 112, 87, 113, 54, 177, 151, 167, 89, 90, 100, 182, 194, 197, 44, 99, 55, 56, 58]

def yytable : List Int := [
  37, 77, 153, 40, 29, 91, 36, 93, 94, 95, 97, 144, 128, 129, 130, 103, 38, 86, 107, 109, 109,
  114, 31, 178, 34, 131, 123, 62, 63, 165, 65, 66, 30, 86, 67, 68, 165, 145, 146, 147, 195, 178,
  45, 46, 47, 48, 196, 173, 32, 148, 35, 91, 39, 33, 78, 149, 150, 81, 124, 126, 1, 127, 2, 107,
  3, 4, 5, 57, 59, 6, 160, 60, 191, 101, 115, 61, 104, 49, 114, 166, 49, 64, 9, 7, 8, 9, 166, 116,
  50, 70, 69, 96, 10, 11, -103, 133, 12, 134, 125, 71, 13, 14, 15, 16, 176, 45, 46, 47, 48, 136,
  17, 137, 138, 139, 140, 145, 146, 147, 41, 154, 155, 190, 72, 73, 193, 42, 43, 148, 135, 74,
  134, 76, 75, 149, 150, 161, 80, 162, 49, 136, 49, 137, 138, 139, 140, 79, 136, 164, 137, 138,
  139, 140, 185, 82, 162, 83, 84, 85, 86, 88, 92, 49, 111, 98, 117, 143, 156, 118, 119, 169, 120,
  172, 170, 181, 121, 122, 159, 188, 186, 183, 184, 189, 192, 174, 110, 158, 175, 163, 152, 168,
  187, 0, 0, 0, 0, 102]

def yycheck : List Int := [
  4, 13, 117, 7, 4, 69, 54, 72, 73, 74, 75, 24, 29, 30, 31, 79, 10, 25, 82, 83, 84, 86, 6, 170, 6,
  42, 34, 31, 32, 144, 34, 35, 32, 25, 38, 39, 151, 50, 51, 52, 8, 188, 19, 20, 21, 22, 14, 162,
  32, 62, 32, 115, 13, 37, 66, 68, 69, 61, 66, 64, 3, 66, 5, 127, 7, 8, 9, 56, 0, 12, 134, 61,
  187, 77, 66, 13, 80, 54, 143, 144, 54, 38, 28, 26, 27, 28, 151, 89, 65, 40, 27, 65, 35, 36, 67,
  64, 39, 66, 100, 62, 43, 44, 45, 46, 169, 19, 20, 21, 22, 55, 53, 57, 58, 59, 60, 50, 51, 52,
  41, 123, 124, 186, 63, 63, 189, 48, 49, 62, 64, 63, 66, 23, 63, 68, 69, 64, 10, 66, 54, 55, 54,
  57, 58, 59, 60, 67, 55, 63, 57, 58, 59, 60, 64, 63, 66, 63, 63, 11, 25, 54, 59, 54, 63, 54, 62,
  33, 17, 64, 64, 16, 64, 57, 18, 15, 64, 64, 63, 33, 66, 64, 64, 16, 188, 164, 84, 127, 164, 143,
  115, 151, 178, -1, -1, -1, -1, 78]

def yyr1 : List Nat := [
  0, 70, 71, 71, 71, 71, 71, 72, 72, 72, 72, 72, 72, 72, 72, 73, 74, 75, 76, 76, 76, 76, 77, 77,
  78, 79, 79, 79, 79, 79, 80, 80, 80, 81, 82, 82, 82, 82, 82, 82, 83, 83, 83, 84, 84, 85, 85, 86,
  87, 87, 88, 88, 89, 89, 90, 90, 91, 92, 92, 92, 92, 93, 93, 94, 94, 94, 94, 94, 95, 95, 96, 96,
  97, 97, 98, 98, 99, 99, 100, 100, 100, 100, 100, 100, 101, 101, 101, 101, 102, 102, 103, 104,
  104, 104, 105, 105, 106, 107, 107, 107, 108, 108, 109, 110, 111, 112]

def yyr2 : List Nat := [
  0, 2, 2, 1, 1, 1, 1, 1, 1, 1, 1, 1, 1, 1, 1, 3, 4, 3, 1, 1, 1, 1, 2, 4, 4, 6, 3, 2, 6, 6, 7, 4,
  5, 8, 1, 4, 4, 4, 4, 4, 3, 1, 1, 1, 3, 3, 0, 3, 1, 3, 0, 2, 1, 3, 1, 3, 2, 1, 4, 1, 1, 1, 3, 1,
  1, 1, 1, 1, 3, 3, 0, 2, 1, 3, 3, 1, 1, 3, 1, 1, 1, 1, 1, 1, 1, 1, 3, 3, 1, 3, 3, 1, 3, 3, 3, 0,
  2, 1, 1, 0, 1, 1, 1, 1, 1, 1]

end Tables

def yypactNinf : Int := -148

def yylast : Int := 195

/-- `yydefault`. -/
def yydefault (yystate : Nat) : Action :=
  match yydefact.getD yystate 0 with
  | 0 => .error
  | yyn => .reduce yyn

/-- `yybackup` with the next token. A state whose portion is empty does not look at it, and no entry
of `yytable` is an error. -/
def yybackup (yystate : Nat) (yytoken : Terminal) : Action :=
  let yyn := yypact.getD yystate yypactNinf
  if yyn = yypactNinf then yydefault yystate
  else
    let yyn := yyn + yytoken.kind
    if yyn < 0 ∨ yylast < yyn ∨ yycheck.getD yyn.toNat (-1) ≠ yytoken.kind then yydefault yystate
    else
      let yyn := yytable.getD yyn.toNat 0
      if yyn ≤ 0 then .reduce (-yyn).toNat else .shift yyn.toNat

/-- The state after a reduction to `lhs` above `yystate`. -/
def yygoto (yystate : Nat) (lhs : Nonterminal) : Nat :=
  let yylhs := lhs.ctorIdx
  let yyi := yypgoto.getD yylhs 0 + yystate
  if 0 ≤ yyi ∧ yyi ≤ yylast ∧ yycheck.getD yyi.toNat (-1) = yystate then
    (yytable.getD yyi.toNat 0).toNat
  else yydefgoto.getD yylhs 0

/-- The tables of `yacc.tab.cpp` with the rules they are made from. -/
def yytables : Tables Terminal Nonterminal where
  rules := yyrule
  initial := .start
  action := yybackup
  goto := yygoto

theorem yyr1_yyr2 : ∀ yyn < 106, (yyrule yyn).all (fun rule =>
    yyr1[yyn]? == some rule.input.kind && yyr2[yyn]? == some rule.output.length) = true := by
  decide +kernel

end Grmdb
