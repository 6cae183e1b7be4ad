import Grmdb.ShiftReduceComplete
import Grmdb.ShiftReduceHalts
import Grmdb.YaccTables

namespace Grmdb

open LR

section Items

open Terminal

def terminals : List Terminal := [
  YYEOF, YYerror, YYUNDEF, SHOW, TABLES, CREATE, TABLE, DROP, DESC, INSERT, INTO, VALUES, DELETE,
  FROM, ASC, ORDER, BY, GROUP, HAVING, MAX, MIN, SUM, COUNT, AS, IN, WHERE, UPDATE, SET, SELECT,
  INT, CHAR, FLOAT, INDEX, AND, JOIN, EXIT, HELP, STATIC, CHECKPOINT, LOAD, OFF, OUTPUT_FILE,
  DATETIME, TXN_BEGIN, TXN_COMMIT, TXN_ABORT, TXN_ROLLBACK, ORDER_BY, ENABLE_NESTLOOP,
  ENABLE_SORTMERGE, LEQ, NEQ, GEQ, T_EOF, IDENTIFIER, VALUE_STRING, PATH, VALUE_INT, VALUE_FLOAT,
  VALUE_BOOL, VALUE_DATETIME, semicolon, equals, lparen, rparen, star, comma, dot, less, greater]

/-- The lookaheads of the items. -/
def lookaheads : List (List Terminal) := [
  terminals,
  [semicolon],
  [SET],
  [equals],
  [semicolon, rparen],
  [FROM, AS, comma],
  [FROM, comma],
  [dot],
  [INTO],
  [lparen],
  [VALUES, ORDER, GROUP, HAVING, WHERE, SET, JOIN, semicolon, lparen, rparen, comma],
  [VALUES],
  [WHERE, semicolon],
  [FROM, AS, LEQ, NEQ, GEQ, equals, comma, less, greater],
  [DESC, FROM, ASC, ORDER, GROUP, HAVING, AS, IN, AND, LEQ, NEQ, GEQ, semicolon, equals, rparen,
    comma, less, greater],
  [WHERE, semicolon, comma],
  [rparen],
  [ORDER, GROUP, HAVING, WHERE, JOIN, semicolon, rparen, comma],
  [rparen, comma],
  [INT, CHAR, FLOAT, DATETIME],
  [ORDER, GROUP, HAVING, AND, semicolon, rparen],
  [ORDER, GROUP, HAVING, semicolon, rparen],
  [IN, LEQ, NEQ, GEQ, equals, less, greater],
  [DESC, FROM, ASC, ORDER, GROUP, HAVING, AS, IN, INT, CHAR, FLOAT, AND, DATETIME, LEQ, NEQ, GEQ,
    semicolon, equals, rparen, comma, less, greater],
  [IDENTIFIER, VALUE_STRING, VALUE_INT, VALUE_FLOAT, VALUE_BOOL, VALUE_DATETIME, lparen],
  [ORDER, HAVING, semicolon, rparen],
  [ORDER, GROUP, HAVING, WHERE, AND, semicolon, rparen, comma],
  [ORDER, semicolon, rparen],
  [ORDER, HAVING, semicolon, rparen, comma],
  [LEQ, NEQ, GEQ, equals, less, greater],
  [ORDER, AND, semicolon, rparen],
  [VALUE_STRING, VALUE_INT, VALUE_FLOAT, VALUE_BOOL, VALUE_DATETIME],
  [DESC, ASC, semicolon, rparen]]

/-- The items of the states: a rule, how much of it has been read, and its lookaheads. -/
def itemRows : List (List (Nat × Nat × Nat)) := [
  [(2, 0, 0), (3, 0, 0), (4, 0, 0), (5, 0, 0), (6, 0, 0), (7, 0, 1), (8, 0, 1), (9, 0, 1),
    (10, 0, 1), (11, 0, 1), (12, 0, 1), (13, 0, 1), (14, 0, 1), (15, 0, 1), (16, 0, 1),
    (17, 0, 0), (18, 0, 1), (19, 0, 1), (20, 0, 1), (21, 0, 1), (22, 0, 1), (23, 0, 1),
    (24, 0, 1), (25, 0, 1), (26, 0, 1), (27, 0, 1), (28, 0, 1), (29, 0, 1), (30, 0, 1),
    (31, 0, 1), (32, 0, 1), (33, 0, 1)],
  [(22, 1, 1), (23, 1, 1)], [(15, 1, 1), (25, 1, 1), (28, 1, 1)], [(26, 1, 1), (29, 1, 1)],
  [(27, 1, 1), (103, 0, 1)], [(30, 1, 1)], [(31, 1, 1)], [(32, 1, 1), (103, 0, 2)],
  [(17, 1, 0), (24, 1, 1), (100, 0, 3), (101, 0, 3)],
  [(33, 1, 4), (34, 0, 5), (35, 0, 5), (36, 0, 5), (37, 0, 5), (38, 0, 5), (39, 0, 5), (40, 0, 6),
    (41, 0, 6), (42, 0, 6), (43, 0, 6), (44, 0, 6), (74, 0, 5), (75, 0, 5), (103, 0, 7),
    (104, 0, 5)],
  [(4, 1, 0)], [(3, 1, 0)], [(16, 1, 1), (105, 0, 8)], [(18, 1, 1)], [(19, 1, 1)], [(20, 1, 1)],
  [(21, 1, 1)], [(5, 1, 0)], [], [(2, 1, 0)], [(14, 1, 1)], [(13, 1, 1)], [(6, 1, 0)],
  [(10, 1, 1)], [(7, 1, 1)], [(11, 1, 1)], [(8, 1, 1)], [(9, 1, 1)], [(12, 1, 1)], [(22, 2, 1)],
  [(23, 2, 1)], [(25, 2, 1), (103, 0, 9)], [(28, 2, 1), (103, 0, 9)], [(15, 2, 1)],
  [(26, 2, 1), (103, 0, 1)], [(29, 2, 1), (103, 0, 9)], [(103, 1, 10)], [(27, 2, 1)],
  [(30, 2, 1), (103, 0, 11)], [(31, 2, 1), (103, 0, 12)], [(32, 2, 1)], [(17, 2, 0)],
  [(100, 1, 3)], [(101, 1, 3)], [(24, 2, 1)], [(36, 1, 13)], [(37, 1, 13)], [(35, 1, 13)],
  [(38, 1, 13), (39, 1, 13)], [(103, 1, 7), (104, 1, 14)], [(42, 1, 6)], [(40, 1, 6), (41, 1, 6)],
  [(43, 1, 6)], [(33, 2, 4), (44, 1, 6)], [(34, 1, 13)], [(74, 1, 14)], [(75, 1, 14)],
  [(105, 1, 8)], [(16, 2, 1)], [], [(2, 2, 0)], [(23, 3, 1), (103, 0, 1)], [(25, 3, 1)],
  [(28, 3, 1)], [(15, 3, 1)], [(26, 3, 1)], [(29, 3, 1)], [(30, 3, 1)],
  [(31, 3, 1), (70, 0, 1), (71, 0, 1)],
  [(32, 3, 1), (88, 0, 15), (89, 0, 15), (90, 0, 15), (104, 0, 3)], [(17, 3, 0)], [(24, 3, 1)],
  [(36, 2, 13), (74, 0, 16), (75, 0, 16), (103, 0, 7), (104, 0, 16)],
  [(37, 2, 13), (74, 0, 16), (75, 0, 16), (103, 0, 7), (104, 0, 16)],
  [(35, 2, 13), (74, 0, 16), (75, 0, 16), (103, 0, 7), (104, 0, 16)],
  [(38, 2, 13), (39, 2, 13), (74, 0, 16), (75, 0, 16), (103, 0, 7), (104, 0, 16)],
  [(40, 2, 6), (102, 0, 6)], [(33, 3, 4), (91, 0, 17), (92, 0, 17), (93, 0, 17), (103, 0, 17)],
  [(34, 0, 5), (35, 0, 5), (36, 0, 5), (37, 0, 5), (38, 0, 5), (39, 0, 5), (40, 0, 6), (41, 0, 6),
    (42, 0, 6), (44, 2, 6), (74, 0, 5), (75, 0, 5), (103, 0, 7), (104, 0, 5)],
  [(74, 2, 14), (104, 0, 14)], [(16, 3, 1), (103, 0, 1)], [(23, 4, 1)],
  [(25, 4, 1), (52, 0, 18), (53, 0, 18), (56, 0, 18), (104, 0, 19)],
  [(28, 4, 1), (54, 0, 18), (55, 0, 18), (104, 0, 18)],
  [(29, 4, 1), (54, 0, 18), (55, 0, 18), (104, 0, 18)], [(30, 4, 1)],
  [(68, 0, 20), (69, 0, 20), (71, 1, 21), (72, 0, 20), (73, 0, 20), (74, 0, 22), (75, 0, 22),
    (103, 0, 7), (104, 0, 22)],
  [(31, 4, 1)], [(104, 1, 23)], [(32, 4, 1), (70, 0, 1), (71, 0, 1), (89, 1, 15)], [(88, 1, 15)],
  [(90, 1, 15)], [(24, 4, 1)], [(36, 3, 13)], [(37, 3, 13)], [(35, 3, 13)], [(39, 3, 13)],
  [(38, 3, 13)], [(102, 1, 6)], [(40, 3, 6)],
  [(33, 4, 4), (70, 0, 21), (71, 0, 21), (92, 1, 17), (93, 1, 17)], [(91, 1, 17)], [(44, 3, 6)],
  [(74, 3, 14)], [(16, 4, 1)], [(25, 5, 1), (53, 1, 18)], [(52, 1, 18)],
  [(56, 1, 18), (57, 0, 18), (58, 0, 18), (59, 0, 18), (60, 0, 18)], [(28, 5, 1), (55, 1, 18)],
  [(54, 1, 18)], [(29, 5, 1), (55, 1, 18)],
  [(30, 5, 1), (61, 0, 18), (62, 0, 18), (63, 0, 18), (64, 0, 18), (65, 0, 18), (66, 0, 18),
    (67, 0, 18)],
  [(72, 1, 20)], [(71, 2, 21), (73, 1, 20)],
  [(68, 1, 20), (69, 1, 20), (78, 0, 24), (79, 0, 24), (80, 0, 24), (81, 0, 24), (82, 0, 24),
    (83, 0, 24)],
  [(89, 2, 15), (90, 0, 15), (104, 0, 3)], [(32, 5, 1)],
  [(63, 0, 15), (64, 0, 15), (65, 0, 15), (66, 0, 15), (67, 0, 15), (90, 2, 15)], [(36, 4, 13)],
  [(37, 4, 13)], [(35, 4, 13)], [(39, 4, 13)], [(38, 4, 13)], [(93, 2, 17), (103, 0, 17)],
  [(92, 2, 17), (103, 0, 17)], [(33, 5, 4), (45, 0, 25), (46, 0, 25)], [(25, 6, 1)],
  [(53, 2, 18), (56, 0, 18), (104, 0, 19)], [(57, 1, 18)], [(58, 1, 18)], [(59, 1, 18)],
  [(60, 1, 18)], [(56, 2, 18)], [(28, 6, 1)], [(55, 2, 18), (104, 0, 18)], [(29, 6, 1)],
  [(65, 1, 26)], [(63, 1, 26)], [(64, 1, 26)], [(66, 1, 26)], [(67, 1, 26)],
  [(30, 6, 1), (62, 1, 18)], [(61, 1, 18)],
  [(68, 0, 20), (69, 0, 20), (73, 2, 20), (74, 0, 22), (75, 0, 22), (103, 0, 7), (104, 0, 22)],
  [(63, 0, 20), (64, 0, 20), (65, 0, 20), (66, 0, 20), (67, 0, 20), (69, 2, 20), (74, 0, 20),
    (75, 0, 20), (84, 0, 20), (85, 0, 20), (86, 0, 20), (87, 0, 20), (103, 0, 7), (104, 0, 20)],
  [(82, 1, 24)], [(81, 1, 24)], [(83, 1, 24)], [(78, 1, 24)], [(79, 1, 24)], [(80, 1, 24)],
  [(63, 0, 20), (64, 0, 20), (65, 0, 20), (66, 0, 20), (67, 0, 20), (68, 2, 20), (74, 0, 20),
    (75, 0, 20), (84, 0, 20), (85, 0, 20), (86, 0, 20), (87, 0, 20), (103, 0, 7), (104, 0, 20)],
  [(89, 3, 15)], [(90, 3, 15)], [(93, 3, 17)], [(92, 3, 17)], [(45, 1, 25)],
  [(33, 6, 4), (50, 0, 27), (51, 0, 27)], [(53, 3, 18)], [(58, 2, 18)], [(55, 3, 18)],
  [(30, 7, 1)], [(62, 2, 18), (63, 0, 18), (64, 0, 18), (65, 0, 18), (66, 0, 18), (67, 0, 18)],
  [(73, 3, 20)],
  [(33, 0, 16), (61, 0, 18), (62, 0, 18), (63, 0, 18), (64, 0, 18), (65, 0, 18), (66, 0, 18),
    (67, 0, 18), (86, 1, 20), (87, 1, 20)],
  [(84, 1, 20)], [(85, 1, 20)], [(69, 3, 20)], [(68, 3, 20)],
  [(45, 2, 25), (74, 0, 28), (75, 0, 28), (76, 0, 28), (77, 0, 28), (103, 0, 7), (104, 0, 28)],
  [(34, 0, 29), (35, 0, 29), (36, 0, 29), (37, 0, 29), (38, 0, 29), (39, 0, 29), (47, 0, 30),
    (48, 0, 30), (49, 0, 30), (51, 1, 27), (74, 0, 29), (75, 0, 29), (103, 0, 7), (104, 0, 29)],
  [(33, 7, 4), (94, 0, 4), (95, 0, 4)], [(58, 3, 18)], [(62, 3, 18)], [(86, 2, 20)],
  [(62, 1, 18), (87, 2, 20)], [(76, 1, 28)], [(45, 3, 25), (77, 1, 28)],
  [(47, 1, 30), (78, 0, 31), (79, 0, 31), (80, 0, 31), (81, 0, 31), (82, 0, 31), (83, 0, 31)],
  [(48, 1, 30)], [(49, 1, 30), (51, 2, 27)], [(94, 1, 4)], [(33, 8, 4)], [(58, 4, 18)],
  [(86, 3, 20)], [(87, 3, 20)],
  [(74, 0, 28), (75, 0, 28), (77, 2, 28), (103, 0, 7), (104, 0, 28)],
  [(47, 2, 30), (63, 0, 30), (64, 0, 30), (65, 0, 30), (66, 0, 30), (67, 0, 30)],
  [(34, 0, 29), (35, 0, 29), (36, 0, 29), (37, 0, 29), (38, 0, 29), (39, 0, 29), (47, 0, 30),
    (49, 2, 30), (74, 0, 29), (75, 0, 29), (103, 0, 7), (104, 0, 29)],
  [(74, 0, 32), (75, 0, 32), (94, 2, 4), (96, 0, 4), (103, 0, 7), (104, 0, 32)], [(77, 3, 28)],
  [(47, 3, 30)], [(49, 3, 30)], [(96, 1, 4), (97, 0, 4), (98, 0, 4), (99, 0, 4)], [(94, 3, 4)],
  [(98, 1, 4)], [(97, 1, 4)], [(96, 2, 4)]]
/-- The tokens that a nonterminal can begin with. -/
def yyfirst : Nonterminal → List Terminal
  | .accept | .start => [SHOW, CREATE, DROP, DESC, INSERT, DELETE, UPDATE, SET, SELECT, EXIT,
    HELP, LOAD, TXN_BEGIN, TXN_COMMIT, TXN_ABORT, TXN_ROLLBACK, T_EOF]
  | .stmt => [SHOW, CREATE, DROP, DESC, INSERT, DELETE, UPDATE, SET, SELECT, LOAD, TXN_BEGIN,
    TXN_COMMIT, TXN_ABORT, TXN_ROLLBACK]
  | .ckpStmt => [CREATE]
  | .loadStmt => [LOAD]
  | .offStmt | .setStmt => [SET]
  | .txnStmt => [TXN_BEGIN, TXN_COMMIT, TXN_ABORT, TXN_ROLLBACK]
  | .dbStmt => [SHOW]
  | .ddl => [CREATE, DROP, DESC]
  | .dml => [INSERT, DELETE, UPDATE]
  | .dql => [SELECT]
  | .aggCol | .havingExpr | .havingClause => [MAX, MIN, SUM, COUNT, IDENTIFIER]
  | .selector | .selectors => [MAX, MIN, SUM, COUNT, IDENTIFIER, star]
  | .optGroupByClause => [GROUP]
  | .optHavingClause => [HAVING]
  | .fieldList | .colNameList | .field | .condition | .whereClause | .col | .colList | .setClauses
    | .setClause | .tableList | .orderClause | .aliasName | .tbName | .colName => [IDENTIFIER]
  | .type => [INT, CHAR, FLOAT, DATETIME]
  | .valueList | .value => [VALUE_STRING, VALUE_INT, VALUE_FLOAT, VALUE_BOOL, VALUE_DATETIME]
  | .optWhereClause => [WHERE]
  | .op => [LEQ, NEQ, GEQ, equals, less, greater]
  | .expr => [IDENTIFIER, VALUE_STRING, VALUE_INT, VALUE_FLOAT, VALUE_BOOL, VALUE_DATETIME,
    lparen]
  | .optOrderClause => [ORDER]
  | .optAscDesc => [DESC, ASC]
  | .setKnobType => [ENABLE_NESTLOOP, ENABLE_SORTMERGE]
  | .fileName => [PATH]

end Items

def nonterminalWeight : Nonterminal → Int
  | .selectors => -2
  | .stmt | .selector | .optGroupByClause | .optHavingClause | .optWhereClause | .optOrderClause
    | .orderClause | .optAscDesc => -1
  | .dql | .aggCol | .colList | .expr => 0
  | .start | .colNameList | .valueList | .whereClause | .col | .tableList => 1
  | .txnStmt | .havingClause | .fieldList | .type | .value | .condition | .op | .setKnobType
    | .aliasName | .tbName | .colName | .fileName => 2
  | .accept | .havingExpr | .field => 3
  | .ddl => 4
  | .dbStmt | .setClauses => 5
  | .dml | .setClause => 6
  | .ckpStmt | .offStmt => 8
  | .loadStmt => 9
  | .setStmt => 10

def lookMask (tokens : List Terminal) : Nat := (tokens.map fun t => 2 ^ t.kind).sum

def yyfirsts : Firsts Nonterminal where
  first := fun A => lookMask (yyfirst A)
  nullable := fun A => A ∈ [Nonterminal.optGroupByClause, .optHavingClause, .optWhereClause,
    .optOrderClause, .optAscDesc]

/-- Weights that a reduction makes smaller. -/
def yyweight : Symbol Terminal Nonterminal → Int
  | .terminal _ => 3
  | .nonterminal A => nonterminalWeight A

/-- The items of a state. The lookaheads of an item are the bits of their kinds. -/
def yyitems (yystate : Nat) : List Item :=
  (itemRows.getD yystate []).map fun (rule, dot, row) =>
    ⟨rule, dot, lookMask (lookaheads.getD row [])⟩

theorem mem_terminals (t : Terminal) : t ∈ terminals := by
  cases t <;> decide

theorem yyitems_of_ge {yystate : Nat} (h : yystate ∉ List.range 198) :
    yyitems yystate = [] ∧ ∀ t, yytables.action yystate t = .error := by
  have hge : 198 ≤ yystate := by
    rw [List.mem_range] at h
    omega
  have hrows : itemRows[yystate]? = none := List.getElem?_eq_none hge
  have hpact : yypact[yystate]? = none := List.getElem?_eq_none hge
  have hdefact : yydefact[yystate]? = none := List.getElem?_eq_none hge
  refine ⟨?_, fun t => ?_⟩
  · rw [yyitems, List.getD_eq_getElem?_getD, hrows]
    rfl
  · change yybackup yystate t = .error
    rw [yybackup, List.getD_eq_getElem?_getD, hpact]
    change yydefault yystate = .error
    rw [yydefault, List.getD_eq_getElem?_getD, hdefact]
    rfl

theorem yyrule_of_ge {yyn : Nat} (h : yyn ∉ List.range 106) : yyrule yyn = none := by
  rw [List.mem_range] at h
  obtain ⟨k, rfl⟩ : ∃ k, yyn = k + 2 := ⟨yyn - 2, by omega⟩
  exact List.getElem?_eq_none (by change 104 ≤ k; omega)

theorem yytables_checkSound : yytables.checkSound yyitems (List.range 198) terminals = true := by
  decide +kernel

theorem yytables_checkComplete : yytables.checkComplete Terminal.kind yyfirsts yyitems
    (List.range 198) (List.range 106) terminals = true := by
  decide +kernel

/-- The tables reduce only what they have read. -/
theorem yytables_sound : yytables.Sound yyitems :=
  .of_check (fun _ => yyitems_of_ge) mem_terminals yytables_checkSound

/-- The tables go on with every rule of the grammar. -/
theorem yytables_complete : yytables.Complete Terminal.kind yyfirsts yyitems :=
  .of_check (fun _ h => (yyitems_of_ge h).1) (fun _ => yyrule_of_ge) mem_terminals
    yytables_checkComplete

theorem yytables_checkTerminating : yytables.checkTerminating yyweight .T_EOF (List.range 198)
    (List.range 106) terminals = true := by
  decide +kernel

/-- The parser ends on every input. -/
theorem yytables_terminating : yytables.Terminating yyweight 2 .T_EOF := by
  refine .of_check (fun _ h => (yyitems_of_ge h).2) (fun _ => yyrule_of_ge) mem_terminals
    (fun symbol => ?_) yytables_checkTerminating
  cases symbol with
  | terminal t =>
    change (-2 : Int) ≤ 3
    decide
  | nonterminal A => cases A <;> decide

end Grmdb
