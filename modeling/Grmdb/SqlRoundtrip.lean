import Grmdb.ParseStatement
import Grmdb.YyparseExact

namespace Grmdb

open LR

namespace Ast

theorem parses_type {typeLen : TypeLen} (hwritten : WrittenTypeLen typeLen) :
    Parses false 0 (.nonterminal .type) (typeTokens typeLen) 4 (·.svTypeLen = typeLen) := by
  obtain ⟨type, len⟩ := typeLen
  cases type with
  | int =>
    have hlen : len = 4 := hwritten
    subst hlen
    have hint : Parses false 0 (.nonterminal .type) [tok .INT] 1 (·.svTypeLen = ⟨.int, 4⟩) :=
      .of_token 57 (tok .INT) rfl (blank_tok _) ⟨_, rfl, rfl, .of_eq ⟨rfl, rfl, rfl, rfl⟩⟩
    exact hint.cast rfl rfl (by omega)
  | float =>
    have hlen : len = 4 := hwritten
    subst hlen
    have hfloat : Parses false 0 (.nonterminal .type) [tok .FLOAT] 1 (·.svTypeLen = ⟨.float, 4⟩) :=
      .of_token 59 (tok .FLOAT) rfl (blank_tok _) ⟨_, rfl, rfl, .of_eq ⟨rfl, rfl, rfl, rfl⟩⟩
    exact hfloat.cast rfl rfl (by omega)
  | string =>
    have hclose := ParsesAll.token_cons (tok .rparen) (blank_tok _) (ParsesAll.nil (r := 0))
    have hlen := ParsesAll.token_cons (.VALUE_INT, { svInt := len })
      (Blank.of_empty ⟨rfl, rfl, rfl, rfl⟩) hclose
    refine (Parses.node 58 rfl (.token (tok .CHAR) (blank_tok _))
      (.token_cons (tok .lparen) (blank_tok _) hlen) (Or.inl rfl) le_rfl ?_).cast rfl rfl (by omega)
    intro v vs hv hvs
    obtain ⟨_, rfl, _, rfl, _, rfl, rfl⟩ := hvs
    subst hv
    exact ⟨_, rfl, rfl, .of_eq ⟨rfl, rfl, rfl, rfl⟩⟩
  | bool => exact hwritten.elim
  | datetime => exact hwritten.elim

theorem parses_field {field : ColDef} (hwritten : WrittenTypeLen field.typeLen) :
    Parses false 0 (.nonterminal .field) (fieldTokens field) 5 (·.svField = field) := by
  refine (Parses.node 56 rfl (parses_colName field.colName) ((parses_type hwritten).all (by omega))
    (Or.inl rfl) le_rfl ?_).cast rfl rfl (by omega)
  intro v vs hv hvs
  obtain ⟨w, rfl, hw⟩ := hvs
  refine ⟨_, rfl, ?_, .of_eq ⟨rfl, rfl, rfl, rfl⟩⟩
  change ColDef.mk v.svStr w.svTypeLen = field
  rw [hv, hw]

theorem parses_fieldList {fields : List ColDef} (hnil : fields ≠ [])
    (hwritten : ∀ field ∈ fields, WrittenTypeLen field.typeLen) :
    Parses false 0 (.nonterminal .fieldList) (sepBy .comma fieldTokens fields) 7
      (·.svFields = fields) := by
  have hrules : ListRules 52 53 .fieldList .field .comma 0 SemValue.svField SemValue.svFields :=
    ⟨rfl, rfl, fun _ => ⟨_, rfl, rfl, .of_eq ⟨rfl, rfl, rfl, rfl⟩⟩,
      fun _ _ _ => ⟨_, rfl, rfl, .of_eq ⟨rfl, rfl, rfl, rfl⟩⟩⟩
  exact hrules.parsesPlain (by omega) hnil fun field hin => parses_field (hwritten field hin)

theorem parses_setClause (clause : SetClause) :
    Parses false 0 (.nonterminal .setClause) (setClauseTokens clause) 3
      (·.svSetClause = clause) := by
  refine (Parses.node 90 rfl (parses_colName clause.colName) (.token_cons (tok .equals)
    (blank_tok _) ((parses_value clause.val).all (by omega))) (Or.inl rfl) le_rfl ?_).cast rfl rfl
    (by omega)
  intro v vs hv hvs
  obtain ⟨_, rfl, w, rfl, hw⟩ := hvs
  refine ⟨_, rfl, ?_, .of_eq ⟨rfl, rfl, rfl, rfl⟩⟩
  change SetClause.mk v.svStr w.svVal = clause
  rw [hv, hw]

theorem parses_setClauses {clauses : List SetClause} (hnil : clauses ≠ []) :
    Parses false 0 (.nonterminal .setClauses) (sepBy .comma setClauseTokens clauses) 5
      (·.svSetClauses = clauses) := by
  have hrules : ListRules 88 89 .setClauses .setClause .comma 0 SemValue.svSetClause
      SemValue.svSetClauses := ⟨rfl, rfl, fun _ => ⟨_, rfl, rfl, .of_eq ⟨rfl, rfl, rfl, rfl⟩⟩,
        fun _ _ _ => ⟨_, rfl, rfl, .of_eq ⟨rfl, rfl, rfl, rfl⟩⟩⟩
  exact hrules.parsesPlain (by omega) hnil fun clause _ => parses_setClause clause

theorem parses_setKnob (knob : SetKnobType) :
    Parses false 0 (.nonterminal .setKnobType) [setKnobToken knob] 1
      (·.svSetKnobType = knob) := by
  cases knob with
  | enableNestLoop =>
    exact .of_token 100 (tok .ENABLE_NESTLOOP) rfl (blank_tok _)
      ⟨_, rfl, rfl, .of_eq ⟨rfl, rfl, rfl, rfl⟩⟩
  | enableSortMerge =>
    exact .of_token 101 (tok .ENABLE_SORTMERGE) rfl (blank_tok _)
      ⟨_, rfl, rfl, .of_eq ⟨rfl, rfl, rfl, rfl⟩⟩

theorem parses_subquery (n : Nat) (q : TreeNode) (hwritten : WrittenSubquery n q) :
    Parses true 0 (.nonterminal .dql) (subqueryTokens n q) (4 + 10 * n) (·.svNode = some q) := by
  induction n generalizing q with
  | zero =>
    rw [WrittenSubquery] at hwritten
    · exact hwritten.elim
    · intro n stmt h
      cases h
  | succ n ih =>
    cases q with
    | selectStmt stmt =>
      exact (parses_select (m := 4 + 10 * n) ih (by omega) hwritten).cast rfl rfl (by omega)
    | _ => exact hwritten.elim

/-- The tokens of a symbol are read with a parse tree. -/
def ParsesTree (symbol : Symbol Terminal Nonterminal) (tokens : List YyToken) (need : Nat)
    (tree : TreeNode) : Prop :=
  ∀ slots, need < slots.length → Blanks slots →
    ∃ v values, yyparser.Reads [symbol] tokens slots (v :: values) ∧
      values.length + 1 = slots.length ∧ v.svNode = some tree

variable {symbol : Symbol Terminal Nonterminal}
  {symbols symbols' : List (Symbol Terminal Nonterminal)}
  {tokens tokens' : List YyToken} {need need' : Nat} {tree : TreeNode} {nested : Bool} {r : Nat}
  {Q Q' : List SemValue → Prop}

theorem Parses.parsesTree (h : Parses nested r symbol tokens need (·.svNode = some tree)) :
    ParsesTree symbol tokens need tree := by
  intro slots hneed hblanks
  cases slots with
  | nil => cases hneed
  | cons s slots =>
    obtain ⟨v, values, hreads, hv, -, hleaves⟩ :=
      h s slots (Nat.le_of_lt_succ hneed) fun _ => hblanks
    have hlength := hleaves.length
    rw [List.length_cons, List.length_cons] at hlength
    exact ⟨v, values, hreads, hlength, hv⟩

/-- The value goes through a node over one symbol. -/
theorem ParsesTree.of_one (yyn : Nat) {A B : Nonterminal}
    (hrule : yyrule yyn = some ⟨A, [.nonterminal B]⟩) (hmake : ∀ v, yyaction yyn [v] v = .ok v)
    (h : ParsesTree (.nonterminal B) tokens need tree) (hneed : 0 < need) :
    ParsesTree (.nonterminal A) tokens need tree := by
  intro slots hslots hblanks
  obtain ⟨v, values, hreads, hlength, hv⟩ := h slots hslots hblanks
  obtain ⟨next, more, rfl⟩ := List.exists_cons_of_length_pos (l := values) (by omega)
  have hrule' : yyparser.rules yyn = some ⟨A, [.nonterminal B]⟩ := hrule
  refine ⟨v, next :: more, .node hrule' hreads ?_ rfl, hlength, hv⟩
  rw [Parser.result_cons hrule']
  exact hmake v

/-- A statement that ends with optional clauses. -/
theorem ParsesTree.of_clauses (yyn : Nat) {A : Nonterminal}
    (hrule : yyrule yyn = some ⟨A, symbol :: symbols ++ symbols'⟩)
    (hfront : ParsesAll false 0 (symbol :: symbols) tokens need Q)
    (hclauses : ParsesClauses nested 0 symbols' tokens' need' Q')
    (hmake : ∀ v vs ws, Q (v :: vs) → Q' ws →
      ∃ w, yyaction yyn (v :: vs ++ ws) v = .ok w ∧ w.svNode = some tree) :
    ParsesTree (.nonterminal A) (tokens ++ tokens') (max need (need' + symbols.length + 1))
      tree := by
  intro slots hneed hblanks
  obtain ⟨vs, values, hreads, hcount, hvs, hleaves⟩ := hfront slots (by omega) fun _ => hblanks
  have hafter : Blanks values := fun w hw => hleaves.blanks hblanks w (List.mem_append_right _ hw)
  have hlength := hleaves.length
  rw [List.length_append, hcount, List.length_cons] at hlength
  obtain ⟨ws, rest, hreads', hcount', hws, hsame⟩ :=
    hclauses values (by omega) (hafter.ready 0) fun _ => hafter
  have hdrop : (vs ++ values).drop (symbol :: symbols).length = values := by
    rw [← hcount, List.drop_left]
  have hdone : yyparser.Reads (symbol :: symbols ++ symbols') (tokens ++ tokens') slots
      (vs ++ (ws ++ rest)) := by
    have hboth := hreads.append (hdrop ▸ hreads')
    rwa [← hcount, List.take_left] at hboth
  cases vs with
  | nil => cases hcount
  | cons v vs =>
    obtain ⟨w, hw, htree⟩ := hmake v vs ws hvs hws
    rw [List.length_cons, List.length_cons, Nat.add_right_cancel_iff] at hcount
    have hafterwards : (vs ++ (ws ++ rest)).length + 1 = slots.length := by
      rw [List.length_append]
      omega
    obtain ⟨next, more, hmore⟩ :=
      List.exists_cons_of_length_pos (l := vs ++ (ws ++ rest)) (by omega)
    have hrule' : yyparser.rules yyn = some ⟨A, symbol :: symbols ++ symbols'⟩ := hrule
    refine ⟨w, vs ++ (ws ++ rest), .node hrule' hdone ?_ ?_, hafterwards, htree⟩
    · rw [List.cons_append, Parser.result_cons hrule']
      have htake : (v :: (vs ++ (ws ++ rest))).take (symbol :: symbols ++ symbols').length =
          v :: vs ++ ws := by
        have hfront' : v :: (vs ++ (ws ++ rest)) = (v :: vs ++ ws) ++ rest := by simp
        rw [hfront']
        refine List.take_left' ?_
        rw [List.length_append, List.length_append, List.length_cons, List.length_cons, hcount',
          hcount]
      change yyaction yyn ((v :: (vs ++ (ws ++ rest))).take _) v = .ok w
      rw [htake, hw]
    · rw [List.cons_append, hmore]
      rfl

theorem ParsesTree.cast (h : ParsesTree symbol tokens need tree) (htokens : tokens = tokens')
    (hle : need ≤ need') : ParsesTree symbol tokens' need' tree := by
  subst htokens
  exact fun slots hslots => h slots (hle.trans_lt hslots)

section Statements

/-- A list in brackets. -/
theorem parses_brackets {B : Nonterminal} {P : SemValue → Prop}
    (h : Parses false 0 (.nonterminal B) tokens need P) :
    ParsesAll false 0 [.terminal .lparen, .nonterminal B, .terminal .rparen]
      (tok .lparen :: (tokens ++ [tok .rparen])) (max need 2 + 1)
      (fun vs => ∃ w, vs = [(tok .lparen).2, w, (tok .rparen).2] ∧ P w) := by
  have hclose := ParsesAll.token_cons (tok .rparen) (blank_tok _) (ParsesAll.nil (r := 0))
  have hopen := ParsesAll.token_cons (tok .lparen) (blank_tok _) (.cons h hclose (Or.inl rfl))
  intro slots hslots hblanks
  obtain ⟨vs, values, hreads, hcount, ⟨_, rfl, w, _, rfl, hw, _, rfl, rfl⟩, hleaves⟩ :=
    hopen slots (by omega) hblanks
  exact ⟨_, values, hreads, hcount, ⟨w, rfl, hw⟩, hleaves⟩

theorem parses_txnStmt (yyn : Nat) {t : Terminal}
    (hrule : yyrule yyn = some ⟨.txnStmt, [.terminal t]⟩)
    (hmake : ∀ v, yyaction yyn [v] v = .ok { v with svNode := some tree }) :
    ParsesTree (.nonterminal .stmt) [tok t] 1 tree := by
  have hstmt : Parses false 0 (.nonterminal .txnStmt) [tok t] 1 (·.svNode = some tree) :=
    .of_token yyn (tok t) hrule (blank_tok t) ⟨_, hmake _, rfl, .of_eq ⟨rfl, rfl, rfl, rfl⟩⟩
  exact hstmt.parsesTree.of_one 10 rfl (fun _ => rfl) Nat.one_pos

theorem parses_dbStmt (h : Parses false 0 (.nonterminal .dbStmt) tokens need
    (·.svNode = some tree)) (hneed : 0 < need) : ParsesTree (.nonterminal .stmt) tokens need tree :=
  h.parsesTree.of_one 7 rfl (fun _ => rfl) hneed

theorem parses_ddl (h : Parses false 0 (.nonterminal .ddl) tokens need (·.svNode = some tree))
    (hneed : 0 < need) : ParsesTree (.nonterminal .stmt) tokens need tree :=
  h.parsesTree.of_one 8 rfl (fun _ => rfl) hneed

theorem parses_index (yyn : Nat) {t : Terminal} (tabName : String) {colNames : List String}
    (hnil : colNames ≠ [])
    (hrule : yyrule yyn = some ⟨.ddl, [.terminal t, .terminal .INDEX, .nonterminal .tbName,
      .terminal .lparen, .nonterminal .colNameList, .terminal .rparen]⟩)
    (hmake : ∀ v i w o l c, w.svStr = tabName → l.svStrs = colNames →
      yyaction yyn [v, i, w, o, l, c] v = .ok { v with svNode := some tree }) :
    ParsesTree (.nonterminal .stmt) (tok t :: tok .INDEX :: identifier tabName :: tok .lparen ::
      (nameTokens colNames ++ [tok .rparen])) 7 tree := by
  have hstmt : Parses false 0 (.nonterminal .ddl) (tok t :: tok .INDEX :: identifier tabName ::
      tok .lparen :: (nameTokens colNames ++ [tok .rparen])) 7 (·.svNode = some tree) := by
    refine (Parses.node yyn hrule (.token (tok t) (blank_tok t)) (.token_cons (tok .INDEX)
      (blank_tok _) (.cons (parses_tbName tabName) (parses_brackets (parses_colNameList hnil))
        (Or.inl rfl))) (Or.inl rfl) le_rfl ?_).cast rfl rfl (by omega)
    intro v vs hv hvs
    obtain ⟨_, rfl, w, _, rfl, hw, l, rfl, hl⟩ := hvs
    exact ⟨_, hmake v _ w _ l _ hw hl, rfl, .of_eq ⟨rfl, rfl, rfl, rfl⟩⟩
  exact parses_ddl hstmt (by omega)

theorem parses_createTable (tabName : String) {fields : List ColDef} (hnil : fields ≠ [])
    (hwritten : ∀ field ∈ fields, WrittenTypeLen field.typeLen) :
    ParsesTree (.nonterminal .stmt) (tok .CREATE :: tok .TABLE :: identifier tabName ::
      tok .lparen :: (sepBy .comma fieldTokens fields ++ [tok .rparen])) 11
      (.createTable tabName fields) := by
  refine parses_ddl ((Parses.node 25 rfl (.token (tok .CREATE) (blank_tok _)) (.token_cons
    (tok .TABLE) (blank_tok _) (.cons (parses_tbName tabName)
      (parses_brackets (parses_fieldList hnil hwritten)) (Or.inl rfl))) (Or.inl rfl) le_rfl ?_).cast
    rfl rfl (by omega)) (by omega)
  intro v vs hv hvs
  obtain ⟨_, rfl, w, _, rfl, hw, l, rfl, hl⟩ := hvs
  exact ⟨_, rfl, congrArg some (congrArg₂ TreeNode.createTable hw hl), .of_eq ⟨rfl, rfl, rfl, rfl⟩⟩

theorem parses_insert (tabName : String) {vals : List SvValue} (hnil : vals ≠ []) :
    ParsesTree (.nonterminal .stmt) (tok .INSERT :: tok .INTO :: identifier tabName ::
      tok .VALUES :: tok .lparen :: (sepBy .comma (fun val => [valueToken val]) vals ++
        [tok .rparen])) 8 (.insertStmt tabName vals) := by
  have hstmt : Parses false 0 (.nonterminal .dml) (tok .INSERT :: tok .INTO ::
      identifier tabName :: tok .VALUES :: tok .lparen ::
        (sepBy .comma (fun val => [valueToken val]) vals ++ [tok .rparen])) 8
      (·.svNode = some (.insertStmt tabName vals)) := by
    refine (Parses.node 30 rfl (.token (tok .INSERT) (blank_tok _)) (.token_cons (tok .INTO)
      (blank_tok _) (.cons (parses_tbName tabName) (.token_cons (tok .VALUES) (blank_tok _)
        (parses_brackets (parses_valueList hnil))) (Or.inl rfl))) (Or.inl rfl) le_rfl ?_).cast
      rfl rfl (by omega)
    intro v vs hv hvs
    obtain ⟨_, rfl, w, _, rfl, hw, _, rfl, l, rfl, hl⟩ := hvs
    exact ⟨_, rfl, congrArg some (congrArg₂ TreeNode.insertStmt hw hl),
      .of_eq ⟨rfl, rfl, rfl, rfl⟩⟩
  exact hstmt.parsesTree.of_one 9 rfl (fun _ => rfl) (by omega)

theorem parses_delete (n : Nat) (tabName : String) {conds : List (BinaryExpr TreeNode)}
    (hwritten : WrittenWhere (WrittenSubquery n) conds) :
    ParsesTree (.nonterminal .stmt) (tok .DELETE :: tok .FROM :: identifier tabName ::
      whereTokens (subqueryTokens n) conds) (13 + 10 * n) (.deleteStmt tabName conds) := by
  have hfront := ParsesAll.token_cons (tok .DELETE) (blank_tok _) (ParsesAll.token_cons
    (tok .FROM) (blank_tok _) ((parses_tbName tabName).all Nat.one_pos))
  have hclauses := ParsesClauses.cons (parses_where (m := 4 + 10 * n) (parses_subquery n)
    (by omega) hwritten) .nil
  have hstmt : ParsesTree (.nonterminal .dml) (tok .DELETE :: tok .FROM :: identifier tabName ::
      whereTokens (subqueryTokens n) conds) (13 + 10 * n) (.deleteStmt tabName conds) := by
    refine (ParsesTree.of_clauses 31 rfl hfront hclauses ?_).cast (by simp)
      (by simp only [List.length_cons, List.length_nil]; omega)
    intro v vs ws hvs hws
    obtain ⟨_, heq, _, rfl, w, rfl, hw⟩ := hvs
    obtain ⟨c, _, rfl, hc, rfl⟩ := hws
    cases heq
    exact ⟨_, rfl, congrArg some (congrArg₂ TreeNode.deleteStmt hw hc)⟩
  exact hstmt.of_one 9 rfl (fun _ => rfl) (by omega)

theorem parses_update (n : Nat) (tabName : String) {clauses : List SetClause}
    {conds : List (BinaryExpr TreeNode)} (hnil : clauses ≠ [])
    (hwritten : WrittenWhere (WrittenSubquery n) conds) :
    ParsesTree (.nonterminal .stmt) (tok .UPDATE :: identifier tabName :: tok .SET ::
      (sepBy .comma setClauseTokens clauses ++ whereTokens (subqueryTokens n) conds)) (14 + 10 * n)
      (.updateStmt tabName clauses conds) := by
  have hfront := ParsesAll.token_cons (tok .UPDATE) (blank_tok _) (ParsesAll.cons
    (parses_tbName tabName) (ParsesAll.token_cons (tok .SET) (blank_tok _)
      ((parses_setClauses hnil).all (by omega))) (Or.inl rfl))
  have hclauses := ParsesClauses.cons (parses_where (m := 4 + 10 * n) (parses_subquery n)
    (by omega) hwritten) .nil
  have hstmt : ParsesTree (.nonterminal .dml) (tok .UPDATE :: identifier tabName :: tok .SET ::
      (sepBy .comma setClauseTokens clauses ++ whereTokens (subqueryTokens n) conds)) (14 + 10 * n)
      (.updateStmt tabName clauses conds) := by
    refine (ParsesTree.of_clauses 32 rfl hfront hclauses ?_).cast (by simp)
      (by simp only [List.length_cons, List.length_nil]; omega)
    intro v vs ws hvs hws
    obtain ⟨_, heq, w, _, rfl, hw, _, rfl, l, rfl, hl⟩ := hvs
    obtain ⟨c, _, rfl, hc, rfl⟩ := hws
    cases heq
    refine ⟨_, rfl, ?_⟩
    change some (TreeNode.updateStmt w.svStr l.svSetClauses c.svConds) = _
    rw [hw, hl, hc]
  exact hstmt.of_one 9 rfl (fun _ => rfl) (by omega)

theorem parses_load (filename tabName : String) :
    ParsesTree (.nonterminal .stmt)
      [tok .LOAD, (.PATH, { svStr := filename }), tok .INTO, identifier tabName] 4
      (.loadStmt filename tabName) := by
  have hfile : Parses false 0 (.nonterminal .fileName) [(.PATH, { svStr := filename })] 1
      (·.svStr = filename) :=
    .of_token 105 (.PATH, { svStr := filename }) rfl (Blank.of_empty ⟨rfl, rfl, rfl, rfl⟩)
      ⟨_, rfl, rfl, .refl 0 _⟩
  have hstmt : Parses false 0 (.nonterminal .loadStmt)
      [tok .LOAD, (.PATH, { svStr := filename }), tok .INTO, identifier tabName] 4
      (·.svNode = some (.loadStmt filename tabName)) := by
    refine (Parses.node 16 rfl (.token (tok .LOAD) (blank_tok _)) (.cons hfile (.token_cons
      (tok .INTO) (blank_tok _) ((parses_tbName tabName).all Nat.one_pos)) (Or.inl rfl))
      (Or.inl rfl) le_rfl ?_).cast rfl rfl (by omega)
    intro v vs hv hvs
    obtain ⟨f, _, rfl, hf, _, rfl, w, rfl, hw⟩ := hvs
    exact ⟨_, rfl, congrArg some (congrArg₂ TreeNode.loadStmt hf hw), .of_eq ⟨rfl, rfl, rfl, rfl⟩⟩
  exact hstmt.parsesTree.of_one 13 rfl (fun _ => rfl) (by omega)

theorem parses_set (knob : SetKnobType) (boolVal : Bool) :
    ParsesTree (.nonterminal .stmt)
      [tok .SET, setKnobToken knob, tok .equals, (.VALUE_BOOL, { svBool := boolVal })] 4
      (.setStmt knob boolVal) := by
  have hstmt : Parses false 0 (.nonterminal .setStmt)
      [tok .SET, setKnobToken knob, tok .equals, (.VALUE_BOOL, { svBool := boolVal })] 4
      (·.svNode = some (.setStmt knob boolVal)) := by
    have hvalue := ParsesAll.token_cons (.VALUE_BOOL, { svBool := boolVal })
      (Blank.of_empty ⟨rfl, rfl, rfl, rfl⟩) (ParsesAll.nil (r := 0))
    refine (Parses.node 24 rfl (.token (tok .SET) (blank_tok _)) (.cons (parses_setKnob knob)
      (.token_cons (tok .equals) (blank_tok _) hvalue) (Or.inl rfl)) (Or.inl rfl) le_rfl ?_).cast
      rfl rfl (by omega)
    intro v vs hv hvs
    obtain ⟨w, _, rfl, hw, _, rfl, _, rfl, rfl⟩ := hvs
    exact ⟨_, rfl, congrArg (fun knob => some (TreeNode.setStmt knob boolVal)) hw,
      .of_eq ⟨rfl, rfl, rfl, rfl⟩⟩
  exact hstmt.parsesTree.of_one 11 rfl (fun _ => rfl) (by omega)

theorem parses_ckp : ParsesTree (.nonterminal .stmt)
    [tok .CREATE, tok .STATIC, tok .CHECKPOINT] 3 .ckpStmt := by
  have hstmt : Parses false 0 (.nonterminal .ckpStmt) [tok .CREATE, tok .STATIC, tok .CHECKPOINT] 3
      (·.svNode = some .ckpStmt) := by
    refine (Parses.node 15 rfl (.token (tok .CREATE) (blank_tok _)) (.token_cons (tok .STATIC)
      (blank_tok _) (.token_cons (tok .CHECKPOINT) (blank_tok _) (ParsesAll.nil (r := 0))))
      (Or.inl rfl) le_rfl ?_).cast rfl rfl (by omega)
    intro v vs hv hvs
    exact ⟨_, rfl, rfl, .of_eq ⟨rfl, rfl, rfl, rfl⟩⟩
  exact hstmt.parsesTree.of_one 14 rfl (fun _ => rfl) (by omega)

theorem parses_show : ParsesTree (.nonterminal .stmt) [tok .SHOW, tok .TABLES] 2 .showTables := by
  refine parses_dbStmt ((Parses.node 22 rfl (.token (tok .SHOW) (blank_tok _)) (.token_cons
    (tok .TABLES) (blank_tok _) (ParsesAll.nil (r := 0))) (Or.inl rfl) le_rfl ?_).cast rfl rfl
    (by omega)) (by omega)
  intro v vs hv hvs
  exact ⟨_, rfl, rfl, .of_eq ⟨rfl, rfl, rfl, rfl⟩⟩

theorem parses_showIndex (tabName : String) :
    ParsesTree (.nonterminal .stmt) [tok .SHOW, tok .INDEX, tok .FROM, identifier tabName] 4
      (.showIndex tabName) := by
  refine parses_dbStmt ((Parses.node 23 rfl (.token (tok .SHOW) (blank_tok _)) (.token_cons
    (tok .INDEX) (blank_tok _) (.token_cons (tok .FROM) (blank_tok _)
      ((parses_tbName tabName).all Nat.one_pos))) (Or.inl rfl) le_rfl ?_).cast rfl rfl
    (by omega)) (by omega)
  intro v vs hv hvs
  obtain ⟨_, rfl, _, rfl, w, rfl, hw⟩ := hvs
  exact ⟨_, rfl, congrArg (fun name => some (TreeNode.showIndex name)) hw,
    .of_eq ⟨rfl, rfl, rfl, rfl⟩⟩

theorem parses_drop (tabName : String) :
    ParsesTree (.nonterminal .stmt) [tok .DROP, tok .TABLE, identifier tabName] 3
      (.dropTable tabName) := by
  refine parses_ddl ((Parses.node 26 rfl (.token (tok .DROP) (blank_tok _)) (.token_cons
    (tok .TABLE) (blank_tok _) ((parses_tbName tabName).all Nat.one_pos)) (Or.inl rfl) le_rfl
    ?_).cast rfl rfl (by omega)) (by omega)
  intro v vs hv hvs
  obtain ⟨_, rfl, w, rfl, hw⟩ := hvs
  exact ⟨_, rfl, congrArg (fun name => some (TreeNode.dropTable name)) hw,
    .of_eq ⟨rfl, rfl, rfl, rfl⟩⟩

theorem parses_desc (tabName : String) :
    ParsesTree (.nonterminal .stmt) [tok .DESC, identifier tabName] 2 (.descTable tabName) := by
  refine parses_ddl ((Parses.node 27 rfl (.token (tok .DESC) (blank_tok _))
    ((parses_tbName tabName).all Nat.one_pos) (Or.inl rfl) le_rfl ?_).cast rfl rfl (by omega))
    (by omega)
  intro v vs hv hvs
  obtain ⟨w, rfl, hw⟩ := hvs
  exact ⟨_, rfl, congrArg (fun name => some (TreeNode.descTable name)) hw,
    .of_eq ⟨rfl, rfl, rfl, rfl⟩⟩

theorem parses_stmt (n : Nat) {tree : TreeNode} (hwritten : WrittenTree n tree)
    (hhelp : tree ≠ .help) (hoff : tree ≠ .offStmt) :
    ParsesTree (.nonterminal .stmt) (stmtTokens n tree) (14 + 10 * n) tree := by
  cases tree with
  | help => exact absurd rfl hhelp
  | offStmt => exact absurd rfl hoff
  | showTables => exact parses_show.cast rfl (by omega)
  | showIndex tabName => exact (parses_showIndex tabName).cast rfl (by omega)
  | txnBegin => exact (parses_txnStmt 18 rfl fun _ => rfl).cast rfl (by omega)
  | txnCommit => exact (parses_txnStmt 19 rfl fun _ => rfl).cast rfl (by omega)
  | txnAbort => exact (parses_txnStmt 20 rfl fun _ => rfl).cast rfl (by omega)
  | txnRollback => exact (parses_txnStmt 21 rfl fun _ => rfl).cast rfl (by omega)
  | ckpStmt => exact parses_ckp.cast rfl (by omega)
  | loadStmt filename tabName => exact (parses_load filename tabName).cast rfl (by omega)
  | createTable tabName fields =>
    exact (parses_createTable tabName hwritten.1 hwritten.2).cast rfl (by omega)
  | dropTable tabName => exact (parses_drop tabName).cast rfl (by omega)
  | descTable tabName => exact (parses_desc tabName).cast rfl (by omega)
  | createIndex tabName colNames =>
    refine (parses_index 28 tabName hwritten rfl ?_).cast rfl (by omega)
    intro v i w o l c hw hl
    subst hw hl
    rfl
  | dropIndex tabName colNames =>
    refine (parses_index 29 tabName hwritten rfl ?_).cast rfl (by omega)
    intro v i w o l c hw hl
    subst hw hl
    rfl
  | insertStmt tabName vals => exact (parses_insert tabName hwritten).cast rfl (by omega)
  | deleteStmt tabName conds => exact (parses_delete n tabName hwritten).cast rfl (by omega)
  | updateStmt tabName clauses conds => exact parses_update n tabName hwritten.1 hwritten.2
  | selectStmt stmt =>
    have hselect := parses_select (m := 4 + 10 * n) (parses_subquery n) (by omega) hwritten
    exact (hselect.parsesTree.of_one 12 rfl (fun _ => rfl) (by omega)).cast rfl (by omega)
  | setStmt knob boolVal => exact (parses_set knob boolVal).cast rfl (by omega)

end Statements

end Ast

end Grmdb
