import Grmdb.ParseSlots

namespace Grmdb

open LR

namespace Ast

theorem blank_identifier (name : String) (k : Nat) : Blank k (identifier name).2 :=
  .of_empty ⟨rfl, rfl, rfl, rfl⟩ k

theorem blank_valueToken (val : SvValue) (k : Nat) : Blank k (valueToken val).2 := by
  cases val with
  | intLit val => exact .of_empty ⟨rfl, rfl, rfl, rfl⟩ k
  | floatLit bits => exact .of_empty ⟨rfl, rfl, rfl, rfl⟩ k
  | stringLit val => exact .of_empty ⟨rfl, rfl, rfl, rfl⟩ k
  | boolLit val => exact .of_empty ⟨rfl, rfl, rfl, rfl⟩ k
  | dateTimeLit val => exact .of_empty ⟨rfl, rfl, rfl, rfl⟩ k

theorem ascii_literal (bytes : Bytes) : ascii (literal bytes) = bytes := by
  rw [ascii, literal, String.toList_ofList, List.map_map]
  conv_rhs => rw [← List.map_id bytes]
  refine List.map_congr_left fun b _ => ?_
  have hlt := b.toNat_lt
  have hvalid : b.toNat.isValidChar := Or.inl (by omega)
  rw [Function.comp, Char.ofNat, dif_pos hvalid]
  exact UInt8.ofNat_toNat

theorem parses_tbName (name : String) :
    Parses false 0 (.nonterminal .tbName) [identifier name] 1 (·.svStr = name) :=
  .of_token 103 (identifier name) rfl (blank_identifier name)
    ⟨_, rfl, rfl, .refl 0 _⟩

theorem parses_colName (name : String) :
    Parses false 0 (.nonterminal .colName) [identifier name] 1 (·.svStr = name) :=
  .of_token 104 (identifier name) rfl (blank_identifier name)
    ⟨_, rfl, rfl, .refl 0 _⟩

theorem parses_aliasName (name : String) :
    Parses false 0 (.nonterminal .aliasName) [identifier name] 1 (·.svStr = name) :=
  .of_token 102 (identifier name) rfl (blank_identifier name)
    ⟨_, rfl, rfl, .refl 0 _⟩

theorem parses_col (col : TabCol) :
    Parses false 0 (.nonterminal .col) (colTokens col) 3 (·.svCol = col) := by
  obtain ⟨tabName, colName⟩ := col
  by_cases htab : tabName = ""
  · subst htab
    refine (Parses.of_one 75 rfl (parses_colName colName) (by omega) le_rfl ?_).cast ?_ rfl
      (by omega)
    · intro v hv
      subst hv
      exact ⟨_, rfl, rfl, .of_eq ⟨rfl, rfl, rfl, rfl⟩⟩
    · rw [colTokens, if_pos rfl]
  · refine (Parses.node 74 rfl (parses_tbName tabName) (.token_cons (tok .dot) (blank_tok _)
      ((parses_colName colName).all (by omega))) (Or.inl rfl) le_rfl ?_).cast ?_ rfl (by omega)
    · intro v vs hv hvs
      obtain ⟨_, rfl, w, rfl, hw⟩ := hvs
      subst hv hw
      exact ⟨_, rfl, rfl, .of_eq ⟨rfl, rfl, rfl, rfl⟩⟩
    · rw [colTokens, if_neg htab]
      rfl

theorem parses_value (val : SvValue) :
    Parses false 0 (.nonterminal .value) [valueToken val] 1 (·.svVal = val) := by
  cases val with
  | intLit val =>
    exact .of_token 63 (valueToken (.intLit val)) rfl (blank_valueToken _)
      ⟨_, rfl, rfl, .of_eq ⟨rfl, rfl, rfl, rfl⟩⟩
  | floatLit bits =>
    exact .of_token 64 (valueToken (.floatLit bits)) rfl (blank_valueToken _)
      ⟨_, rfl, rfl, .of_eq ⟨rfl, rfl, rfl, rfl⟩⟩
  | stringLit val =>
    exact .of_token 65 (valueToken (.stringLit val)) rfl (blank_valueToken _)
      ⟨_, rfl, congrArg SvValue.stringLit (ascii_literal val), .of_eq ⟨rfl, rfl, rfl, rfl⟩⟩
  | boolLit val =>
    exact .of_token 66 (valueToken (.boolLit val)) rfl (blank_valueToken _)
      ⟨_, rfl, rfl, .of_eq ⟨rfl, rfl, rfl, rfl⟩⟩
  | dateTimeLit val =>
    exact .of_token 67 (valueToken (.dateTimeLit val)) rfl (blank_valueToken _)
      ⟨_, rfl, congrArg SvValue.dateTimeLit (ascii_literal val), .of_eq ⟨rfl, rfl, rfl, rfl⟩⟩

theorem parses_op (op : CompOp) :
    Parses false 0 (.nonterminal .op) [opToken op] 1 (·.svCompOp = op) := by
  cases op with
  | eq =>
    exact .of_token 78 (opToken .eq) rfl (blank_tok _)
      ⟨_, rfl, rfl, .of_eq ⟨rfl, rfl, rfl, rfl⟩⟩
  | ne =>
    exact .of_token 81 (opToken .ne) rfl (blank_tok _)
      ⟨_, rfl, rfl, .of_eq ⟨rfl, rfl, rfl, rfl⟩⟩
  | lt =>
    exact .of_token 79 (opToken .lt) rfl (blank_tok _)
      ⟨_, rfl, rfl, .of_eq ⟨rfl, rfl, rfl, rfl⟩⟩
  | gt =>
    exact .of_token 80 (opToken .gt) rfl (blank_tok _)
      ⟨_, rfl, rfl, .of_eq ⟨rfl, rfl, rfl, rfl⟩⟩
  | le =>
    exact .of_token 82 (opToken .le) rfl (blank_tok _)
      ⟨_, rfl, rfl, .of_eq ⟨rfl, rfl, rfl, rfl⟩⟩
  | ge =>
    exact .of_token 83 (opToken .ge) rfl (blank_tok _)
      ⟨_, rfl, rfl, .of_eq ⟨rfl, rfl, rfl, rfl⟩⟩

/-- An aggregate over a column. -/
theorem parses_aggregate (yyn : Nat) {t : Terminal} {aggType : SvAggrType} (col : TabCol)
    (hrule : yyrule yyn = some ⟨.aggCol, [.terminal t, .terminal .lparen, .nonterminal .col,
      .terminal .rparen]⟩)
    (haction : ∀ v c, yyaction yyn [(tok t).2, (tok .lparen).2, v, c] (tok t).2 =
      .ok { (tok t).2 with svAggCol := ⟨v.svCol, aggType, false, ""⟩ }) :
    Parses false 0 (.nonterminal .aggCol)
      (tok t :: tok .lparen :: (colTokens col ++ [tok .rparen])) 5
      (·.svAggCol = ⟨col, aggType, false, ""⟩) := by
  have hclose := ParsesAll.token_cons (tok .rparen) (blank_tok _) (ParsesAll.nil (r := 0))
  refine (Parses.node yyn hrule (.token (tok t) (blank_tok t)) (.token_cons (tok .lparen)
    (blank_tok _) (.cons (parses_col col) hclose (Or.inl rfl))) (Or.inl rfl) le_rfl ?_).cast rfl rfl
    (by omega)
  intro v vs hv hvs
  obtain ⟨_, rfl, w, _, rfl, hw, _, rfl, rfl⟩ := hvs
  subst hv hw
  exact ⟨_, haction _ _, rfl, .of_eq ⟨rfl, rfl, rfl, rfl⟩⟩

theorem parses_aggCol {col : AggCol} (hwritten : WrittenAggCol col) (hall : col.aggType ≠ .all) :
    Parses false 0 (.nonterminal .aggCol) (aggColTokens col) 5
      (·.svAggCol = ⟨col.column, col.aggType, false, ""⟩) := by
  obtain ⟨column, aggType, hasAlias, aliasName⟩ := col
  cases aggType with
  | noOp =>
    refine (Parses.of_one 34 rfl (parses_col column) (by omega) le_rfl ?_).cast rfl rfl (by omega)
    intro v hv
    subst hv
    exact ⟨_, rfl, rfl, .of_eq ⟨rfl, rfl, rfl, rfl⟩⟩
  | sum => exact parses_aggregate 35 column rfl fun _ _ => rfl
  | max => exact parses_aggregate 36 column rfl fun _ _ => rfl
  | min => exact parses_aggregate 37 column rfl fun _ _ => rfl
  | count => exact parses_aggregate 38 column rfl fun _ _ => rfl
  | countStar =>
    have hcolumn : column = ⟨"", ""⟩ := hwritten.column (Or.inl rfl)
    subst hcolumn
    have hclose := ParsesAll.token_cons (tok .rparen) (blank_tok _) (ParsesAll.nil (r := 0))
    refine (Parses.node 39 rfl (.token (tok .COUNT) (blank_tok _)) (.token_cons (tok .lparen)
      (blank_tok _) (.token_cons (tok .star) (blank_tok _) hclose)) (Or.inl rfl) le_rfl ?_).cast rfl
      rfl (by omega)
    intro v vs hv hvs
    obtain ⟨_, rfl, _, rfl, _, rfl, rfl⟩ := hvs
    subst hv
    exact ⟨_, rfl, rfl, .of_eq ⟨rfl, rfl, rfl, rfl⟩⟩
  | all => exact absurd rfl hall

theorem parses_selector {col : AggCol} (hwritten : WrittenAggCol col) :
    Parses false 0 (.nonterminal .selector) (selectorTokens col) 5 (·.svAggCol = col) := by
  by_cases hall : col.aggType = .all
  · obtain ⟨column, aggType, hasAlias, aliasName⟩ := col
    have htype : aggType = .all := hall
    have hcolumn : column = ⟨"", ""⟩ := hwritten.column (Or.inr hall)
    have hnone : hasAlias = false := hwritten.all hall
    have hname : aliasName = "" := hwritten.noAlias hnone
    subst htype hcolumn hnone hname
    have hstar : Parses false 0 (.nonterminal .selector) [tok .star] 1
        (·.svAggCol = ⟨⟨"", ""⟩, .all, false, ""⟩) :=
      .of_token 42 (tok .star) rfl (blank_tok _) ⟨_, rfl, rfl, .of_eq ⟨rfl, rfl, rfl, rfl⟩⟩
    exact hstar.cast rfl rfl (by omega)
  · have hcol := parses_aggCol hwritten hall
    obtain ⟨column, aggType, hasAlias, aliasName⟩ := col
    cases hasAlias with
    | false =>
      have hname : aliasName = "" := hwritten.noAlias rfl
      subst hname
      refine Parses.of_one 41 rfl hcol (Nat.succ_pos 4) le_rfl ?_
      intro v hv
      exact ⟨_, rfl, hv, .of_eq ⟨rfl, rfl, rfl, rfl⟩⟩
    | true =>
      refine (Parses.node 40 rfl hcol (.token_cons (tok .AS) (blank_tok _)
        ((parses_aliasName aliasName).all (by omega))) (Or.inl rfl) le_rfl ?_).cast rfl rfl
        (by omega)
      intro v vs hv hvs
      obtain ⟨_, rfl, w, rfl, hw⟩ := hvs
      subst hw
      refine ⟨_, rfl, ?_, .of_eq ⟨rfl, rfl, rfl, rfl⟩⟩
      change ({ v.svAggCol with hasAlias := true, aliasName := w.svStr } : AggCol) = _
      rw [hv]

theorem parses_havingExpr {having : HavingExpr} (hwritten : WrittenHavingExpr having) :
    Parses false 0 (.nonterminal .havingExpr) (havingExprTokens having) 5
      (·.svHaving = having) := by
  refine (Parses.node 47 rfl (parses_aggCol hwritten.lhs hwritten.notAll) (.cons
    (parses_op having.op) ((parses_value having.rhs).all (by omega)) (Or.inl rfl)) (Or.inl rfl)
    le_rfl ?_).cast rfl rfl (by omega)
  intro v vs hv hvs
  obtain ⟨o, _, rfl, ho, w, rfl, hw⟩ := hvs
  refine ⟨_, rfl, ?_, .of_eq ⟨rfl, rfl, rfl, rfl⟩⟩
  change HavingExpr.mk v.svAggCol o.svCompOp w.svVal = having
  obtain ⟨⟨column, aggType, hasAlias, aliasName⟩, op, rhs⟩ := having
  have hnone : hasAlias = false := hwritten.noAlias
  have hname : aliasName = "" := hwritten.lhs.noAlias hwritten.noAlias
  rw [hv, ho, hw, hnone, hname]

section Lists

theorem parses_selectors {cols : List AggCol} (hnil : cols ≠ [])
    (hwritten : ∀ col ∈ cols, WrittenAggCol col) :
    Parses false 0 (.nonterminal .selectors) (sepBy .comma selectorTokens cols) 7
      (·.svAggCols = cols) := by
  have hrules : ListRules 43 44 .selectors .selector .comma 0 SemValue.svAggCol
      SemValue.svAggCols := ⟨rfl, rfl, fun _ => ⟨_, rfl, rfl, .of_eq ⟨rfl, rfl, rfl, rfl⟩⟩,
        fun _ _ _ => ⟨_, rfl, rfl, .of_eq ⟨rfl, rfl, rfl, rfl⟩⟩⟩
  exact hrules.parsesPlain (by omega) hnil fun col hcol => parses_selector (hwritten col hcol)

theorem parses_tableList {names : List String} (hnil : names ≠ []) :
    Parses false 0 (.nonterminal .tableList) (sepBy .comma (fun name => [identifier name]) names) 3
      (·.svStrs = names) := by
  have hrules : ListRules 91 92 .tableList .tbName .comma 0 SemValue.svStr SemValue.svStrs :=
    ⟨rfl, rfl, fun _ => ⟨_, rfl, rfl, .of_eq ⟨rfl, rfl, rfl, rfl⟩⟩,
      fun _ _ _ => ⟨_, rfl, rfl, .of_eq ⟨rfl, rfl, rfl, rfl⟩⟩⟩
  exact hrules.parsesPlain (by omega) hnil fun name _ => parses_tbName name

theorem parses_colNameList {names : List String} (hnil : names ≠ []) :
    Parses false 0 (.nonterminal .colNameList) (nameTokens names) 3 (·.svStrs = names) := by
  have hrules : ListRules 54 55 .colNameList .colName .comma 0 SemValue.svStr SemValue.svStrs :=
    ⟨rfl, rfl, fun _ => ⟨_, rfl, rfl, .of_eq ⟨rfl, rfl, rfl, rfl⟩⟩,
      fun _ _ _ => ⟨_, rfl, rfl, .of_eq ⟨rfl, rfl, rfl, rfl⟩⟩⟩
  exact hrules.parsesPlain (by omega) hnil fun name _ => parses_colName name

theorem parses_colList {cols : List TabCol} (hnil : cols ≠ []) :
    Parses false 0 (.nonterminal .colList) (sepBy .comma colTokens cols) 5 (·.svCols = cols) := by
  have hrules : ListRules 76 77 .colList .col .comma 0 SemValue.svCol SemValue.svCols :=
    ⟨rfl, rfl, fun _ => ⟨_, rfl, rfl, .of_eq ⟨rfl, rfl, rfl, rfl⟩⟩,
      fun _ _ _ => ⟨_, rfl, rfl, .of_eq ⟨rfl, rfl, rfl, rfl⟩⟩⟩
  exact hrules.parsesPlain (by omega) hnil fun col _ => parses_col col

theorem parses_valueList {vals : List SvValue} (hnil : vals ≠ []) :
    Parses false 0 (.nonterminal .valueList) (sepBy .comma (fun val => [valueToken val]) vals) 3
      (·.svVals = vals) := by
  have hrules : ListRules 61 62 .valueList .value .comma 0 SemValue.svVal SemValue.svVals :=
    ⟨rfl, rfl, fun _ => ⟨_, rfl, rfl, .of_eq ⟨rfl, rfl, rfl, rfl⟩⟩,
      fun _ _ _ => ⟨_, rfl, rfl, .of_eq ⟨rfl, rfl, rfl, rfl⟩⟩⟩
  exact hrules.parsesPlain (by omega) hnil fun val _ => parses_value val

theorem parses_havingClause {havings : List HavingExpr} (hnil : havings ≠ [])
    (hwritten : ∀ having ∈ havings, WrittenHavingExpr having) :
    Parses false 3 (.nonterminal .havingClause) (sepBy .AND havingExprTokens havings) 7
      (·.svHavings = havings) := by
  have hkeeps : ∀ (v : SemValue) (havings : List HavingExpr),
      Keeps 3 v { v with svHavings := havings } := fun _ _ =>
    .of_same (fun h => by omega) (fun h => by omega) (fun h => by omega) rfl
  have hrules : ListRules 48 49 .havingClause .havingExpr .AND 3 SemValue.svHaving
      SemValue.svHavings := ⟨rfl, rfl, fun v => ⟨_, rfl, rfl, hkeeps v _⟩,
        fun v _ _ => ⟨_, rfl, rfl, hkeeps v _⟩⟩
  exact hrules.parsesPlain (by omega) hnil fun having hin => parses_havingExpr (hwritten having hin)

end Lists

end Ast

end Grmdb
