import Grmdb.SqlRoundtrip

namespace Grmdb

open LR

namespace Ast

theorem blanks_yyslots : Blanks yyslots := by
  intro v hv k
  rw [List.eq_of_mem_replicate hv]
  exact .of_empty ⟨rfl, rfl, rfl, rfl⟩ k

theorem ends_of_reads (yyn : Nat) {symbols : List (Symbol Terminal Nonterminal)}
    {tokens : List YyToken} {v w : SemValue} {values : List SemValue}
    (hrule : yyrule yyn = some ⟨.start, symbols⟩)
    (hreads : yyparser.Reads symbols tokens yyslots (v :: values))
    (hmake : yyaction yyn ((v :: values).take symbols.length) v = .ok w) (rest : Stream' YyToken) :
    yyparser.Ends ⟨[], yyslots, tokens ++ₛ rest⟩ (.ok w) := by
  have hrule' : yyparser.rules yyn = some ⟨.start, symbols⟩ := hrule
  have hends := Parser.Reads.ends yytables_complete hrule' rfl hreads rest
  rw [Parser.result_cons hrule'] at hends
  change yyparser.Ends _ (yyaction yyn ((v :: values).take symbols.length) v) at hends
  rwa [hmake] at hends

theorem ends_help (rest : Stream' YyToken) :
    yyparser.Ends ⟨[], yyslots, [tok .HELP] ++ₛ rest⟩ (.ok { svNode := some .help }) := by
  have hreads : yyparser.Reads [.terminal .HELP] [tok .HELP] yyslots ({} :: yyslots.tail) :=
    .leaf (tok .HELP) {} {} (yyslots.tail.tail)
  exact ends_of_reads 3 rfl hreads rfl rest

theorem ends_off (rest : Stream' YyToken) :
    yyparser.Ends ⟨[], yyslots, [tok .SET, tok .OUTPUT_FILE, tok .OFF] ++ₛ rest⟩
      (.ok { svNode := some .offStmt }) := by
  have hstmt : Parses false 0 (.nonterminal .offStmt) [tok .SET, tok .OUTPUT_FILE, tok .OFF] 3
      (· = { svNode := some .offStmt }) := by
    refine (Parses.node 17 rfl (.token (tok .SET) (blank_tok _)) (.token_cons (tok .OUTPUT_FILE)
      (blank_tok _) (.token_cons (tok .OFF) (blank_tok _) (ParsesAll.nil (r := 0))))
      (Or.inl rfl) le_rfl ?_).cast rfl rfl (by omega)
    intro v vs hv hvs
    subst hv
    exact ⟨_, rfl, rfl, .of_eq ⟨rfl, rfl, rfl, rfl⟩⟩
  obtain ⟨v, values, hreads, hv, -, -⟩ := hstmt {} yyslots.tail
    (by rw [yyslots, List.length_tail, List.length_replicate, yyinitdepth]; omega)
    fun _ => blanks_yyslots
  subst hv
  exact ends_of_reads 6 rfl hreads rfl rest

/-- A statement and its semicolon. -/
theorem ends_stmt {tokens : List YyToken} {need : Nat} {tree : TreeNode}
    (h : ParsesTree (.nonterminal .stmt) tokens need tree) (hneed : need < yyinitdepth - 1)
    (rest : Stream' YyToken) :
    ∃ v, v.svNode = some tree ∧
      yyparser.Ends ⟨[], yyslots, tokens ++ [tok .semicolon] ++ₛ rest⟩ (.ok v) := by
  have hslots : yyslots.length = yyinitdepth - 1 := List.length_replicate
  obtain ⟨v, values, hreads, hlength, hv⟩ := h yyslots (hslots ▸ hneed) blanks_yyslots
  rw [hslots, yyinitdepth] at hlength
  obtain ⟨next, more, rfl⟩ := List.exists_cons_of_length_pos (l := values) (by omega)
  rw [List.length_cons] at hlength
  obtain ⟨last, more, rfl⟩ := List.exists_cons_of_length_pos (l := more) (by omega)
  have hdone : yyparser.Reads [.nonterminal .stmt, .terminal .semicolon]
      (tokens ++ [tok .semicolon]) yyslots (v :: {} :: last :: more) :=
    hreads.append (.leaf (tok .semicolon) next last more)
  exact ⟨_, hv, ends_of_reads 2 rfl hdone rfl rest⟩

theorem tokens_of_ne (n : Nat) {tree : TreeNode} (hhelp : tree ≠ .help) (hoff : tree ≠ .offStmt) :
    tree.tokens n = stmtTokens n tree ++ [tok .semicolon] := by
  cases tree with
  | help => exact absurd rfl hhelp
  | offStmt => exact absurd rfl hoff
  | _ => rfl

theorem ends_tokens {n : Nat} (hn : n ≤ 18) {tree : TreeNode} (hwritten : WrittenTree n tree)
    (rest : Stream' YyToken) :
    ∃ v, v.svNode = some tree ∧
      yyparser.Ends ⟨[], yyslots, tree.tokens n ++ₛ rest⟩ (.ok v) := by
  by_cases hhelp : tree = .help
  · subst hhelp
    exact ⟨_, rfl, ends_help rest⟩
  · by_cases hoff : tree = .offStmt
    · subst hoff
      exact ⟨_, rfl, ends_off rest⟩
    · rw [tokens_of_ne n hhelp hoff]
      exact ends_stmt (parses_stmt n hwritten hhelp hoff) (by rw [yyinitdepth]; omega) rest

end Ast

section Roundtrip

open Ast

variable {σ : Type} {yylex : σ → YyToken × σ} {lexer : σ}

/-- The parser gives back the parse tree from whose tokens it starts, whatever comes after them.
Every level of subqueries takes ten of the 199 slots. -/
theorem yyparse_tokens {n : Nat} {tree : TreeNode} {rest : Stream' YyToken} (hn : n ≤ 18)
    (hwritten : WrittenTree n tree)
    (hscan : Stream'.corec' yylex lexer = tree.tokens n ++ₛ rest) :
    ∃ v, v.svNode = some tree ∧
      ∀ res, (∃ fuel lexer', yyparse yylex fuel lexer = some (res, lexer')) ↔ res = .ok v := by
  obtain ⟨v, hv, hends⟩ := ends_tokens hn hwritten rest
  rw [← hscan] at hends
  exact ⟨v, hv, fun res => yyparse_iff hends⟩

/-- `SELECT a FROM t WHERE b IN (SELECT c FROM u WHERE d > 1) ORDER BY a DESC`. -/
def nestedSelect : TreeNode :=
  .selectStmt ⟨[⟨⟨"", "a"⟩, .noOp, false, ""⟩], ["t"],
    [⟨⟨"", "b"⟩, true, .eq, .subquery (.selectStmt ⟨[⟨⟨"", "c"⟩, .noOp, false, ""⟩], ["u"],
      [⟨⟨"", "d"⟩, false, .gt, .value (.intLit 1)⟩], [], [], none⟩)⟩],
    [], [], some ⟨⟨"", "a"⟩, .desc⟩⟩

theorem written_nestedSelect : WrittenTree 1 nestedSelect := by
  have hcol : ∀ name, WrittenAggCol ⟨⟨"", name⟩, .noOp, false, ""⟩ := fun name =>
    ⟨fun h => by simp at h, fun h => by simp at h, fun _ => rfl⟩
  refine ⟨by simp, by simpa using hcol "a", by simp, ⟨?_, by decide⟩, by simp⟩
  intro cond hcond
  rw [List.mem_singleton] at hcond
  subst hcond
  refine ⟨?_, fun _ => rfl, fun _ => rfl⟩
  refine ⟨by simp, by simpa using hcol "c", by simp, ⟨?_, by decide⟩, by simp⟩
  intro cond hcond
  rw [List.mem_singleton] at hcond
  subst hcond
  exact ⟨trivial, Bool.noConfusion, Bool.noConfusion⟩

theorem yyparse_tokens_nestedSelect :
    ∃ v, v.svNode = some nestedSelect ∧ ∀ res, (∃ fuel lexer',
      yyparse listLexer fuel (nestedSelect.tokens 1) = some (res, lexer')) ↔ res = .ok v :=
  yyparse_tokens (by omega) written_nestedSelect (corec'_listLexer _)

end Roundtrip

end Grmdb
