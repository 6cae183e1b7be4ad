import Mathlib.Computability.ContextFreeGrammar
import Grmdb.Yyparse
import Grmdb.ShiftReduceValues

namespace Grmdb

open LR Ast

/-- The grammar of `yacc.y`. -/
def yygrammar : ContextFreeGrammar Terminal := ⟨Nonterminal, .start, grammarRules.toFinset⟩

theorem mem_yygrammar_rules {rule : ContextFreeRule Terminal Nonterminal} :
    rule ∈ yygrammar.rules ↔ ∃ yyn, yyrule yyn = some rule := by
  change rule ∈ grammarRules.toFinset ↔ _
  rw [List.mem_toFinset, List.mem_iff_getElem?]
  constructor
  · intro h
    obtain ⟨i, hi⟩ := h
    exact ⟨i + 2, hi⟩
  · intro h
    obtain ⟨yyn, hyyn⟩ := h
    cases yyn with
    | zero => cases hyyn
    | succ n =>
      cases n with
      | zero => cases hyyn
      | succ n => exact ⟨n, hyyn⟩

/-- The input begins with a sentence of the grammar exactly when it has a parse. -/
theorem sentence_iff {input : Stream' YyToken} :
    (∃ words rest, words ++ₛ rest = input ∧ words.map Prod.fst ∈ yygrammar.language) ↔
      Nonempty (Sentence input) := by
  constructor
  · intro h
    obtain ⟨words, rest, hinput, hmem⟩ := h
    have hderives : yygrammar.Derives [.nonterminal Nonterminal.start]
        (words.map fun token => .terminal token.1) := by
      have hgenerates : yygrammar.Derives [.nonterminal Nonterminal.start]
          ((words.map Prod.fst).map Symbol.terminal) := hmem
      rwa [List.map_map] at hgenerates
    have htree : ∃ forest : Forest YyToken,
        forest.Derives yyrule Prod.fst [.nonterminal Nonterminal.start] ∧ forest.word = words :=
      exists_forest (G := yygrammar) (fun rule hrule => mem_yygrammar_rules.mp hrule) hderives
    obtain ⟨forest, hforest, hword⟩ := htree
    generalize hA : Nonterminal.start = A at hforest
    cases hforest with
    | @node r rule children last _ hrule hchildren hlast =>
      cases hlast
      rw [Forest.word, Forest.word, List.append_nil] at hword
      exact ⟨⟨r, children, rest, ⟨rule, hrule, hA.symm, hchildren⟩, hword ▸ hinput⟩⟩
  · intro h
    obtain ⟨s⟩ := h
    obtain ⟨start, hrule, hinitial, hchildren⟩ := s.derives
    refine ⟨s.children.word, s.rest, s.word, ?_⟩
    have htree : (Forest.node s.rule s.children .nil).Derives yyrule Prod.fst
        [.nonterminal start.input] := .node hrule hchildren .nil
    have hderives := htree.derives (G := yygrammar)
      fun r rule hr => mem_yygrammar_rules.mpr ⟨r, hr⟩
    rw [Forest.word, Forest.word, List.append_nil, hinitial] at hderives
    change yygrammar.Derives _ ((s.children.word.map Prod.fst).map Symbol.terminal)
    rw [List.map_map]
    exact hderives

namespace Ast

theorem BinaryExpr.inList_error {lhs : TabCol} {rhs : Expr TreeNode} {e : ParseError}
    {f : BinaryExpr TreeNode → SemValue} (h : (BinaryExpr.inList lhs rhs).map f = .error e) :
    e = .internalError := by
  cases rhs with
  | value val => exact (Except.error.inj h).symm
  | col col => exact (Except.error.inj h).symm
  | subquery q => cases h
  | valueList values => cases h

theorem yyaction_error {yyn : Nat} {yyvs : List SemValue} {yyval : SemValue} {e : ParseError}
    (h : yyaction yyn yyvs yyval = .error e) : e = .internalError := by
  unfold yyaction at h
  dsimp only at h
  split at h
  all_goals first | exact BinaryExpr.inList_error h | cases h

end Ast

/-- The error of a parse is not a syntax error. -/
theorem Sentence.value_error {input : Stream' YyToken} {s : Sentence input} {e : ParseError}
    (h : s.value = .error e) : e ≠ .syntaxError := by
  have hcause : e = yyparser.overflow ∨ ∃ r vs v, yyparser.make r vs v = .error e := by
    rcases bind_eq_error.mp h with heval | ⟨values, -, hresult⟩
    · exact Parser.eval_error heval
    · exact Parser.result_error hresult
  rcases hcause with rfl | ⟨r, vs, v, hmake⟩
  · exact fun hsame => ParseError.noConfusion hsame
  · rw [yyaction_error hmake]
    exact fun hsame => ParseError.noConfusion hsame

variable {σ : Type} {yylex : σ → YyToken × σ} {lexer : σ} {tokens : List YyToken}

/-- `yyparse` returns with one result. It is the value of the parse, if the input begins with a
sentence, and a syntax error means that it does not. -/
theorem yyparse_exact
    (hscan : Stream'.corec' yylex lexer = tokens ++ₛ Stream'.const (.T_EOF, {})) :
    ∃ res, (∀ res', (∃ fuel lexer', yyparse yylex fuel lexer = some (res', lexer')) ↔ res' = res) ∧
      (∀ s : Sentence (Stream'.corec' yylex lexer), res = s.value) ∧
      (∀ v, res = .ok v → ∃ words rest, words ++ₛ rest = Stream'.corec' yylex lexer ∧
        words.map Prod.fst ∈ yygrammar.language ∧
        ∃ s : Sentence (Stream'.corec' yylex lexer), s.value = .ok v) ∧
      (res = .error .syntaxError → ∀ words rest, words ++ₛ rest = Stream'.corec' yylex lexer →
        words.map Prod.fst ∉ yygrammar.language) := by
  obtain ⟨fuel, ⟨res, lexer'⟩, hfuel⟩ := yyparse_returns hscan
  have hends := yyparse_ends.mp ⟨fuel, lexer', hfuel⟩
  have hvalue : ∀ s : Sentence (Stream'.corec' yylex lexer), res = s.value :=
    fun s => hends.unique s.ends
  refine ⟨res, fun res' => yyparse_iff hends, hvalue, fun v hv => ?_,
    fun herror words rest hinput hmem => ?_⟩
  · obtain ⟨s, hs⟩ := exists_sentence (hv ▸ hends)
    obtain ⟨words, rest, hinput, hmem⟩ := sentence_iff.mpr ⟨s⟩
    exact ⟨words, rest, hinput, hmem, s, hs⟩
  · obtain ⟨s⟩ := sentence_iff.mp ⟨words, rest, hinput, hmem⟩
    exact Sentence.value_error ((hvalue s).symm.trans herror) rfl

/-- A lexer that has its tokens in a list. -/
def listLexer : List YyToken → YyToken × List YyToken
  | [] => ((.T_EOF, {}), [])
  | token :: tokens => (token, tokens)

theorem corec'_listLexer (tokens : List YyToken) :
    Stream'.corec' listLexer tokens = tokens ++ₛ Stream'.const (.T_EOF, {}) := by
  induction tokens with
  | nil =>
    refine Stream'.ext fun n => ?_
    rw [Stream'.nil_append_stream, Stream'.get_const]
    induction n with
    | zero => rfl
    | succ n ih =>
      rw [Stream'.corec'_eq]
      exact ih
  | cons token tokens ih =>
    rw [Stream'.corec'_eq, Stream'.cons_append_stream]
    exact congrArg (Stream'.cons token) ih

theorem yyparse_exact_showTables :
    ∃ res, ∀ res', (∃ fuel lexer', yyparse listLexer fuel
      [(.SHOW, {}), (.TABLES, {}), (.semicolon, {})] = some (res', lexer')) ↔ res' = res := by
  obtain ⟨res, hres, -⟩ := yyparse_exact (corec'_listLexer _)
  exact ⟨res, hres⟩

end Grmdb
