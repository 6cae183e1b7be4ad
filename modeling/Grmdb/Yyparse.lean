import Grmdb.ShiftReduceLazy
import Grmdb.YaccActions
import Grmdb.YaccItems

namespace Grmdb

open LR Ast

/-- A token with its value, of which the lexer sets the field that goes with the token. -/
abbrev YyToken := Terminal × SemValue

def yyparser : Parser Terminal Nonterminal YyToken SemValue ParseError where
  toTables := yytables
  kind := Prod.fst
  value := Prod.snd
  make := yyaction
  syntaxError := .syntaxError
  overflow := .memoryExhausted

def yyinitdepth : Nat := 200

/-- The slots of `yyvsa`; the first one lies under the stack. The stack does not grow, as a value
cannot be copied as bytes. -/
def yyslots : List SemValue := List.replicate (yyinitdepth - 1) {}

/-- The states that look at the next token. -/
def yylooks (yystate : Nat) : Bool := yypact.getD yystate yypactNinf != yypactNinf

variable {σ : Type} (yylex : σ → YyToken × σ)

/-- The result of `yyparse` and the state it leaves the lexer in. -/
def yyparse (fuel : Nat) (lexer : σ) : Option (Except ParseError SemValue × σ) :=
  yyparser.lazyRun yylooks yylex fuel ⟨[], yyslots, none, lexer⟩

/-- A state that does not look at the next token does the same with every token. -/
theorem yybackup_of_not_looks {yystate : Nat} (h : yylooks yystate = false) (t : Terminal) :
    yybackup yystate t = yydefault yystate := by
  have hpact : yypact.getD yystate yypactNinf = yypactNinf := by
    simpa [yylooks] using h
  rw [yybackup, hpact, if_pos rfl]

theorem yylooks_of_shift (s : Nat) (t : Terminal) (s' : Nat)
    (h : yyparser.action s t = .shift s') : yylooks s = true := by
  cases hlooks : yylooks s with
  | true => rfl
  | false =>
    change yybackup s t = .shift s' at h
    rw [yybackup_of_not_looks hlooks, yydefault] at h
    split at h
    · cases h
    · cases h

variable {yylex} {lexer : σ} {tokens : List YyToken}

theorem yyparse_view (fuel : Nat) (lexer : σ) :
    (yyparse yylex fuel lexer).map Prod.fst =
      yyparser.run fuel ⟨[], yyslots, Stream'.corec' yylex lexer⟩ :=
  Parser.lazyRun_view yylooks_of_shift fuel _

theorem yyparse_ends {res : Except ParseError SemValue} :
    (∃ fuel lexer', yyparse yylex fuel lexer = some (res, lexer')) ↔
      yyparser.Ends ⟨[], yyslots, Stream'.corec' yylex lexer⟩ res := by
  rw [Parser.ends_iff_run]
  refine exists_congr fun fuel => ?_
  rw [← yyparse_view, Option.map_eq_some_iff]
  constructor
  · rintro ⟨lexer', h⟩
    exact ⟨_, h, rfl⟩
  · rintro ⟨⟨_, lexer'⟩, h, rfl⟩
    exact ⟨lexer', h⟩

/-- The parser returns what it ends with. -/
theorem yyparse_iff {res out : Except ParseError SemValue}
    (hends : yyparser.Ends ⟨[], yyslots, Stream'.corec' yylex lexer⟩ out) :
    (∃ fuel lexer', yyparse yylex fuel lexer = some (res, lexer')) ↔ res = out := by
  rw [yyparse_ends]
  constructor
  · intro h
    exact h.unique hends
  · intro h
    rw [h]
    exact hends

/-- A parse of the tokens that the input begins with. -/
structure Sentence (input : Stream' YyToken) where
  rule : Nat
  children : Forest YyToken
  rest : Stream' YyToken
  derives : ∃ start, yyrule rule = some start ∧ start.input = .start ∧
    children.Derives yyrule Prod.fst start.output
  word : children.word ++ₛ rest = input

/-- The value of a parse. -/
def Sentence.value {input : Stream' YyToken} (s : Sentence input) : Except ParseError SemValue :=
  yyparser.eval s.children yyslots >>= yyparser.result s.rule

/-- `yyparse` returns the value of the parse if there is one. -/
theorem Sentence.ends {input : Stream' YyToken} (s : Sentence input) :
    yyparser.Ends ⟨[], yyslots, input⟩ s.value := by
  obtain ⟨start, hrule, hinitial, hchildren⟩ := s.derives
  exact Parser.ends_of_complete yytables_complete hrule hinitial hchildren s.word

theorem exists_sentence {input : Stream' YyToken} {v : SemValue}
    (h : yyparser.Ends ⟨[], yyslots, input⟩ (.ok v)) : ∃ s : Sentence input, s.value = .ok v := by
  obtain ⟨r, start, children, rest, hrule, hinitial, hchildren, hword, hvalue⟩ :=
    Parser.Sound.accepted yytables_sound h
  exact ⟨⟨r, children, rest, ⟨start, hrule, hinitial, hchildren⟩, hword⟩, hvalue⟩

theorem yyparse_returns
    (hscan : Stream'.corec' yylex lexer = tokens ++ₛ Stream'.const (.T_EOF, {})) :
    ∃ fuel res, yyparse yylex fuel lexer = some res := by
  have hbuilt : yyparser.Built yyitems yyslots [] yyslots [] [] := .empty
  have hterm : yyparser.Terminating yyweight 2 (yyparser.kind (.T_EOF, {})) := yytables_terminating
  obtain ⟨res, hres⟩ := Parser.ends_of_terminating hterm yytables_sound
    (c := ⟨[], yyslots, Stream'.corec' yylex lexer⟩) hbuilt hscan
  obtain ⟨fuel, lexer', h⟩ := yyparse_ends.mpr hres
  exact ⟨fuel, _, h⟩

end Grmdb
