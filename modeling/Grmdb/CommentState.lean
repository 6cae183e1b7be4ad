import Grmdb.Yylex

namespace Grmdb

open LongestMatch

namespace Lexing

variable (atof : String → UInt32)

/-- What comes behind the end of a comment. -/
def afterComment : List Char → Option (List Char)
  | '*' :: '/' :: text => some text
  | _ :: text => afterComment text
  | [] => none

theorem longest_close (text : List Char) :
    (literally "*/").longest ('*' :: '/' :: text) = some 2 := by
  change (Regex.comp (char '*') (.comp (char '/') .epsilon)).longest _ = _
  rw [char, Regex.longest_oneOf_comp, char, Regex.longest_oneOf_comp, Regex.longest_epsilon]
  rfl

theorem longest_not_close {c : Char} {text : List Char} (h : c = '*' → text.head? ≠ some '/') :
    (literally "*/").longest (c :: text) = none := by
  change (Regex.comp (char '*') (.comp (char '/') .epsilon)).longest _ = _
  rw [char, Regex.longest_oneOf_comp]
  by_cases hc : c = '*'
  · subst hc
    rw [if_pos (beq_self_eq_true '*')]
    cases text with
    | nil => rfl
    | cons d text =>
      have hd : d ≠ '/' := fun hd => h rfl (congrArg some hd)
      rw [char, Regex.longest_oneOf_comp, if_neg (by simpa using hd)]
      rfl
  · rw [if_neg (by simpa using hc)]

theorem best_close (text : List Char) :
    best (rules atof .stateComment) ('*' :: '/' :: text) = some (.begin .initial, 2) := by
  have hother : (Regex.oneOf (· != '*')).longest ('*' :: '/' :: text) = none :=
    Regex.longest_oneOf _ _ _
  have hstar : (char '*').longest ('*' :: '/' :: text) = some 1 := Regex.longest_oneOf _ _ _
  simp [best, rules, ruleMatch, longest_close, hother, hstar, keep]

theorem best_skip {c : Char} {text : List Char} (h : c = '*' → text.head? ≠ some '/') :
    best (rules atof .stateComment) (c :: text) = some (.skip, 1) := by
  have hclose := longest_not_close h
  have hother := Regex.longest_oneOf (· != '*') c text
  have hstar : (char '*').longest (c :: text) = _ := Regex.longest_oneOf _ _ _
  by_cases hc : c = '*'
  · subst hc
    simp [best, rules, ruleMatch, hclose, hother, hstar, keep]
  · simp [best, rules, ruleMatch, hclose, hother, hstar, keep, hc]

theorem yylexLoop_open (fuel : Nat) {text : List Char} (h : afterComment text = none)
    (hfuel : text.length < fuel) :
    yylexLoop atof fuel ⟨.stateComment, text⟩ = ((.T_EOF, {}), ⟨.stateComment, []⟩) := by
  induction fuel generalizing text with
  | zero => omega
  | succ fuel ih =>
    cases text with
    | nil => rfl
    | cons c text =>
      have hbound : c = '*' → text.head? ≠ some '/' := by
        intro hc hhead
        subst hc
        obtain ⟨rest, rfl⟩ := List.head?_eq_some_iff.mp hhead
        cases h
      have hrest : afterComment text = none := by
        rw [afterComment.eq_def] at h
        split at h
        next => cases h
        next heq => cases heq; exact h
        next heq => cases heq
      rw [List.length_cons] at hfuel
      rw [yylexLoop, if_neg (List.cons_ne_nil _ _), best_skip atof hbound]
      exact ih hrest (by change text.length < fuel; omega)

/-- Enough fuel is enough. -/
theorem yylexLoop_fuel {fuel fuel' : Nat} {lexer : Lexer} (h : lexer.buffer.length < fuel)
    (h' : lexer.buffer.length < fuel') :
    yylexLoop atof fuel lexer = yylexLoop atof fuel' lexer := by
  induction fuel generalizing fuel' lexer with
  | zero => omega
  | succ fuel ih =>
    obtain ⟨fuel', rfl⟩ := Nat.exists_eq_succ_of_ne_zero (n := fuel') (by omega)
    rw [yylexLoop, yylexLoop]
    by_cases hnil : lexer.buffer = []
    · rw [if_pos hnil, if_pos hnil]
    · rw [if_neg hnil, if_neg hnil]
      have hpos := List.length_pos_iff.mpr hnil
      have hdrop : ∀ n, 0 < n → (lexer.buffer.drop n).length < fuel ∧
          (lexer.buffer.drop n).length < fuel' := by
        intro n hn
        rw [List.length_drop]
        omega
      split
      next => exact ih (hdrop 1 Nat.one_pos).1 (hdrop 1 Nat.one_pos).2
      next n hbest => exact ih (hdrop n (best_pos hbest)).1 (hdrop n (best_pos hbest)).2
      next start n hbest => exact ih (hdrop n (best_pos hbest)).1 (hdrop n (best_pos hbest)).2
      next => rfl

/-- A comment that ends is left out. -/
theorem yylexLoop_closed {fuel fuel' : Nat} {text rest : List Char}
    (h : afterComment text = some rest) (hfuel : text.length < fuel)
    (hfuel' : rest.length < fuel') :
    yylexLoop atof fuel ⟨.stateComment, text⟩ = yylexLoop atof fuel' ⟨.initial, rest⟩ := by
  induction fuel generalizing text with
  | zero => omega
  | succ fuel ih =>
    cases text with
    | nil => cases h
    | cons c text =>
      rw [List.length_cons] at hfuel
      by_cases hclose : c = '*' ∧ text.head? = some '/'
      · obtain ⟨rfl, hhead⟩ := hclose
        obtain ⟨tail, rfl⟩ := List.head?_eq_some_iff.mp hhead
        rw [afterComment] at h
        cases h
        rw [List.length_cons] at hfuel
        rw [yylexLoop, if_neg (List.cons_ne_nil _ _), best_close]
        exact yylexLoop_fuel atof (by change rest.length < fuel; omega) hfuel'
      · have hbound : c = '*' → text.head? ≠ some '/' := fun hc hhead => hclose ⟨hc, hhead⟩
        have hrest : afterComment text = some rest := by
          rw [afterComment.eq_def] at h
          split at h
          next heq =>
            cases heq
            exact absurd rfl (hbound rfl)
          next heq => cases heq; exact h
          next heq => cases heq
        rw [yylexLoop, if_neg (List.cons_ne_nil _ _), best_skip atof hbound]
        exact ih hrest (by change text.length < fuel; omega)

/-- A comment that a text begins with. -/
theorem best_open (text : List Char) :
    best (rules atof .initial) ('/' :: '*' :: text) = some (.begin .stateComment, 2) := by
  have hfilter : (rules atof .initial).filter (fun rule => !(rule.1.deriv '/').dead) =
      [(literally "/*", .begin .stateComment), (anyChar, .skip)] := rfl
  have hopen : (literally "/*").longest ('/' :: '*' :: text) = some 2 := by
    change (Regex.comp (char '/') (.comp (char '*') .epsilon)).longest _ = _
    rw [char, Regex.longest_oneOf_comp, char, Regex.longest_oneOf_comp, Regex.longest_epsilon]
    rfl
  have hany : anyChar.longest ('/' :: '*' :: text) = some 1 := Regex.longest_oneOf _ _ _
  rw [best_cons_filter, hfilter]
  simp [best, ruleMatch, hopen, hany, keep]

theorem yylex_open {text : List Char} (h : afterComment text = none) :
    yylex atof ⟨.stateComment, text⟩ = ((.T_EOF, {}), ⟨.stateComment, []⟩) :=
  yylexLoop_open atof _ h (Nat.lt_succ_self _)

theorem yylex_opens {text : List Char} (h : afterComment text = none) :
    yylex atof ⟨.initial, '/' :: '*' :: text⟩ = ((.T_EOF, {}), ⟨.stateComment, []⟩) := by
  rw [yylex, yylexLoop, if_neg (List.cons_ne_nil _ _), best_open]
  refine yylexLoop_open atof _ h ?_
  change text.length < text.length + 1 + 1
  omega

end Lexing

section Session

open LR Ast Lexing

variable {σ : Type} {yylex : σ → YyToken × σ} {lexer lexer' : σ}

/-- A text without tokens is accepted and has no parse tree. -/
theorem yyparse_empty (h : yylex lexer = ((.T_EOF, {}), lexer')) :
    yyparse yylex 2 lexer = some (.ok {}, lexer') := by
  have hfirst : yyparser.lazyStep yylooks yylex ⟨[], yyslots, none, lexer⟩ =
      .inl ⟨[(17, {})], yyslots.tail, none, lexer'⟩ := by
    simp only [Parser.lazyStep, Parser.peek, Parser.look, h, Option.getD_none]
    rfl
  have hlast : yyparser.lazyStep yylooks yylex ⟨[(17, {})], yyslots.tail, none, lexer'⟩ =
      .inr (.ok {}, lexer') := rfl
  rw [yyparse, Parser.lazyRun, hfirst]
  change yyparser.lazyRun yylooks yylex 1 _ = _
  rw [Parser.lazyRun, hlast]

theorem lazyRun_unique {fuel fuel' : Nat} {c : LazyConfig YyToken SemValue σ}
    {res res' : Except ParseError SemValue × σ}
    (h : yyparser.lazyRun yylooks yylex fuel c = some res)
    (h' : yyparser.lazyRun yylooks yylex fuel' c = some res') : res = res' := by
  induction fuel generalizing fuel' c with
  | zero => cases h
  | succ fuel ih =>
    cases fuel' with
    | zero => cases h'
    | succ fuel' =>
      rw [Parser.lazyRun] at h h'
      split at h
      next c' hstep =>
        rw [hstep] at h'
        exact ih h h'
      next out hstep =>
        rw [hstep] at h'
        cases h
        cases h'
        rfl

/-- Lexers that give the same first token are parsed in the same way. -/
theorem yyparse_congr (h : yylex lexer = yylex lexer') (fuel : Nat) :
    yyparse yylex fuel lexer = yyparse yylex fuel lexer' := by
  cases fuel with
  | zero => rfl
  | succ fuel =>
    have hstep : yyparser.lazyStep yylooks yylex ⟨[], yyslots, none, lexer⟩ =
        yyparser.lazyStep yylooks yylex ⟨[], yyslots, none, lexer'⟩ := by
      have hlooks : yylooks (topState ([] : List (Nat × SemValue))) = true := by decide
      simp only [Parser.lazyStep, hlooks, if_true, Parser.peek, Parser.look, h]
    rw [yyparse, yyparse, Parser.lazyRun, Parser.lazyRun, hstep]

variable (atof : String → UInt32)

/-- Texts that the server parses one after the other. An exception is the result of its text. -/
inductive Session : StartCondition → List (List Char) → List (Except ParseError (Option TreeNode)) →
    StartCondition → Prop where
  | nil (start : StartCondition) : Session start [] [] start
  | cons {start last : StartCondition} {text : List Char} {texts : List (List Char)}
      {fuel : Nat} {res : Except ParseError SemValue} {lexer : Lexer}
      {results : List (Except ParseError (Option TreeNode))} :
      yyparse (Lexing.yylex atof) fuel ⟨start, text⟩ = some (res, lexer) →
      Session lexer.start texts results last →
      Session start (text :: texts) (res.map SemValue.svNode :: results) last

variable {atof} {start last : StartCondition} {text rest : List Char} {texts : List (List Char)}
  {results : List (Except ParseError (Option TreeNode))}

/-- A text without tokens in a session. -/
theorem session_empty {lexer : Lexer}
    (h : Lexing.yylex atof ⟨start, text⟩ = ((.T_EOF, {}), lexer)) :
    Session atof start (text :: texts) results last ↔
      ∃ results', results = .ok none :: results' ∧
        Session atof lexer.start texts results' last := by
  have hrun := yyparse_empty h
  constructor
  · intro hsession
    cases hsession with
    | cons hparse hrest =>
      cases lazyRun_unique hparse hrun
      exact ⟨_, rfl, hrest⟩
  · intro hsession
    obtain ⟨results', rfl, hrest⟩ := hsession
    exact .cons hrun hrest

theorem session_closed (h : afterComment text = some rest) :
    Session atof .stateComment (text :: texts) results last ↔
      Session atof .initial (rest :: texts) results last := by
  have hlex : Lexing.yylex atof ⟨.stateComment, text⟩ = Lexing.yylex atof ⟨.initial, rest⟩ :=
    yylexLoop_closed atof h (Nat.lt_succ_self _) (Nat.lt_succ_self _)
  constructor
  · intro hsession
    cases hsession with
    | cons hparse hrest => exact .cons (yyparse_congr hlex _ ▸ hparse) hrest
  · intro hsession
    cases hsession with
    | cons hparse hrest => exact .cons ((yyparse_congr hlex _).symm ▸ hparse) hrest

theorem session_in_comment (htexts : ∀ text ∈ texts, afterComment text = none)
    {more : List (List Char)} :
    Session atof .stateComment (texts ++ more) results last ↔
      ∃ results', results = List.replicate texts.length (.ok none) ++ results' ∧
        Session atof .stateComment more results' last := by
  induction texts generalizing results with
  | nil => simp
  | cons text texts ih =>
    rw [List.cons_append, session_empty (yylex_open atof (htexts text List.mem_cons_self))]
    constructor
    · intro h
      obtain ⟨results', rfl, hrest⟩ := h
      obtain ⟨results'', rfl, hmore⟩ :=
        (ih fun text hin => htexts text (List.mem_cons_of_mem _ hin)).mp hrest
      exact ⟨results'', rfl, hmore⟩
    · intro h
      obtain ⟨results', rfl, hmore⟩ := h
      exact ⟨_, rfl, (ih fun text hin => htexts text (List.mem_cons_of_mem _ hin)).mpr
        ⟨results', rfl, hmore⟩⟩

/-- A text that begins with a comment that it does not end is such a text. -/
theorem yyparse_opens {text : List Char} (h : afterComment text = none) :
    yyparse (Lexing.yylex atof) 2 ⟨.initial, '/' :: '*' :: text⟩ =
      some (.ok {}, ⟨.stateComment, []⟩) :=
  yyparse_empty (yylex_opens atof h)

/-- A comment that a text leaves open takes in the texts after it, whoever sends them, up to the
first one with the end of a comment. They are accepted and nothing is done. -/
theorem session_comment {opening closing : List Char} {later : List (List Char)} {fuel : Nat}
    {res : Except ParseError SemValue} {lexer : Lexer}
    (hopening : yyparse (Lexing.yylex atof) fuel ⟨start, opening⟩ = some (res, lexer))
    (hopen : lexer.start = .stateComment) (htexts : ∀ text ∈ texts, afterComment text = none)
    (hclosing : afterComment closing = some rest) :
    Session atof start (opening :: (texts ++ closing :: later)) results last ↔
      ∃ results', results =
          res.map SemValue.svNode :: (List.replicate texts.length (.ok none) ++ results') ∧
        Session atof .initial (rest :: later) results' last := by
  constructor
  · intro h
    cases h with
    | cons hparse hrest =>
      cases lazyRun_unique hparse hopening
      rw [hopen] at hrest
      obtain ⟨results', rfl, hmore⟩ := (session_in_comment htexts).mp hrest
      exact ⟨results', rfl, (session_closed hclosing).mp hmore⟩
  · intro h
    obtain ⟨results', rfl, hmore⟩ := h
    refine .cons hopening ?_
    rw [hopen]
    exact (session_in_comment htexts).mpr ⟨results', rfl, (session_closed hclosing).mpr hmore⟩

/-- A comment that a rejected text leaves open, and one that a text begins with: the statements
`SHOW TABLES;` are left out. -/
theorem session_comment_showTables :
    Session (fun _ => 0) .initial
      ["SELECT a /* x".toList, "SHOW TABLES;".toList, "*//* b".toList, "SHOW TABLES;".toList,
        "*/".toList]
      [.error .syntaxError, .ok none, .ok none, .ok none, .ok none] .initial := by
  have htexts : ∀ text ∈ ["SHOW TABLES;".toList], afterComment text = none := by decide
  have hempty : Lexing.yylex (fun _ => 0) ⟨.initial, []⟩ = ((.T_EOF, {}), ⟨.initial, []⟩) := rfl
  have hselect : (yyparse (Lexing.yylex fun _ => 0) 20 ⟨.initial, "SELECT a /* x".toList⟩).map
      (fun r => (r.1.map fun _ => (), r.2.start)) = some (.error .syntaxError, .stateComment) := by
    decide +kernel
  obtain ⟨⟨res, lexer⟩, hparse, hres⟩ := Option.map_eq_some_iff.mp hselect
  obtain ⟨hres, hstart⟩ := Prod.mk.inj hres
  have herror : res = .error .syntaxError := by
    cases res with
    | error e =>
      cases hres
      rfl
    | ok value => cases hres
  subst herror
  have hclosing : afterComment "*/".toList = some [] := rfl
  have hbegins : afterComment " b".toList = none := by decide
  have hlast : Session (fun _ => 0) .initial ["/* b".toList, "SHOW TABLES;".toList, "*/".toList]
      [.ok none, .ok none, .ok none] .initial :=
    (session_comment (yyparse_opens hbegins) rfl htexts hclosing).mpr
      ⟨[.ok none], rfl, (session_empty hempty).mpr ⟨[], rfl, .nil _⟩⟩
  exact (session_comment hparse hstart htexts rfl).mpr ⟨_, rfl, hlast⟩

end Session

end Grmdb
