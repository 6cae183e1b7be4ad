import Mathlib.Algebra.Order.Ring.Int
import Grmdb.ShiftReduceSound

namespace LR

namespace Tables

variable {T N : Type}

def weightOf (weight : Symbol T N → Int) (symbols : List (Symbol T N)) : Int :=
  (symbols.map weight).sum

/-- Every reduction makes the stack lighter, and behind the end of the input nothing is shifted but
one token, which completes the initial symbol. -/
structure Terminating (p : Tables T N) (weight : Symbol T N → Int) (bound : Nat) (eof : T) :
    Prop where
  lighter : ∀ r rule, p.rules r = some rule →
    weight (.nonterminal rule.input) < weightOf weight rule.output
  bounded : ∀ symbol, -(bound : Int) ≤ weight symbol
  last : ∀ s s', p.action s eof = .shift s' → ∀ t, ∃ r rule, p.action s' t = .reduce r ∧
    p.rules r = some rule ∧ rule.input = p.initial

theorem Terminating.weight_nonneg {p : Tables T N} {weight : Symbol T N → Int} {bound : Nat}
    {eof : T} (ht : p.Terminating weight bound eof) (symbols : List (Symbol T N)) :
    0 ≤ weightOf weight symbols + bound * symbols.length := by
  induction symbols with
  | nil => simp [weightOf]
  | cons symbol symbols ih =>
    have hsymbol := ht.bounded symbol
    rw [weightOf] at ih
    rw [weightOf, List.map_cons, List.sum_cons, List.length_cons, Int.natCast_succ, Int.mul_add,
      Int.mul_one]
    omega

section Check

variable [DecidableEq N] (p : Tables T N) (weight : Symbol T N → Int) (eof : T)

def checkLast (terminals : List T) (s : Nat) : Bool :=
  match p.action s eof with
  | .shift s' => terminals.all fun t =>
    match p.action s' t with
    | .reduce r => (p.rules r).any fun rule => rule.input == p.initial
    | _ => false
  | _ => true

/-- `Terminating` for tables whose states are `states`, but for the bound of the weights. -/
def checkTerminating (states ruleNumbers : List Nat) (terminals : List T) : Bool :=
  (ruleNumbers.all fun r => (p.rules r).all fun rule =>
    decide (weight (.nonterminal rule.input) < weightOf weight rule.output)) &&
    states.all (checkLast p eof terminals)

variable {p weight eof} {states ruleNumbers : List Nat} {terminals : List T} {bound : Nat}

theorem Terminating.of_check (hstates : ∀ s, s ∉ states → ∀ t, p.action s t = .error)
    (hruleNumbers : ∀ r, r ∉ ruleNumbers → p.rules r = none) (hterminals : ∀ t, t ∈ terminals)
    (hbound : ∀ symbol, -(bound : Int) ≤ weight symbol)
    (h : checkTerminating p weight eof states ruleNumbers terminals = true) :
    p.Terminating weight bound eof := by
  rw [checkTerminating, Bool.and_eq_true, List.all_eq_true, List.all_eq_true] at h
  obtain ⟨hrules, hlast⟩ := h
  refine ⟨fun r rule hrule => ?_, hbound, fun s s' haction t => ?_⟩
  · have hr : r ∈ ruleNumbers := by
      by_contra hr
      rw [hruleNumbers r hr] at hrule
      cases hrule
    have hcheck := hrules r hr
    rw [hrule] at hcheck
    exact of_decide_eq_true hcheck
  · have hs : s ∈ states := by
      by_contra hs
      rw [hstates s hs eof] at haction
      cases haction
    have hcheck := hlast s hs
    rw [checkLast, haction] at hcheck
    have hnext := List.all_eq_true.mp hcheck t (hterminals t)
    split at hnext
    next r hreduce =>
      obtain ⟨rule, hrule, hinitial⟩ := Option.any_eq_true _ _ |>.mp hnext
      exact ⟨r, rule, hreduce, hrule, beq_iff_eq.mp hinitial⟩
    next => cases hnext

end Check

end Tables

namespace Parser

open Tables

variable {T N τ V E : Type} {p : Parser T N τ V E} {items : Nat → List Item}
  {weight : Symbol T N → Int} {bound : Nat}
  {eof : τ} {slots₀ slots values : List V} {stack : List (Nat × V)} {symbols : List (Symbol T N)}
  {word : List τ} {input : Stream' τ} {c : Config τ V}

theorem above_length {slots' : List V} (h : p.above slots = .ok slots') :
    slots'.length + 1 = slots.length := by
  unfold above at h
  split at h
  · cases h
    rfl
  · cases h

theorem eval_length {forest : Forest τ} (h : p.eval forest slots = .ok values) :
    values.length = slots.length := by
  induction forest generalizing slots values with
  | nil =>
    cases h
    rfl
  | leaf token rest ih =>
    obtain ⟨more, habove, h⟩ := bind_eq_ok.mp h
    obtain ⟨values, heval, heq⟩ := bind_eq_ok.mp h
    cases heq
    rw [List.length_cons, ih heval, above_length habove]
  | node r children rest ihchildren ihrest =>
    obtain ⟨done, hdone, h⟩ := bind_eq_ok.mp h
    obtain ⟨v, -, h⟩ := bind_eq_ok.mp h
    obtain ⟨more, habove, h⟩ := bind_eq_ok.mp h
    obtain ⟨values, heval, heq⟩ := bind_eq_ok.mp h
    cases heq
    rw [List.length_cons, ihrest heval, above_length habove, ihchildren hdone]

/-- Values only go from the slots to the stack and back. -/
theorem Built.length (h : p.Built items slots₀ stack slots symbols word) :
    symbols.length = stack.length ∧ stack.length + slots.length = slots₀.length := by
  induction h with
  | empty => exact ⟨rfl, Nat.zero_add _⟩
  | token t hbuilt habove hlinked ih =>
    have hlength := above_length habove
    simp only [List.length_cons]
    omega
  | rule hbuilt hrule hchildren hdone hresult habove hlinked ih =>
    have hlength := above_length habove
    have heval := eval_length hdone
    simp only [List.length_cons]
    omega

variable [DecidableEq N]

theorem step_of_terminating (ht : p.toTables.Terminating weight bound (p.kind eof))
    (hsound : p.toTables.Sound items)
    (hbuilt : p.Built items slots₀ c.stack c.slots symbols word) :
    (∃ res, p.step c = .inr res) ∨
      ∃ c' symbols' word', p.step c = .inl c' ∧
        p.Built items slots₀ c'.stack c'.slots symbols' word' ∧
        (p.action (topState c.stack) (p.kind c.input.head) = .shift (topState c'.stack) ∧
            c'.input = c.input.tail ∨
          c'.input = c.input ∧ weightOf weight symbols' < weightOf weight symbols) := by
  cases hstep : p.step c with
  | inr res => exact Or.inl ⟨res, rfl⟩
  | inl c' =>
    refine Or.inr ⟨c', ?_⟩
    rcases step_cases hstep with ⟨s, slots', haction, habove, rfl⟩ |
      ⟨r, rule, v, slots', haction, hrule, hinitial, hresult, habove, rfl⟩
    · exact ⟨_, _, rfl, .token c.input.head hbuilt habove (hsound.shift _ _ _ haction),
        Or.inl ⟨haction, rfl⟩⟩
    · obtain ⟨word', below, children, hbelow, htake, hchildren, heval, rfl, first, hfirst, rfl,
        hdot⟩ := hbuilt.handle hsound haction hrule
      refine ⟨_, _, rfl, .rule hbelow hrule hchildren heval hresult habove
        (hsound.goto _ first hfirst rule hdot hrule hinitial), Or.inr ⟨rfl, ?_⟩⟩
      have hlighter := ht.lighter _ rule hrule
      have hsplit : weightOf weight symbols =
          weightOf weight rule.output + weightOf weight (symbols.drop rule.output.length) := by
        have hsum := congrArg (weightOf weight) (List.take_append_drop rule.output.length symbols)
        have hreverse := congrArg (weightOf weight) htake
        simp only [weightOf, List.map_append, List.sum_append, List.map_reverse,
          List.sum_reverse] at hsum hreverse
        rw [weightOf, weightOf, weightOf, ← hsum, hreverse]
      have hcons : weightOf weight (.nonterminal rule.input :: symbols.drop rule.output.length) =
          weight (.nonterminal rule.input) +
            weightOf weight (symbols.drop rule.output.length) := List.sum_cons
      omega

/-- Between two shifts the parser reduces a bounded number of times. -/
theorem ends_of_shifts (ht : p.toTables.Terminating weight bound (p.kind eof))
    (hsound : p.toTables.Sound items)
    (hshift : ∀ (c c' : Config τ V) symbols word, c.input = input →
      p.Built items slots₀ c'.stack c'.slots symbols word →
      p.action (topState c.stack) (p.kind c.input.head) = .shift (topState c'.stack) →
      c'.input = input.tail → ∃ res, p.Ends c' res) (n : Nat)
    (hbuilt : p.Built items slots₀ c.stack c.slots symbols word) (hinput : c.input = input)
    (hn : weightOf weight symbols + bound * slots₀.length < n) : ∃ res, p.Ends c res := by
  induction n generalizing c symbols word with
  | zero =>
    have hnonneg := ht.weight_nonneg symbols
    have hlength := hbuilt.length
    have hle : (bound : Int) * symbols.length ≤ bound * slots₀.length := by
      refine Int.mul_le_mul_of_nonneg_left ?_ (Int.natCast_nonneg bound)
      omega
    omega
  | succ n ih =>
    rcases step_of_terminating ht hsound hbuilt with ⟨res, hstep⟩ |
      ⟨c', symbols', word', hstep, hbuilt', ⟨haction, hinput'⟩ | ⟨hinput', hlighter⟩⟩
    · exact ⟨res, c, .refl, hstep⟩
    · obtain ⟨res, hres⟩ := hshift c c' symbols' word' hinput hbuilt' haction (hinput ▸ hinput')
      exact ⟨res, hres.of_next hstep⟩
    · obtain ⟨res, hres⟩ := ih hbuilt' (hinput'.trans hinput) (by omega)
      exact ⟨res, hres.of_next hstep⟩

/-- The parser ends on every finite input. -/
theorem ends_of_terminating (ht : p.toTables.Terminating weight bound (p.kind eof))
    (hsound : p.toTables.Sound items)
    {tokens : List τ} (hbuilt : p.Built items slots₀ c.stack c.slots symbols word)
    (hinput : c.input = tokens ++ₛ Stream'.const eof) : ∃ res, p.Ends c res := by
  obtain ⟨n, hn⟩ : ∃ n : Nat, weightOf weight symbols + bound * slots₀.length < n :=
    ⟨(weightOf weight symbols + bound * slots₀.length).toNat + 1, by omega⟩
  induction tokens generalizing c symbols word n with
  | nil =>
    refine ends_of_shifts ht hsound (fun c c' symbols' word' hc _ haction _ => ?_) n hbuilt hinput
      hn
    rw [hc] at haction
    obtain ⟨r, rule, hreduce, hrule, hinitial⟩ := ht.last _ _ haction (p.kind c'.input.head)
    cases hresult : p.result r (c'.pop rule.output.length).slots with
    | error e =>
      refine ⟨.error e, c', .refl, ?_⟩
      simp only [Parser.step, hreduce, hrule, hresult]
    | ok v =>
      refine ⟨.ok v, c', .refl, ?_⟩
      simp only [Parser.step, hreduce, hrule, hresult, if_pos hinitial]
  | cons token tokens ih =>
    refine ends_of_shifts ht hsound (fun c c' symbols' word' _ hbuilt' _ hinput' => ?_) n hbuilt
      hinput hn
    exact ih hbuilt' hinput' ((weightOf weight symbols' + bound * slots₀.length).toNat + 1)
      (by omega)

end Parser

end LR
