import Mathlib.Data.List.Basic

namespace LongestMatch

/-- Regular expressions over classes of symbols. -/
inductive Regex (α : Type) where
  | empty
  | epsilon
  | oneOf (p : α → Bool)
  | plus (r s : Regex α)
  | comp (r s : Regex α)
  | star (r : Regex α)

variable {α β : Type}

namespace Regex

def nullable : Regex α → Bool
  | empty => false
  | epsilon => true
  | oneOf _ => false
  | plus r s => r.nullable || s.nullable
  | comp r s => r.nullable && s.nullable
  | star _ => true

/-- The derivative of a regular expression with respect to its first symbol. -/
def deriv (a : α) : Regex α → Regex α
  | empty => empty
  | epsilon => empty
  | oneOf p => if p a then epsilon else empty
  | plus r s => plus (r.deriv a) (s.deriv a)
  | comp r s =>
    if r.nullable then plus (comp (r.deriv a) s) (s.deriv a) else comp (r.deriv a) s
  | star r => comp (r.deriv a) (star r)

/-- The length of the longest beginning that matches. -/
def longest (r : Regex α) : List α → Option Nat
  | [] => if r.nullable then some 0 else none
  | a :: as =>
    match (r.deriv a).longest as with
    | some n => some (n + 1)
    | none => if r.nullable then some 0 else none

/-- An expression that matches nothing. -/
def dead : Regex α → Bool
  | empty => true
  | epsilon => false
  | oneOf _ => false
  | plus r s => r.dead && s.dead
  | comp r s => r.dead || s.dead
  | star _ => false

theorem nullable_of_dead {r : Regex α} (h : r.dead = true) : r.nullable = false := by
  induction r with
  | empty => rfl
  | epsilon => cases h
  | oneOf p => cases h
  | plus r s ihr ihs =>
    obtain ⟨hr, hs⟩ := (Bool.and_eq_true _ _).mp h
    rw [nullable, ihr hr, ihs hs]
    rfl
  | comp r s ihr ihs =>
    rw [nullable]
    rcases (Bool.or_eq_true _ _).mp h with hr | hs
    · rw [ihr hr, Bool.false_and]
    · rw [ihs hs, Bool.and_false]
  | star r => cases h

theorem dead_deriv {r : Regex α} (a : α) (h : r.dead = true) : (r.deriv a).dead = true := by
  induction r with
  | empty => rfl
  | epsilon => cases h
  | oneOf p => cases h
  | plus r s ihr ihs =>
    obtain ⟨hr, hs⟩ := (Bool.and_eq_true _ _).mp h
    rw [deriv, dead, ihr hr, ihs hs]
    rfl
  | comp r s ihr ihs =>
    rw [deriv]
    rcases (Bool.or_eq_true _ _).mp h with hr | hs
    · rw [nullable_of_dead hr, if_neg Bool.false_ne_true, dead, ihr hr, Bool.true_or]
    · split
      · rw [dead, dead, hs, Bool.or_true, ihs hs]
        rfl
      · rw [dead, hs, Bool.or_true]
  | star r => cases h

theorem longest_of_dead {r : Regex α} (h : r.dead = true) (as : List α) : r.longest as = none := by
  induction as generalizing r with
  | nil => rw [longest, nullable_of_dead h, if_neg Bool.false_ne_true]
  | cons a as ih =>
    simp only [longest, ih (dead_deriv a h), nullable_of_dead h, if_neg Bool.false_ne_true]

theorem longest_plus_dead {q r : Regex α} (h : q.dead = true) (as : List α) :
    (plus q r).longest as = r.longest as := by
  induction as generalizing q r with
  | nil => rw [longest, longest, nullable, nullable_of_dead h, Bool.false_or]
  | cons a as ih =>
    simp only [longest, deriv, ih (dead_deriv a h), nullable, nullable_of_dead h, Bool.false_or]

theorem longest_epsilon_comp (r : Regex α) (as : List α) :
    (comp epsilon r).longest as = r.longest as := by
  cases as with
  | nil => rfl
  | cons a as =>
    have hderiv : (comp epsilon r).deriv a = plus (comp empty r) (r.deriv a) := rfl
    simp only [longest, hderiv, longest_plus_dead (q := comp empty r) rfl, nullable, Bool.true_and]

theorem longest_epsilon (as : List α) : (epsilon : Regex α).longest as = some 0 := by
  cases as with
  | nil => rfl
  | cons a as =>
    simp only [longest, deriv, longest_of_dead (r := (empty : Regex α)) rfl]
    rfl

theorem longest_oneOf (p : α → Bool) (a : α) (as : List α) :
    (oneOf p).longest (a :: as) = if p a then some 1 else none := by
  cases hp : p a with
  | true => simp [longest, deriv, hp, longest_epsilon]
  | false => simp [longest, deriv, hp, longest_of_dead (r := (empty : Regex α)) rfl, nullable]

theorem longest_oneOf_comp (p : α → Bool) (r : Regex α) (a : α) (as : List α) :
    (comp (oneOf p) r).longest (a :: as) =
      if p a then (r.longest as).map (· + 1) else none := by
  have hderiv : (comp (oneOf p) r).deriv a = comp (if p a then epsilon else empty) r := rfl
  cases hp : p a with
  | true =>
    rw [longest, hderiv, hp, if_pos rfl, longest_epsilon_comp, if_pos rfl]
    cases r.longest as with
    | none => rfl
    | some n => rfl
  | false =>
    rw [longest, hderiv, hp, if_neg Bool.false_ne_true, longest_of_dead (r := comp empty r) rfl]
    rfl

end Regex

/-- The match that is kept of two, the later one only if it is longer. -/
def keep (found new : Option (β × Nat)) : Option (β × Nat) :=
  match found, new with
  | some (action, m), some (action', n) => if m < n then some (action', n) else some (action, m)
  | none, new => new
  | found, none => found

/-- The match of a rule if it is not empty. -/
def ruleMatch (rule : Regex α × β) (input : List α) : Option (β × Nat) :=
  match rule.1.longest input with
  | some (n + 1) => some (rule.2, n + 1)
  | _ => none

/-- The first of the rules with the longest match that is not empty, and the length of the match. -/
def best (rules : List (Regex α × β)) (input : List α) : Option (β × Nat) :=
  rules.foldl (fun found rule => keep found (ruleMatch rule input)) none

theorem ruleMatch_pos {rule : Regex α × β} {input : List α} {action : β} {n : Nat}
    (h : ruleMatch rule input = some (action, n)) : 0 < n := by
  rw [ruleMatch.eq_def] at h
  split at h
  next =>
    cases h
    exact Nat.succ_pos _
  next => cases h

theorem keep_pos {found new : Option (β × Nat)}
    (hfound : ∀ action n, found = some (action, n) → 0 < n)
    (hnew : ∀ action n, new = some (action, n) → 0 < n) {action : β} {n : Nat}
    (h : keep found new = some (action, n)) : 0 < n := by
  rw [keep.eq_def] at h
  split at h
  next =>
    split at h
    · exact hnew _ _ h
    · exact hfound _ _ h
  next => exact hnew _ _ h
  next => exact hfound _ _ h

theorem best_pos {rules : List (Regex α × β)} {input : List α} {action : β} {n : Nat}
    (h : best rules input = some (action, n)) : 0 < n := by
  have hfold : ∀ (rules : List (Regex α × β)) (found : Option (β × Nat)),
      (∀ action n, found = some (action, n) → 0 < n) → ∀ action n,
        rules.foldl (fun found rule => keep found (ruleMatch rule input)) found =
          some (action, n) → 0 < n := by
    intro rules
    induction rules with
    | nil => exact fun found hfound => hfound
    | cons rule rules ih =>
      intro found hfound
      refine ih (keep found (ruleMatch rule input)) ?_
      intro action n hkeep
      exact keep_pos hfound (fun _ _ hnew => ruleMatch_pos hnew) hkeep
  exact hfold rules none (fun _ _ hnone => by cases hnone) action n h

/-- A rule that no text with this first symbol matches does not count. -/
theorem best_cons_filter (rules : List (Regex α × β)) (a : α) (as : List α) :
    best rules (a :: as) = best (rules.filter fun rule => !(rule.1.deriv a).dead) (a :: as) := by
  have hnone : ∀ rule : Regex α × β, (rule.1.deriv a).dead = true →
      ruleMatch rule (a :: as) = none := by
    intro rule hdead
    rw [ruleMatch, Regex.longest, Regex.longest_of_dead hdead]
    cases rule.1.nullable with
    | true => rfl
    | false => rfl
  unfold best
  generalize (none : Option (β × Nat)) = found
  induction rules generalizing found with
  | nil => rfl
  | cons rule rules ih =>
    rw [List.foldl_cons, ih, List.filter_cons]
    split
    next => rfl
    next hdead =>
      rw [hnone rule (by simpa using hdead)]
      cases found with
      | none => rfl
      | some pair => rfl

end LongestMatch
