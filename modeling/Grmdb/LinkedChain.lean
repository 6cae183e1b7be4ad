import Mathlib

namespace LinkedChain

variable {π : Type} {next next' : π → Option π} {nil first p q : π} {ps : List π}

/-- Following `next` from `first` visits `ps` and ends at `nil`. -/
def Follows (next : π → Option π) (nil : π) : π → List π → Prop
  | first, [] => first = nil
  | first, p :: ps => first = p ∧ ∃ q, next p = some q ∧ Follows next nil q ps

theorem Follows.congr (h : Follows next nil first ps) (same : ∀ p ∈ ps, next' p = next p) :
    Follows next' nil first ps := by
  induction ps generalizing first with
  | nil => exact h
  | cons p ps ih =>
    obtain ⟨start, q, hq, rest⟩ := h
    refine ⟨start, q, ?_, ih rest fun x hx => same x (by simp [hx])⟩
    rw [same p (by simp), hq]

theorem Follows.push (h : Follows next nil first ps) (hp : next' p = some first)
    (same : ∀ x ∈ ps, next' x = next x) : Follows next' nil p (p :: ps) :=
  ⟨rfl, first, hp, h.congr same⟩

theorem Follows.eq_nil (h : Follows next nil nil ps) (absent : next nil = none) : ps = [] := by
  cases ps with
  | nil => rfl
  | cons p ps =>
    obtain ⟨rfl, q, hq, -⟩ := h
    rw [absent] at hq
    cases hq

/-- A start that is not the end is the first element. -/
theorem Follows.exists_cons (h : Follows next nil first ps) (hne : first ≠ nil) :
    ∃ rest q, ps = first :: rest ∧ next first = some q ∧ Follows next nil q rest := by
  cases ps with
  | nil => exact absurd h hne
  | cons p ps =>
    obtain ⟨rfl, q, hq, rest⟩ := h
    exact ⟨ps, q, rfl, hq, rest⟩

end LinkedChain
