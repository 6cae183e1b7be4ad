import Mathlib

namespace PinCounts

variable {π : Type}

inductive Event (π : Type) where
  | pin (p : π)
  | unpin (p : π)
  deriving DecidableEq, Repr

/-- A call that holds the pins `a` comes to hold the pins `b`; it gives back only what it holds. -/
inductive Held : Multiset π → List (Event π) → Multiset π → Prop where
  | nil (a : Multiset π) : Held a [] a
  | pin {p : π} {a b : Multiset π} {es : List (Event π)} (h : Held (p ::ₘ a) es b) :
      Held a (.pin p :: es) b
  | unpin {p : π} {a b : Multiset π} {es : List (Event π)} (h : Held a es b) :
      Held (p ::ₘ a) (.unpin p :: es) b

namespace Held

variable {a b c : Multiset π} {es es' : List (Event π)}

theorem append (h : Held a es b) (h' : Held b es' c) : Held a (es ++ es') c := by
  induction h with
  | nil a => exact h'
  | pin _ ih => exact .pin (ih h')
  | unpin _ ih => exact .unpin (ih h')

theorem touch (p : π) (a : Multiset π) : Held a [.pin p, .unpin p] a := .pin (.unpin (.nil a))

theorem flatMap_touch (ps : List π) (a : Multiset π) :
    Held a (ps.flatMap fun p => [.pin p, .unpin p]) a := by
  induction ps with
  | nil => exact .nil a
  | cons p ps ih => exact (touch p a).append ih

/-- Two pins that were taken first are given back first. -/
theorem unpin_pair (h : Held a es b) (p q : π) :
    Held (a + {p, q}) (.unpin p :: .unpin q :: es) b := by
  rw [add_comm, Multiset.insert_eq_cons, Multiset.cons_add, Multiset.singleton_add]
  exact .unpin (.unpin h)

theorem of_prefix (h : Held a es b) (hpre : es' <+: es) : ∃ c, Held a es' c := by
  induction h generalizing es' with
  | nil a =>
    rw [List.prefix_nil.mp hpre]
    exact ⟨a, .nil a⟩
  | @pin p a b es _ ih =>
    rcases List.prefix_cons_iff.mp hpre with rfl | ⟨t, rfl, ht⟩
    · exact ⟨a, .nil a⟩
    · obtain ⟨c, hc⟩ := ih ht
      exact ⟨c, .pin hc⟩
  | @unpin p a b es _ ih =>
    rcases List.prefix_cons_iff.mp hpre with rfl | ⟨t, rfl, ht⟩
    · exact ⟨_, .nil _⟩
    · obtain ⟨c, hc⟩ := ih ht
      exact ⟨c, .unpin hc⟩

end Held

variable [DecidableEq π]

/-- The pin counts after an event; a page without a pin is not unpinned. -/
def apply (pins : π → Nat) : Event π → π → Nat
  | .pin p => Function.update pins p (pins p + 1)
  | .unpin p => Function.update pins p (pins p - 1)

def after (pins : π → Nat) (es : List (Event π)) : π → Nat := es.foldl apply pins

/-- A call leaves every count as it was and takes none below that on the way. -/
structure Neutral (pins : π → Nat) (es : List (Event π)) : Prop where
  same : after pins es = pins
  above : ∀ es', es' <+: es → ∀ p, pins p ≤ after pins es' p

namespace Held

variable {a b : Multiset π} {es : List (Event π)}

/-- The counts are those of the others and what the call holds. -/
theorem after_eq (h : Held a es b) (pins : π → Nat) :
    after (fun p => pins p + a.count p) es = fun p => pins p + b.count p := by
  induction h with
  | nil a => rfl
  | @pin p a b es _ ih =>
    rw [← ih]
    show after (apply _ (.pin p)) es = _
    congr 1
    funext q
    by_cases hq : q = p
    · subst hq
      simp [apply, Nat.add_assoc]
    · simp [apply, hq, Multiset.count_cons_of_ne hq]
  | @unpin p a b es _ ih =>
    rw [← ih]
    show after (apply _ (.unpin p)) es = _
    congr 1
    funext q
    by_cases hq : q = p
    · subst hq
      simp [apply]
    · simp [apply, hq, Multiset.count_cons_of_ne hq]

/-- A call that starts without a pin is neutral when it ends without one. -/
theorem neutral_iff (h : Held 0 es b) (pins : π → Nat) : Neutral pins es ↔ b = 0 := by
  have hafter := h.after_eq pins
  simp only [Multiset.count_zero, Nat.add_zero] at hafter
  constructor
  · intro hneutral
    refine Multiset.ext.mpr fun p => ?_
    have hp := congrFun (hafter.symm.trans hneutral.same) p
    rw [Multiset.count_zero]
    omega
  · rintro rfl
    refine ⟨by simpa using hafter, fun es' hpre p => ?_⟩
    obtain ⟨c, hc⟩ := h.of_prefix hpre
    have hmid := hc.after_eq pins
    simp only [Multiset.count_zero, Nat.add_zero] at hmid
    rw [hmid]
    exact Nat.le_add_right _ _

/-- A second unpin takes a pin from somebody else, if there is one. -/
theorem neutral_unpin_iff (h : Held 0 es 0) (pins : π → Nat) (p : π) :
    Neutral pins (es ++ [.unpin p]) ↔ pins p = 0 := by
  have hneutral := (h.neutral_iff pins).mpr rfl
  have hafter : after pins (es ++ [.unpin p]) = Function.update pins p (pins p - 1) := by
    rw [after, List.foldl_append]
    show apply (after pins es) (.unpin p) = _
    rw [hneutral.same]
    rfl
  constructor
  · intro hlast
    have hp := congrFun (hafter.symm.trans hlast.same) p
    rw [Function.update_self] at hp
    omega
  · intro hzero
    have hsame : after pins (es ++ [.unpin p]) = pins := by
      rw [hafter, Function.update_eq_self_iff, hzero]
    refine ⟨hsame, fun es' hpre q => ?_⟩
    rcases List.prefix_concat_iff.mp hpre with rfl | hpre
    · rw [hsame]
    · exact hneutral.above es' hpre q

end Held

end PinCounts
