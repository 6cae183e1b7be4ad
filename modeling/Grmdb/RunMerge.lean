import Mathlib

namespace RunMerge

section

variable {α : Type} {b : Nat}

/-- Runs of `b` elements, the last one of at most that many. -/
def Filled (b : Nat) : List (List α) → Prop
  | [] => True
  | [run] => 0 < run.length ∧ run.length ≤ b
  | run :: run' :: runs => run.length = b ∧ Filled b (run' :: runs)

theorem Filled.tail {run : List α} {runs : List (List α)} (h : Filled b (run :: runs)) :
    Filled b runs := by
  cases runs with
  | nil => trivial
  | cons run' runs => exact h.2

theorem Filled.head {run : List α} {runs : List (List α)} (h : Filled b (run :: runs))
    (hne : runs ≠ []) : run.length = b := by
  cases runs with
  | nil => exact absurd rfl hne
  | cons run' runs => exact h.1

theorem Filled.short {run : List α} {runs : List (List α)} (h : Filled b (run :: runs))
    (hb : 0 < b) : 0 < run.length ∧ run.length ≤ b := by
  cases runs with
  | nil => exact h
  | cons run' runs => exact ⟨h.1 ▸ hb, h.1.le⟩

theorem Filled.cons {run : List α} {runs : List (List α)} (h : Filled b runs)
    (hrun : 0 < run.length ∧ run.length ≤ b) (hfull : runs ≠ [] → run.length = b) :
    Filled b (run :: runs) := by
  cases runs with
  | nil => exact hrun
  | cons run' runs => exact ⟨hfull (List.cons_ne_nil _ _), h⟩

theorem Filled.bounds {runs : List (List α)} (h : Filled b runs) (hne : runs ≠ []) :
    (runs.length - 1) * b < runs.flatten.length ∧ runs.flatten.length ≤ runs.length * b := by
  induction runs with
  | nil => exact absurd rfl hne
  | cons run runs ih =>
    cases runs with
    | nil =>
      simp only [List.length_cons, List.length_nil, List.flatten_cons, List.flatten_nil,
        List.append_nil]
      obtain ⟨hpos, hle⟩ := h
      omega
    | cons run' runs =>
      obtain ⟨hlow, hhigh⟩ := ih h.2 (List.cons_ne_nil _ _)
      rw [List.flatten_cons, List.length_append, h.1]
      simp only [List.length_cons, Nat.add_sub_cancel] at hlow hhigh ⊢
      rw [Nat.succ_mul (runs.length) b, Nat.succ_mul (runs.length + 1) b]
      omega

end

variable {α κ : Type} [LinearOrder κ] (key : α → κ)

/-- The merge of two lists by the keys of their elements. -/
def merge (left right : List α) : List α := List.merge left right fun x y => key x ≤ key y

/-- One pass over the runs: two neighbours become one run. -/
def mergePairs : List (List α) → List (List α)
  | left :: right :: runs => merge key left right :: mergePairs runs
  | runs => runs

/-- Sorted runs of `b` elements with no key in two of them. -/
structure Runs (b : Nat) (runs : List (List α)) : Prop where
  filled : Filled b runs
  sorted : ∀ run ∈ runs, run.Pairwise fun x y => key x ≤ key y
  apart : runs.Pairwise fun run run' => ∀ x ∈ run, ∀ y ∈ run', key x ≠ key y

variable {key} {b : Nat} {left right : List α} {runs : List (List α)}

theorem merge_perm (left right : List α) : (merge key left right).Perm (left ++ right) :=
  List.merge_perm_append _

theorem merge_sorted (hleft : left.Pairwise fun x y => key x ≤ key y)
    (hright : right.Pairwise fun x y => key x ≤ key y) :
    (merge key left right).Pairwise fun x y => key x ≤ key y := by
  have hpair := @List.pairwise_merge _ (fun x y => decide (key x ≤ key y))
    (fun x y z hxy hyz => by simp at *; exact hxy.trans hyz)
    (fun x y => by simpa using le_total (key x) (key y)) left right
    (hleft.imp fun h => by simpa using h) (hright.imp fun h => by simpa using h)
  exact hpair.imp fun h => by simpa using h

theorem mergePairs_perm (runs : List (List α)) :
    (mergePairs key runs).flatten.Perm runs.flatten := by
  induction runs using mergePairs.induct with
  | case1 left right runs ih =>
    rw [mergePairs, List.flatten_cons, List.flatten_cons, List.flatten_cons, ← List.append_assoc]
    exact (merge_perm left right).append ih
  | case2 runs h => rw [mergePairs]; exact h

theorem mem_mergePairs {run : List α} {x : α} (hrun : run ∈ mergePairs key runs) (hx : x ∈ run) :
    ∃ run' ∈ runs, x ∈ run' := by
  have hmem : x ∈ (mergePairs key runs).flatten := List.mem_flatten.mpr ⟨run, hrun, hx⟩
  exact List.mem_flatten.mp ((mergePairs_perm runs).mem_iff.mp hmem)

theorem Filled.mergePairs (h : Filled b runs) (hb : 0 < b) :
    Filled (2 * b) (mergePairs key runs) := by
  induction runs using RunMerge.mergePairs.induct with
  | case1 left right runs ih =>
    rw [RunMerge.mergePairs]
    have hleft := h.head (List.cons_ne_nil _ _)
    have hright := h.tail.short hb
    have hlen : (merge key left right).length = left.length + right.length := by
      rw [(merge_perm left right).length_eq, List.length_append]
    refine (ih h.tail.tail).cons ⟨by omega, by omega⟩ fun hne => ?_
    have hruns : runs ≠ [] := by
      rintro rfl
      exact hne rfl
    have hfull := h.tail.head hruns
    omega
  | case2 runs hshort =>
    cases runs with
    | nil => trivial
    | cons run runs =>
      cases runs with
      | nil =>
        obtain ⟨hpos, hle⟩ := h
        exact ⟨hpos, by omega⟩
      | cons run' runs => exact absurd rfl (hshort run run' runs)

theorem mergePairs_sorted (h : ∀ run ∈ runs, run.Pairwise fun x y => key x ≤ key y) :
    ∀ run ∈ mergePairs key runs, run.Pairwise fun x y => key x ≤ key y := by
  induction runs using mergePairs.induct with
  | case1 left right runs ih =>
    rw [mergePairs]
    refine List.forall_mem_cons.mpr ⟨?_, ih fun run hrun => h run (by simp [hrun])⟩
    exact merge_sorted (h left (by simp)) (h right (by simp))
  | case2 runs hshort =>
    rw [mergePairs]
    · exact h
    · exact hshort

theorem mergePairs_apart (h : runs.Pairwise fun run run' => ∀ x ∈ run, ∀ y ∈ run', key x ≠ key y) :
    (mergePairs key runs).Pairwise fun run run' => ∀ x ∈ run, ∀ y ∈ run', key x ≠ key y := by
  induction runs using mergePairs.induct with
  | case1 left right runs ih =>
    rw [mergePairs]
    obtain ⟨hleft, hrest⟩ := List.pairwise_cons.mp h
    obtain ⟨hright, hruns⟩ := List.pairwise_cons.mp hrest
    refine List.pairwise_cons.mpr ⟨fun run hrun x hx y hy => ?_, ih hruns⟩
    obtain ⟨run', hrun', hy'⟩ := mem_mergePairs hrun hy
    rcases List.mem_append.mp ((merge_perm left right).mem_iff.mp hx) with hx | hx
    · exact hleft run' (List.mem_cons_of_mem _ hrun') x hx y hy'
    · exact hright run' hrun' x hx y hy'
  | case2 runs hshort =>
    rw [mergePairs]
    · exact h
    · exact hshort

/-- A pass doubles the runs. -/
theorem Runs.mergePairs (h : Runs key b runs) (hb : 0 < b) :
    Runs key (2 * b) (mergePairs key runs) :=
  ⟨h.filled.mergePairs hb, mergePairs_sorted h.sorted, mergePairs_apart h.apart⟩

/-- One run is the sorted list. -/
theorem Runs.sorted_flatten (h : Runs key b runs) (hlen : runs.flatten.length ≤ b) :
    runs.flatten.Pairwise fun x y => key x ≤ key y := by
  cases runs with
  | nil => exact List.Pairwise.nil
  | cons run runs =>
    cases runs with
    | nil =>
      rw [List.flatten_cons, List.flatten_nil, List.append_nil]
      exact h.sorted run List.mem_cons_self
    | cons run' runs =>
      have hlow := (h.filled.bounds (List.cons_ne_nil _ _)).1
      simp only [List.length_cons] at hlow
      have hmul : b ≤ (runs.length + 1 + 1 - 1) * b := Nat.le_mul_of_pos_left b (by omega)
      omega

end RunMerge
