import Mathlib

/-! Joining two sorted lists on equal keys. -/

namespace MergeJoin

variable {α β κ : Type}

/-- The pairs of a merge that goes on with the right side after a pair is found. -/
def mergeJoin (c : α → β → Ordering) : List α → List β → List (α × β)
  | [], _ => []
  | _, [] => []
  | l :: left, r :: right =>
    match c l r with
    | .lt => mergeJoin c left (r :: right)
    | .gt => mergeJoin c (l :: left) right
    | .eq => (l, r) :: mergeJoin c (l :: left) right
  termination_by left right => left.length + right.length

theorem mergeJoin_nil {c : α → β → Ordering} {left : List α} {right : List β}
    (h : left = [] ∨ right = []) : mergeJoin c left right = [] := by
  rcases h with rfl | rfl
  · rw [mergeJoin]
  · cases left with
    | nil => rw [mergeJoin]
    | cons l left => simp [mergeJoin]

/-- The pairs that are found are equal for the comparison. -/
theorem eq_of_mem_mergeJoin {c : α → β → Ordering} {left : List α} {right : List β}
    {pair : α × β} (h : pair ∈ mergeJoin c left right) :
    pair.1 ∈ left ∧ pair.2 ∈ right ∧ c pair.1 pair.2 = .eq := by
  induction left, right using mergeJoin.induct c with
  | case1 right =>
    rw [mergeJoin] at h
    cases h
  | case2 left _ =>
    rw [mergeJoin_nil (Or.inr rfl)] at h
    cases h
  | case3 l left r right hlt ih =>
    rw [mergeJoin, hlt] at h
    obtain ⟨hl, hr, hc⟩ := ih h
    exact ⟨List.mem_cons_of_mem l hl, hr, hc⟩
  | case4 l left r right hgt ih =>
    rw [mergeJoin, hgt] at h
    obtain ⟨hl, hr, hc⟩ := ih h
    exact ⟨hl, List.mem_cons_of_mem r hr, hc⟩
  | case5 l left r right heq ih =>
    rw [mergeJoin, heq] at h
    rcases List.mem_cons.mp h with rfl | h
    · exact ⟨List.mem_cons_self, List.mem_cons_self, heq⟩
    · obtain ⟨hl, hr, hc⟩ := ih h
      exact ⟨hl, List.mem_cons_of_mem r hr, hc⟩

section Keys

variable [LinearOrder κ] (f : α → κ) (g : β → κ)

/-- The pairs with equal keys. -/
def joinPairs (left : List α) (right : List β) : List (α × β) :=
  (left ×ˢ right).filter fun pair => f pair.1 = g pair.2

def partners (left : List α) (r : β) : List α := left.filter fun l => f l = g r

/-- No element of the right side has two partners. -/
def OnePartner (left : List α) (right : List β) : Prop :=
  ∀ r ∈ right, (partners f g left r).length ≤ 1

variable {f g} {l : α} {r : β} {left left' : List α} {right right' : List β}

theorem joinPairs_cons (l : α) (left : List α) (right : List β) :
    joinPairs f g (l :: left) right =
      (right.filter fun r => f l = g r).map (Prod.mk l) ++ joinPairs f g left right := by
  unfold joinPairs
  rw [List.product_cons, List.filter_append, List.filter_map]
  rfl

theorem joinPairs_skip_left (h : ∀ r ∈ right, f l ≠ g r) :
    joinPairs f g (l :: left) right = joinPairs f g left right := by
  have hnone : (right.filter fun r => f l = g r) = [] :=
    List.filter_eq_nil_iff.mpr fun r hr => by simp [h r hr]
  rw [joinPairs_cons, hnone]
  rfl

/-- A further element of the right side adds its partners to each element of the left side. -/
theorem joinPairs_skip_right (h : ∀ l ∈ left, f l ≠ g r) :
    joinPairs f g left (r :: right) = joinPairs f g left right := by
  induction left with
  | nil => rfl
  | cons l left ih =>
    have hl := h l List.mem_cons_self
    rw [joinPairs_cons, joinPairs_cons, List.filter_cons, if_neg (by simpa using hl),
      ih fun l' hl' => h l' (List.mem_cons_of_mem l hl')]

theorem length_joinPairs_cons_right (left : List α) (r : β) (right : List β) :
    (joinPairs f g left (r :: right)).length =
      (partners f g left r).length + (joinPairs f g left right).length := by
  induction left with
  | nil => rfl
  | cons l left ih =>
    rw [joinPairs_cons, joinPairs_cons, List.length_append, List.length_append, List.length_map,
      List.length_map, ih, partners, partners, List.filter_cons, List.filter_cons]
    by_cases heq : f l = g r
    · simp [heq]
      omega
    · simp [heq]
      omega

theorem joinPairs_perm (hl : left.Perm left') (hr : right.Perm right') :
    (joinPairs f g left right).Perm (joinPairs f g left' right') := by
  unfold joinPairs
  refine List.Perm.filter _ ?_
  exact hl.product hr

theorem OnePartner.perm (hl : left.Perm left') (hr : right.Perm right')
    (h : OnePartner f g left right) : OnePartner f g left' right' := by
  intro r hmem
  have hlen := (hl.filter fun l => decide (f l = g r)).length_eq
  have hone := h r (hr.mem_iff.mpr hmem)
  unfold partners at hone ⊢
  omega

/-- The comparison of the keys. -/
def compareKeys (f : α → κ) (g : β → κ) (l : α) (r : β) : Ordering := compare (f l) (g r)

theorem lt_all (hsort : (r :: right).Pairwise fun a b => g a ≤ g b) (h : f l < g r) :
    ∀ r' ∈ r :: right, f l ≠ g r' := by
  intro r' hr'
  rcases List.mem_cons.mp hr' with rfl | hr'
  · exact ne_of_lt h
  · exact ne_of_lt (lt_of_lt_of_le h (List.rel_of_pairwise_cons hsort hr'))

theorem gt_all (hsort : (l :: left).Pairwise fun a b => f a ≤ f b) (h : g r < f l) :
    ∀ l' ∈ l :: left, f l' ≠ g r := by
  intro l' hl'
  rcases List.mem_cons.mp hl' with rfl | hl'
  · exact ne_of_gt h
  · exact ne_of_gt (lt_of_lt_of_le h (List.rel_of_pairwise_cons hsort hl'))

/-- A merge finds no more than the pairs that there are, and all of them only when no element of
the right side has two partners. -/
theorem mergeJoin_length (hl : left.Pairwise fun a b => f a ≤ f b)
    (hr : right.Pairwise fun a b => g a ≤ g b) :
    (mergeJoin (compareKeys f g) left right).length ≤ (joinPairs f g left right).length ∧
      ((mergeJoin (compareKeys f g) left right).length = (joinPairs f g left right).length →
        OnePartner f g left right) := by
  induction left, right using mergeJoin.induct (compareKeys f g) with
  | case1 right =>
    rw [mergeJoin]
    exact ⟨Nat.zero_le _, fun _ r _ => Nat.zero_le 1⟩
  | case2 left _ =>
    rw [mergeJoin_nil (Or.inr rfl)]
    refine ⟨Nat.zero_le _, fun _ r hr => ?_⟩
    cases hr
  | case3 l left r right hlt ih =>
    have hnone := lt_all hr (compare_lt_iff_lt.mp hlt)
    obtain ⟨hle, hone⟩ := ih hl.of_cons hr
    rw [mergeJoin, hlt, joinPairs_skip_left hnone]
    refine ⟨hle, fun heq r' hr' => ?_⟩
    have hpart : partners f g (l :: left) r' = partners f g left r' := by
      rw [partners, List.filter_cons, if_neg (by simpa using hnone r' hr')]
      rfl
    rw [hpart]
    exact hone heq r' hr'
  | case4 l left r right hgt ih =>
    have hnone := gt_all hl (compare_gt_iff_gt.mp hgt)
    obtain ⟨hle, hone⟩ := ih hl hr.of_cons
    rw [mergeJoin, hgt, joinPairs_skip_right hnone]
    refine ⟨hle, fun heq r' hr' => ?_⟩
    rcases List.mem_cons.mp hr' with rfl | hr'
    · have hpart : partners f g (l :: left) r' = [] :=
        List.filter_eq_nil_iff.mpr fun l' hl' => by simp [hnone l' hl']
      rw [hpart]
      exact Nat.zero_le 1
    · exact hone heq r' hr'
  | case5 l left r right heq ih =>
    have hkey : f l = g r := compare_eq_iff_eq.mp heq
    obtain ⟨hle, hone⟩ := ih hl hr.of_cons
    have hpos : 1 ≤ (partners f g (l :: left) r).length := by
      rw [partners, List.filter_cons, if_pos (by simpa using hkey)]
      simp
    rw [mergeJoin, heq, length_joinPairs_cons_right, List.length_cons]
    refine ⟨by omega, fun hlen r' hr' => ?_⟩
    rcases List.mem_cons.mp hr' with rfl | hr'
    · omega
    · exact hone (by omega) r' hr'

theorem mergeJoin_eq (hl : left.Pairwise fun a b => f a ≤ f b)
    (hr : right.Pairwise fun a b => g a ≤ g b) (hone : OnePartner f g left right) :
    (mergeJoin (compareKeys f g) left right).Perm (joinPairs f g left right) := by
  induction left, right using mergeJoin.induct (compareKeys f g) with
  | case1 right =>
    rw [mergeJoin]
    exact List.Perm.nil
  | case2 left _ =>
    rw [mergeJoin_nil (Or.inr rfl), joinPairs, List.product_nil]
    exact List.Perm.nil
  | case3 l left r right hlt ih =>
    have hnone := lt_all hr (compare_lt_iff_lt.mp hlt)
    rw [mergeJoin, hlt, joinPairs_skip_left hnone]
    refine ih hl.of_cons hr fun r' hr' => ?_
    have hle := hone r' hr'
    rw [partners, List.filter_cons, if_neg (by simpa using hnone r' hr')] at hle
    exact hle
  | case4 l left r right hgt ih =>
    have hnone := gt_all hl (compare_gt_iff_gt.mp hgt)
    rw [mergeJoin, hgt, joinPairs_skip_right hnone]
    exact ih hl hr.of_cons fun r' hr' => hone r' (List.mem_cons_of_mem r hr')
  | case5 l left r right heq ih =>
    have hkey : f l = g r := compare_eq_iff_eq.mp heq
    have hrest := ih hl hr.of_cons fun r' hr' => hone r' (List.mem_cons_of_mem r hr')
    -- no other element on the left goes with `r`
    have hothers : ∀ l' ∈ left, f l' ≠ g r := by
      intro l' hl' hsame
      have hlen := hone r List.mem_cons_self
      rw [partners, List.filter_cons, if_pos (by simpa using hkey), List.length_cons] at hlen
      have hmem : l' ∈ left.filter fun l => decide (f l = g r) :=
        List.mem_filter.mpr ⟨hl', by simpa using hsame⟩
      have hpos := List.length_pos_of_mem hmem
      omega
    rw [mergeJoin, heq, joinPairs_cons, List.filter_cons, if_pos (by simpa using hkey),
      joinPairs_skip_right hothers]
    rw [joinPairs_cons] at hrest
    exact hrest.cons (l, r)

/-- A merge of two lists that are sorted first finds all pairs exactly when no element of the right
side has two partners. -/
theorem map_mergeJoin_perm_iff {γ : Type} (h : α × β → γ) (hl : left'.Perm left)
    (hr : right'.Perm right) (hsortl : left'.Pairwise fun a b => f a ≤ f b)
    (hsortr : right'.Pairwise fun a b => g a ≤ g b) :
    ((joinPairs f g left right).map h).Perm
        ((mergeJoin (compareKeys f g) left' right').map h) ↔ OnePartner f g left right := by
  have hpairs := @joinPairs_perm α β κ _ f g left' left right' right hl hr
  constructor
  · intro hperm
    have hlen := hperm.length_eq
    rw [List.length_map, List.length_map, ← hpairs.length_eq] at hlen
    exact ((mergeJoin_length hsortl hsortr).2 hlen.symm).perm hl hr
  · intro hone
    exact (hpairs.symm.trans (mergeJoin_eq hsortl hsortr (hone.perm hl.symm hr.symm)).symm).map h

end Keys

end MergeJoin
