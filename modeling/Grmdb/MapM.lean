import Mathlib

namespace MapM

variable {α β : Type} {f : α → Option β} {g : β → Option α} {l : List α} {l' : List β}

theorem forall₂_mem_left {R : α → β → Prop} (h : List.Forall₂ R l l') {a : α} (ha : a ∈ l) :
    ∃ b ∈ l', R a b := by
  induction h with
  | nil => simp at ha
  | @cons x y _ _ hxy _ ih =>
    rcases List.mem_cons.mp ha with rfl | ha
    · exact ⟨y, List.mem_cons_self, hxy⟩
    · obtain ⟨b, hb, hab⟩ := ih ha
      exact ⟨b, List.mem_cons_of_mem y hb, hab⟩

theorem forall₂_mem_right {R : α → β → Prop} (h : List.Forall₂ R l l') {b : β} (hb : b ∈ l') :
    ∃ a ∈ l, R a b :=
  forall₂_mem_left h.flip hb

theorem exists_forall₂ {R : α → β → Prop} (h : ∀ a ∈ l, ∃ b, R a b) : ∃ l', List.Forall₂ R l l' := by
  induction l with
  | nil => exact ⟨[], List.Forall₂.nil⟩
  | cons a l ih =>
    obtain ⟨b, hb⟩ := h a List.mem_cons_self
    obtain ⟨l', hl'⟩ := ih fun x hx => h x (List.mem_cons_of_mem a hx)
    exact ⟨b :: l', List.Forall₂.cons hb hl'⟩

theorem mapM_of_forall₂ (h : List.Forall₂ (fun x y => f x = some y) l l') :
    l.mapM f = some l' := by
  induction h with
  | nil => rfl
  | cons hx _ ih => simp [List.mapM_cons, hx, ih]

theorem mapM_eq_map {k : α → β} (h : ∀ x ∈ l, f x = some (k x)) : l.mapM f = some (l.map k) :=
  mapM_of_forall₂ (List.forall₂_map_right_iff.mpr (List.forall₂_same.mpr h))

theorem forall₂_of_mapM (h : l.mapM f = some l') :
    List.Forall₂ (fun x y => f x = some y) l l' := by
  induction l generalizing l' with
  | nil =>
    cases Option.some.inj h
    exact List.Forall₂.nil
  | cons x l ih =>
    rw [List.mapM_cons] at h
    obtain ⟨y, hy, h⟩ := Option.bind_eq_some_iff.mp h
    obtain ⟨rest, hrest, h⟩ := Option.bind_eq_some_iff.mp h
    cases Option.some.inj h
    exact List.Forall₂.cons hy (ih hrest)

theorem mem_of_mapM {y : β} (h : l.mapM f = some l') (hy : y ∈ l') : ∃ x ∈ l, f x = some y :=
  forall₂_mem_right (forall₂_of_mapM h) hy

theorem isSome_of_mapM {x : α} (h : l.mapM f = some l') (hx : x ∈ l) : (f x).isSome := by
  obtain ⟨y, -, hy⟩ := forall₂_mem_left (forall₂_of_mapM h) hx
  exact Option.isSome_iff_exists.mpr ⟨y, hy⟩

theorem mapM_back (h : l.mapM f = some l') (hb : ∀ x ∈ l, ∀ y, f x = some y → g y = some x) :
    l'.mapM g = some l := by
  have hall := forall₂_of_mapM h
  clear h
  refine mapM_of_forall₂ ?_
  induction hall with
  | nil => exact List.Forall₂.nil
  | @cons x y l l' hx _ ih =>
    have hrest := ih fun z hz => hb z (List.mem_cons_of_mem x hz)
    exact List.Forall₂.cons (hb x List.mem_cons_self y hx) hrest

/-- The results of a map that comes through are related to `xs` exactly if each step comes through
with a related result. -/
theorem exists_mapM_iff {γ : Type} {R : γ → β → Prop} {xs : List γ} :
    (∃ l', l.mapM f = some l' ∧ List.Forall₂ R xs l') ↔
      List.Forall₂ (fun x y => ∃ z, f y = some z ∧ R x z) xs l := by
  constructor
  · rintro ⟨l', hl', hall⟩
    have hsteps := forall₂_of_mapM hl'
    clear hl'
    induction hall generalizing l with
    | nil =>
      cases hsteps
      exact List.Forall₂.nil
    | @cons x z xs l' hx _ ih =>
      cases hsteps with
      | cons hy hrest => exact List.Forall₂.cons ⟨z, hy, hx⟩ (ih hrest)
  · intro hall
    induction hall with
    | nil => exact ⟨[], rfl, List.Forall₂.nil⟩
    | cons hx _ ih =>
      obtain ⟨z, hz, hR⟩ := hx
      obtain ⟨l', hl', hrest⟩ := ih
      exact ⟨z :: l', by simp [List.mapM_cons, hz, hl'], List.Forall₂.cons hR hrest⟩

end MapM
