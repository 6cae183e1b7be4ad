import Mathlib

namespace AssocMap

variable {κ β : Type} [DecidableEq κ]

/-- A finite map as a list of its entries, each key once. -/
def lookup (k : κ) : List (κ × β) → Option β
  | [] => none
  | (k', v) :: m => if k' = k then some v else lookup k m

def assign (k : κ) (v : β) : List (κ × β) → List (κ × β)
  | [] => [(k, v)]
  | (k', v') :: m => if k' = k then (k, v) :: m else (k', v') :: assign k v m

def erase (k : κ) (m : List (κ × β)) : List (κ × β) := m.filter fun e => decide (e.1 ≠ k)

/-- Assigns only when the key has no value yet. -/
def insertNew (k : κ) (v : β) (m : List (κ × β)) : List (κ × β) :=
  match lookup k m with
  | some _ => m
  | none => assign k v m

@[simp] theorem lookup_nil (k : κ) : lookup k ([] : List (κ × β)) = none := rfl

theorem lookup_assign (k k' : κ) (v : β) (m : List (κ × β)) :
    lookup k (assign k' v m) = if k' = k then some v else lookup k m := by
  induction m with
  | nil => simp [assign, lookup]
  | cons e m ih =>
    obtain ⟨a, b⟩ := e
    by_cases ha : a = k'
    · subst a
      by_cases hk : k' = k <;> simp [assign, lookup, hk]
    · by_cases hk : a = k
      · subst a
        simp [assign, lookup, ha, Ne.symm ha]
      · simp [assign, lookup, ha, hk, ih]

theorem lookup_erase (k k' : κ) (m : List (κ × β)) :
    lookup k (erase k' m) = if k' = k then none else lookup k m := by
  induction m with
  | nil => simp [erase, lookup]
  | cons e m ih =>
    obtain ⟨a, b⟩ := e
    simp only [erase] at ih ⊢
    by_cases ha : a = k'
    · subst a
      by_cases hk : k' = k
      · simp [hk] at ih ⊢
        exact ih
      · simpa [lookup, hk] using ih
    · by_cases hk : a = k
      · subst a
        simp [lookup, ha, Ne.symm ha]
      · simpa [lookup, ha, hk] using ih

theorem lookup_foldl_erase (k : κ) (ks : List κ) (m : List (κ × β)) :
    lookup k (ks.foldl (fun m k' => erase k' m) m) = if k ∈ ks then none else lookup k m := by
  induction ks generalizing m with
  | nil => simp
  | cons k' ks ih =>
    rw [List.foldl_cons, ih, lookup_erase]
    by_cases hk : k' = k
    · simp [hk]
    · simp [hk, Ne.symm hk]

theorem lookup_insertNew (k k' : κ) (v : β) (m : List (κ × β)) :
    lookup k (insertNew k' v m) =
      if k' = k then some ((lookup k' m).getD v) else lookup k m := by
  unfold insertNew
  cases h : lookup k' m with
  | none => simp [lookup_assign]
  | some w =>
    by_cases hk : k' = k
    · subst hk
      simp [h]
    · simp [hk]

theorem mem_of_lookup {k : κ} {v : β} {m : List (κ × β)} (h : lookup k m = some v) :
    (k, v) ∈ m := by
  induction m with
  | nil => simp at h
  | cons e m ih =>
    simp only [lookup] at h
    split at h
    next hk =>
      cases Option.some.inj h
      rw [← hk]
      exact List.mem_cons_self
    next => exact List.mem_cons_of_mem e (ih h)

theorem mem_assign {k : κ} {v : β} {e : κ × β} {m : List (κ × β)} (h : e ∈ assign k v m) :
    e ∈ m ∨ e = (k, v) := by
  induction m with
  | nil => exact Or.inr (by simpa [assign] using h)
  | cons e' m ih =>
    simp only [assign] at h
    split at h
    · rcases List.mem_cons.mp h with h | h
      · exact Or.inr h
      · exact Or.inl (List.mem_cons_of_mem e' h)
    · rcases List.mem_cons.mp h with h | h
      · exact Or.inl (h ▸ List.mem_cons_self)
      · exact (ih h).imp_left (List.mem_cons_of_mem e')

theorem mem_insertNew {k : κ} {v : β} {e : κ × β} {m : List (κ × β)} (h : e ∈ insertNew k v m) :
    e ∈ m ∨ e = (k, v) := by
  unfold insertNew at h
  split at h
  · exact Or.inl h
  · exact mem_assign h

theorem lookup_of_mem {k : κ} {v : β} {m : List (κ × β)} (hm : (m.map Prod.fst).Nodup)
    (h : (k, v) ∈ m) : lookup k m = some v := by
  induction m with
  | nil => cases h
  | cons e m ih =>
    obtain ⟨hnot, hrest⟩ := List.nodup_cons.mp hm
    rcases List.mem_cons.mp h with h | h
    · simp [← h, lookup]
    · have hne : e.1 ≠ k := by
        rintro rfl
        exact hnot (List.mem_map.mpr ⟨_, h, rfl⟩)
      simp [lookup, hne, ih hrest h]

theorem nodup_keys_erase (k : κ) {m : List (κ × β)} (hm : (m.map Prod.fst).Nodup) :
    ((erase k m).map Prod.fst).Nodup :=
  hm.sublist (List.filter_sublist.map Prod.fst)

theorem nodup_keys_assign (k : κ) (v : β) {m : List (κ × β)} (hm : (m.map Prod.fst).Nodup) :
    ((assign k v m).map Prod.fst).Nodup := by
  induction m with
  | nil => simp [assign]
  | cons e m ih =>
    obtain ⟨hnot, hrest⟩ := List.nodup_cons.mp hm
    simp only [assign]
    split
    next hk =>
      rw [← hk]
      exact List.nodup_cons.mpr ⟨hnot, hrest⟩
    next hk =>
      refine List.nodup_cons.mpr ⟨fun hmem => ?_, ih hrest⟩
      obtain ⟨e', he', heq⟩ := List.mem_map.mp hmem
      rcases mem_assign he' with he' | rfl
      · exact hnot (List.mem_map.mpr ⟨e', he', heq⟩)
      · exact hk heq.symm

end AssocMap
