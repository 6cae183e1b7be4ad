import Mathlib

/-- The environments over `keys`: each gives one of its rows to every key, and the others keep the
default. -/
def environments {ι β : Type} [DecidableEq ι] [Inhabited β] (rowsOf : ι → List β) :
    List ι → List (ι → β)
  | [] => [fun _ => default]
  | key :: keys => (rowsOf key).flatMap fun row =>
    (environments rowsOf keys).map fun env => Function.update env key row

namespace Environments

variable {ι β γ : Type}

section Merge

variable [DecidableEq ι] {keys : List ι}

/-- The rows of `env` for `keys` and those of `env'` for the other keys. -/
def merge (keys : List ι) (env env' : ι → β) : ι → β := fun i => if i ∈ keys then env i else env' i

theorem merge_nil (env env' : ι → β) : merge [] env env' = env' := by
  funext i
  simp [merge]

theorem merge_update (key : ι) (row : β) (env env' : ι → β) :
    merge (key :: keys) (Function.update env key row) env' =
      Function.update (merge keys env env') key row := by
  funext i
  by_cases h : i = key
  · subst h
    simp [merge]
  · simp [merge, h]

end Merge

section Products

theorem product_flatMap {α : Type} (l : List α) (f : α → List β) (r : List γ) :
    l.flatMap f ×ˢ r = l.flatMap fun a => f a ×ˢ r := by
  induction l with
  | nil => rfl
  | cons a l ih =>
    rw [List.flatMap_cons, List.flatMap_cons, ← ih]
    exact List.flatMap_append

theorem map_product {α α' γ' : Type} (f : α → α') (g : γ → γ') (l : List α) (r : List γ) :
    l.map f ×ˢ r.map g = (l ×ˢ r).map (Prod.map f g) := by
  induction l with
  | nil => rfl
  | cons a l ih =>
    rw [List.map_cons, List.product_cons, List.product_cons, ih, List.map_append, List.map_map,
      List.map_map]
    rfl

theorem filter_product {α : Type} (p : α → Bool) (q : γ → Bool) (l : List α) (r : List γ) :
    l.filter p ×ˢ r.filter q = (l ×ˢ r).filter fun pair => p pair.1 && q pair.2 := by
  induction l with
  | nil => rfl
  | cons a l ih =>
    rw [List.product_cons, List.filter_append, List.filter_cons, ← ih]
    cases ha : p a with
    | true =>
      rw [if_pos rfl, List.product_cons, List.filter_map]
      simp [Function.comp_def, ha]
    | false =>
      rw [if_neg (by simp), List.filter_map]
      simp [Function.comp_def, ha]

end Products

section

variable [DecidableEq ι] [Inhabited β] {rowsOf : ι → List β} {keys keys' : List ι}

theorem mem_environments {env : ι → β} :
    env ∈ environments rowsOf keys → (∀ key ∈ keys, env key ∈ rowsOf key) ∧
      ∀ key, key ∉ keys → env key = default := by
  induction keys generalizing env with
  | nil =>
    intro h
    cases List.mem_singleton.mp h
    exact ⟨fun key hkey => absurd hkey List.not_mem_nil, fun _ _ => rfl⟩
  | cons key keys ih =>
    intro h
    obtain ⟨row, hrow, h⟩ := List.mem_flatMap.mp h
    obtain ⟨env', henv', rfl⟩ := List.mem_map.mp h
    obtain ⟨hin, hout⟩ := ih henv'
    refine ⟨fun i hi => ?_, fun i hi => ?_⟩
    · by_cases heq : i = key
      · subst heq
        rwa [Function.update_self]
      · rw [Function.update_of_ne heq]
        exact hin i (List.mem_of_ne_of_mem heq hi)
    · rw [Function.update_of_ne (List.ne_of_not_mem_cons hi)]
      exact hout i (List.not_mem_of_not_mem_cons hi)

/-- An environment over two lists of keys is one over each of them. -/
theorem environments_append (keys keys' : List ι) :
    environments rowsOf (keys ++ keys') =
      (environments rowsOf keys ×ˢ environments rowsOf keys').map fun pair =>
        merge keys pair.1 pair.2 := by
  induction keys with
  | nil =>
    rw [List.nil_append]
    change _ = (([fun _ => default] : List (ι → β)) ×ˢ environments rowsOf keys').map _
    rw [List.product_cons, List.nil_product, List.append_nil, List.map_map]
    have hid : ((fun pair : (ι → β) × (ι → β) => merge [] pair.1 pair.2) ∘
        Prod.mk (fun _ => default)) = id := funext fun env => merge_nil _ env
    rw [hid, List.map_id]
  | cons key keys ih =>
    rw [List.cons_append, environments, ih, environments, product_flatMap, List.map_flatMap]
    refine List.flatMap_congr fun row _ => ?_
    have hprod := map_product (fun env => Function.update env key row) id
      (environments rowsOf keys) (environments rowsOf keys')
    rw [List.map_id] at hprod
    rw [hprod, List.map_map, List.map_map]
    refine List.map_congr_left fun pair _ => ?_
    exact (merge_update key row pair.1 pair.2).symm

/-- The order of the keys is the order in which their rows vary, and nothing else. -/
theorem environments_perm (h : keys.Perm keys') (hnodup : keys.Nodup) :
    (environments rowsOf keys).Perm (environments rowsOf keys') := by
  induction h with
  | nil => exact List.Perm.refl _
  | cons key _ ih =>
    exact List.Perm.flatMap_left _ fun row _ => (ih (List.nodup_cons.mp hnodup).2).map _
  | swap key key' keys =>
    have hne : key ≠ key' := by
      intro heq
      exact (List.nodup_cons.mp hnodup).1 (heq ▸ List.mem_cons_self)
    rw [← Multiset.coe_eq_coe]
    simp only [environments, List.map_flatMap, List.map_map, ← Multiset.coe_bind]
    rw [Multiset.bind_bind]
    refine Multiset.bind_congr fun row _ => Multiset.bind_congr fun row' _ => ?_
    rw [Multiset.coe_eq_coe]
    refine List.Perm.of_eq (List.map_congr_left fun env _ => ?_)
    exact Function.update_comm hne _ _ _
  | trans hfirst _ ih ih' => exact (ih hnodup).trans (ih' (hfirst.nodup_iff.mp hnodup))

end

end Environments
