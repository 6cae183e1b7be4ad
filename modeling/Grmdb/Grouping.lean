import Mathlib

namespace Grouping

/-- How elements are put into groups. An entry of the table keeps the key of its first element;
`same k k'` says that an element with the key `k'` goes to the entry with the key `k`. A group
keeps something for its first element and for every further one. -/
structure Scheme (α κ ε : Type) where
  key : α → κ
  same : κ → κ → Bool
  first : α → ε
  next : α → ε → ε

namespace Scheme

variable {α κ ε ν ω : Type} (s : Scheme α κ ε)

def add (table : List (κ × ε)) (x : α) : List (κ × ε) :=
  if table.any fun e => s.same e.1 (s.key x) then
    table.map fun e => if s.same e.1 (s.key x) then (e.1, s.next x e.2) else e
  else table ++ [(s.key x, s.first x)]

def build (xs : List α) : List (κ × ε) := xs.foldl s.add []

/-- What a group keeps for its elements, one after the other. -/
def summary : List α → Option ε
  | [] => none
  | x :: xs => some (xs.foldl (fun e x => s.next x e) (s.first x))

/-- Elements are told apart as the values of their keys are. -/
def Separates (value : κ → ν) (xs : List α) : Prop :=
  xs.Pairwise fun x y => s.same (s.key x) (s.key y) = true ↔ value (s.key x) = value (s.key y)

/-- A table with one entry for a value, which keeps what the elements with this value leave. -/
structure Exact [DecidableEq ν] (value : κ → ν) (xs : List α) (table : List (κ × ε)) : Prop where
  nodup : (table.map fun e => value e.1).Nodup
  mem : ∀ v, v ∈ table.map (fun e => value e.1) ↔ v ∈ xs.map fun x => value (s.key x)
  summary : ∀ e ∈ table, s.summary (xs.filter fun x => value (s.key x) = value e.1) = some e.2

variable {s} {value : κ → ν} {xs : List α} {x : α} {table : List (κ × ε)}

theorem keys_update (table : List (κ × ε)) (x : α) :
    (table.map fun e => if s.same e.1 (s.key x) then (e.1, s.next x e.2) else e).map Prod.fst =
      table.map Prod.fst := by
  rw [List.map_map]
  refine List.map_congr_left fun e _ => ?_
  rw [Function.comp_apply]
  split
  next => rfl
  next => rfl

theorem values_eq (value : κ → ν) (table : List (κ × ε)) :
    table.map (fun e => value e.1) = (table.map Prod.fst).map value := by
  rw [List.map_map]
  rfl

theorem summary_append (hne : xs ≠ []) :
    s.summary (xs ++ [x]) = (s.summary xs).map (s.next x) := by
  obtain ⟨y, xs, rfl⟩ := List.exists_cons_of_ne_nil hne
  simp [summary]

theorem build_append : s.build (xs ++ [x]) = s.add (s.build xs) x := by
  simp [build]

theorem build_ne_nil (hne : xs ≠ []) : s.build xs ≠ [] := by
  obtain ⟨xs, x, rfl⟩ := (List.eq_nil_or_concat' xs).resolve_left hne
  rw [build_append]
  unfold add
  split
  next hany =>
    obtain ⟨e, he, -⟩ := List.any_eq_true.mp hany
    exact fun hnil => List.ne_nil_of_mem he (List.map_eq_nil_iff.mp hnil)
  next => simp

/-- Every entry has the key of an element. -/
theorem build_keys (s : Scheme α κ ε) (xs : List α) : ∀ e ∈ s.build xs, e.1 ∈ xs.map s.key := by
  induction xs using List.reverseRecOn with
  | nil => exact fun e he => absurd he List.not_mem_nil
  | append_singleton xs x ih =>
    intro e he
    rw [build_append] at he
    rw [List.map_append, List.mem_append]
    unfold add at he
    split at he
    next =>
      have hkey := List.mem_map_of_mem (f := Prod.fst) he
      rw [keys_update] at hkey
      obtain ⟨old, hold, heq⟩ := List.mem_map.mp hkey
      exact .inl (heq ▸ ih old hold)
    next =>
      rcases List.mem_append.mp he with he | he
      · exact .inl (ih e he)
      · rw [List.mem_singleton.mp he]
        exact .inr (List.mem_singleton_self _)

variable [DecidableEq ν]

theorem filter_own (xs : List α) (x : α) :
    (xs ++ [x]).filter (fun y => value (s.key y) = value (s.key x)) =
      xs.filter (fun y => value (s.key y) = value (s.key x)) ++ [x] := by
  rw [List.filter_append, List.filter_cons_of_pos (by simp), List.filter_nil]

theorem filter_other {v : ν} (xs : List α) (hv : v ≠ value (s.key x)) :
    (xs ++ [x]).filter (fun y => value (s.key y) = v) =
      xs.filter fun y => value (s.key y) = v := by
  rw [List.filter_append, List.filter_cons_of_neg (by simpa using hv.symm), List.filter_nil,
    List.append_nil]

/-- An element of a group that is there already. -/
theorem Exact.update (h : s.Exact value xs table)
    (hsame : ∀ e ∈ table, s.same e.1 (s.key x) = true ↔ value e.1 = value (s.key x))
    (hkey : value (s.key x) ∈ xs.map fun y => value (s.key y)) :
    s.Exact value (xs ++ [x])
      (table.map fun e => if s.same e.1 (s.key x) then (e.1, s.next x e.2) else e) := by
  refine ⟨?_, fun v => ?_, fun e he => ?_⟩
  · rw [values_eq, keys_update, ← values_eq]
    exact h.nodup
  · rw [values_eq, keys_update, ← values_eq, h.mem, List.map_append, List.mem_append]
    constructor
    · exact Or.inl
    · rintro (hv | hv)
      · exact hv
      · rw [List.mem_singleton.mp hv]
        exact hkey
  · obtain ⟨old, hold, rfl⟩ := List.mem_map.mp he
    have hsummary := h.summary old hold
    by_cases hs : value old.1 = value (s.key x)
    · have hne : xs.filter (fun y => value (s.key y) = value old.1) ≠ [] := by
        intro hnil
        rw [hnil] at hsummary
        cases hsummary
      rw [if_pos ((hsame old hold).mpr hs)]
      dsimp only
      rw [hs, filter_own, summary_append (hs ▸ hne), ← hs, hsummary]
      rfl
    · rw [if_neg (fun hs' => hs ((hsame old hold).mp hs')), filter_other _ hs]
      exact hsummary

/-- The first element of its group. -/
theorem Exact.insert (h : s.Exact value xs table)
    (hkey : value (s.key x) ∉ xs.map fun y => value (s.key y)) :
    s.Exact value (xs ++ [x]) (table ++ [(s.key x, s.first x)]) := by
  refine ⟨?_, fun v => ?_, fun e he => ?_⟩
  · rw [List.map_append]
    refine h.nodup.append (by simp) ?_
    intro v hv hv'
    rw [List.mem_singleton.mp hv', h.mem] at hv
    exact hkey hv
  · rw [List.map_append, List.map_append, List.mem_append, List.mem_append, h.mem]
    rfl
  · rcases List.mem_append.mp he with he | he
    · have hne : value e.1 ≠ value (s.key x) := by
        intro heq
        exact hkey ((h.mem _).mp (heq ▸ List.mem_map_of_mem he))
      rw [filter_other _ hne]
      exact h.summary e he
    · rw [List.mem_singleton.mp he]
      have hnone : xs.filter (fun y => value (s.key y) = value (s.key x)) = [] := by
        refine List.filter_eq_nil_iff.mpr fun y hy hk => hkey ?_
        rw [decide_eq_true_eq] at hk
        exact hk ▸ List.mem_map_of_mem hy
      dsimp only
      rw [filter_own, hnone]
      rfl

theorem Exact.add (h : s.Exact value xs table)
    (hsame : ∀ e ∈ table, s.same e.1 (s.key x) = true ↔ value e.1 = value (s.key x)) :
    s.Exact value (xs ++ [x]) (s.add table x) := by
  have hany : (table.any fun e => s.same e.1 (s.key x)) = true ↔
      value (s.key x) ∈ xs.map fun y => value (s.key y) := by
    rw [← h.mem, List.any_eq_true, List.mem_map]
    constructor
    · intro ⟨e, he, hs⟩
      exact ⟨e, he, (hsame e he).mp hs⟩
    · intro ⟨e, he, hs⟩
      exact ⟨e, he, (hsame e he).mpr hs⟩
  unfold Scheme.add
  split
  next hmem => exact h.update hsame (hany.mp hmem)
  next hmem => exact h.insert fun hk => hmem (hany.mpr hk)

/-- Elements that are told apart give every group its entry. -/
theorem build_exact (h : s.Separates value xs) : s.Exact value xs (s.build xs) := by
  induction xs using List.reverseRecOn with
  | nil => exact ⟨List.nodup_nil, fun v => Iff.rfl, fun e he => absurd he List.not_mem_nil⟩
  | append_singleton xs x ih =>
    obtain ⟨hxs, -, hlast⟩ := List.pairwise_append.mp h
    rw [build_append]
    refine (ih hxs).add fun e he => ?_
    obtain ⟨y, hy, hkey⟩ := List.mem_map.mp (build_keys s xs e he)
    rw [← hkey]
    exact hlast y hy x (List.mem_singleton_self x)

/-- There are as many entries as values. -/
theorem Exact.length (h : s.Exact value xs table) :
    table.length = (xs.map fun x => value (s.key x)).toFinset.card := by
  have hsame : (table.map fun e => value e.1).toFinset =
      (xs.map fun x => value (s.key x)).toFinset := by
    ext v
    rw [List.mem_toFinset, List.mem_toFinset, h.mem]
  rw [← hsame, List.toFinset_card_of_nodup h.nodup, List.length_map]

/-- With as many entries as there are things that the values depend on, equal values mean equal
things. -/
theorem Exact.inj_of_length [DecidableEq ω] {g : α → ω} {f : ω → ν} (h : s.Exact value xs table)
    (hvalue : ∀ x ∈ xs, value (s.key x) = f (g x))
    (hlen : (xs.map g).toFinset.card ≤ table.length) {x y : α} (hx : x ∈ xs) (hy : y ∈ xs)
    (heq : f (g x) = f (g y)) : g x = g y := by
  have himage : (xs.map fun x => value (s.key x)).toFinset = (xs.map g).toFinset.image f := by
    ext v
    rw [List.mem_toFinset, List.map_congr_left hvalue, Finset.mem_image]
    simp
  rw [h.length, himage] at hlen
  have hinj := Finset.card_image_iff.mp (le_antisymm Finset.card_image_le hlen)
  exact hinj (List.mem_toFinset.mpr (List.mem_map_of_mem hx))
    (List.mem_toFinset.mpr (List.mem_map_of_mem hy)) heq

end Scheme

end Grouping
