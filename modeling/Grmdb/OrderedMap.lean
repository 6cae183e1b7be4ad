import Mathlib

/-- A finite map as its entries in the order of their keys. -/
structure OrderedMap (κ ν : Type) [LinearOrder κ] where
  entries : List (κ × ν)
  sorted : entries.Pairwise fun e e' => e.1 < e'.1

namespace OrderedMap

variable {κ ν : Type} [LinearOrder κ]

def empty : OrderedMap κ ν := ⟨[], List.Pairwise.nil⟩

def find? (m : OrderedMap κ ν) (k : κ) : Option ν :=
  (m.entries.find? fun e => decide (e.1 = k)).map Prod.snd

/-- Gives `k` the value `v`, whatever it had. -/
def insert (m : OrderedMap κ ν) (k : κ) (v : ν) : OrderedMap κ ν where
  entries := m.entries.filter (fun e => decide (e.1 < k)) ++
    (k, v) :: m.entries.filter fun e => decide (k < e.1)
  sorted := by
    rw [List.pairwise_append, List.pairwise_cons]
    refine ⟨m.sorted.filter _, ⟨?_, m.sorted.filter _⟩, ?_⟩
    · intro e he
      exact of_decide_eq_true (List.mem_filter.mp he).2
    · intro e he e' he'
      have hbelow : e.1 < k := of_decide_eq_true (List.mem_filter.mp he).2
      rcases List.mem_cons.mp he' with rfl | he'
      · exact hbelow
      · exact hbelow.trans (of_decide_eq_true (List.mem_filter.mp he').2)

def erase (m : OrderedMap κ ν) (k : κ) : OrderedMap κ ν where
  entries := m.entries.filter fun e => decide (e.1 ≠ k)
  sorted := m.sorted.filter _

variable {m m' : OrderedMap κ ν} {k k' : κ} {v v' : ν}

theorem mem_insert :
    (k', v') ∈ (m.insert k v).entries ↔
      k' = k ∧ v' = v ∨ k' ≠ k ∧ (k', v') ∈ m.entries := by
  have hne : k' ≠ k ↔ k' < k ∨ k < k' := ne_iff_lt_or_gt
  simp only [insert, List.mem_append, List.mem_cons, List.mem_filter, decide_eq_true_eq,
    Prod.mk.injEq, hne]
  tauto

theorem mem_erase : (k', v') ∈ (m.erase k).entries ↔ k' ≠ k ∧ (k', v') ∈ m.entries := by
  simp [erase, and_comm]

/-- A key has one value. -/
theorem value_unique (h : (k, v) ∈ m.entries) (h' : (k, v') ∈ m.entries) : v = v' := by
  have hkeys : (m.entries.map Prod.fst).Nodup :=
    List.pairwise_map.mpr (m.sorted.imp fun hlt => hlt.ne)
  exact (Prod.mk.inj (List.inj_on_of_nodup_map hkeys h h' rfl)).2

theorem find?_eq_some : m.find? k = some v ↔ (k, v) ∈ m.entries := by
  constructor
  · intro h
    obtain ⟨⟨a, b⟩, he, rfl⟩ := Option.map_eq_some_iff.mp h
    have hkey : a = k := by simpa using List.find?_some he
    subst hkey
    exact List.mem_of_find?_eq_some he
  · intro h
    cases hfind : m.entries.find? fun e => decide (e.1 = k) with
    | none => exact absurd (decide_eq_true rfl) (List.find?_eq_none.mp hfind _ h)
    | some e =>
      obtain ⟨a, b⟩ := e
      have hkey : a = k := by simpa using List.find?_some hfind
      subst hkey
      rw [find?, hfind, value_unique h (List.mem_of_find?_eq_some hfind)]
      rfl

theorem find?_eq_none : m.find? k = none ↔ ∀ v, (k, v) ∉ m.entries := by
  simp only [Option.eq_none_iff_forall_ne_some, ne_eq, find?_eq_some]

/-- Maps with the same entries are the same. -/
theorem ext_mem (h : ∀ k v, (k, v) ∈ m.entries ↔ (k, v) ∈ m'.entries) : m = m' := by
  have hnodup : ∀ m : OrderedMap κ ν, m.entries.Nodup :=
    fun m => m.sorted.imp fun hlt heq => absurd (congrArg Prod.fst heq) hlt.ne
  have hperm : m.entries.Perm m'.entries :=
    (List.perm_ext_iff_of_nodup (hnodup m) (hnodup m')).mpr fun e => h e.1 e.2
  have hentries : m.entries = m'.entries :=
    hperm.eq_of_pairwise (fun e e' _ _ hlt hlt' => absurd hlt' hlt.not_gt) m.sorted m'.sorted
  obtain ⟨entries, sorted⟩ := m
  cases hentries
  rfl

theorem find?_insert : (m.insert k v).find? k' = if k' = k then some v else m.find? k' := by
  refine Option.ext fun w => ?_
  rw [find?_eq_some, mem_insert]
  split
  next hk => simp [hk, eq_comm]
  next hk => simp [hk, find?_eq_some]

theorem find?_erase : (m.erase k).find? k' = if k' = k then none else m.find? k' := by
  refine Option.ext fun w => ?_
  rw [find?_eq_some, mem_erase]
  split
  next hk => simp [hk]
  next hk => simp [hk, find?_eq_some]

theorem erase_insert (h : m.find? k = none) : (m.insert k v).erase k = m := by
  refine ext_mem fun k' v' => ?_
  rw [mem_erase, mem_insert]
  have hne : (k', v') ∈ m.entries → k' ≠ k := by
    rintro hmem rfl
    exact find?_eq_none.mp h v' hmem
  tauto

theorem insert_erase (h : m.find? k = some v) : (m.erase k).insert k v = m := by
  refine ext_mem fun k' v' => ?_
  have hhere := find?_eq_some.mp h
  rw [mem_insert, mem_erase]
  by_cases hk : k' = k
  · subst hk
    constructor
    · rintro (⟨-, rfl⟩ | ⟨hne, -⟩)
      · exact hhere
      · exact absurd rfl hne
    · exact fun hmem => Or.inl ⟨rfl, value_unique hmem hhere⟩
  · simp [hk]

end OrderedMap
