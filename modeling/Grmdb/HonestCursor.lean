import Grmdb.Cursor

namespace Cursor

variable {ρ : Type}

/-- A cursor whose calls may fail but never give another record than the next one of `rows`. In
`At rest` the records of `rest` are ahead, in `Taken r rest` the first of them has been read, and
`Again` is what a new start leaves behind the end. -/
structure Honest (c : Cursor ρ) (s₀ : c.State) (rows : List ρ) (At : List ρ → c.State → Prop)
    (Taken : ρ → List ρ → c.State → Prop) (Again : c.State → Prop) : Prop where
  start : ∀ s, c.start s₀ = some s → At rows s
  atEnd : ∀ rest s, At rest s → c.atEnd s = rest.isEmpty
  read : ∀ r rest s x s', At (r :: rest) s → c.read s = some (x, s') → x = r ∧ Taken r rest s'
  reread : ∀ r rest s x s', Taken r rest s → c.read s = some (x, s') → x = r ∧ Taken r rest s'
  advance : ∀ r rest s s', Taken r rest s → c.advance s = some s' → At rest s'
  restart : rows ≠ [] → ∀ s s', At [] s → c.start s = some s' → Again s'
  again : ∀ s x s', Again s → c.read s = some (x, s') → ∃ rest, rows = x :: rest ∧ Taken x rest s'

section

variable {c : Cursor ρ} {s₀ s : c.State} {rows rest rest' : List ρ} {At : List ρ → c.State → Prop}
  {Taken : ρ → List ρ → c.State → Prop} {Again : c.State → Prop}

theorem Delivers.next (h : c.Delivers s rows) (hend : c.atEnd s = false) :
    ∃ r rest s' s'', rows = r :: rest ∧ c.read s = some (r, s') ∧ c.advance s' = some s'' ∧
      c.Delivers s'' rest := by
  cases h with
  | nil hend' => cases hend.symm.trans hend'
  | cons _ hread hadvance hrest => exact ⟨_, _, _, _, rfl, hread, hadvance, hrest⟩

theorem Delivers.atEnd (h : c.Delivers s rows) : c.atEnd s = rows.isEmpty := by
  cases h with
  | nil hend => exact hend
  | cons hend => exact hend

theorem Honest.delivers (h : c.Honest s₀ rows At Taken Again) (hs : At rest s)
    (hdelivers : c.Delivers s rest') : rest' = rest := by
  induction hdelivers generalizing rest with
  | nil hend =>
    rw [h.atEnd _ _ hs] at hend
    exact (List.isEmpty_iff.mp hend).symm
  | cons hend hread hadvance _ ih =>
    cases rest with
    | nil => simp [h.atEnd _ _ hs] at hend
    | cons r rest =>
      obtain ⟨rfl, htaken⟩ := h.read _ _ _ _ _ hs hread
      rw [ih (h.advance _ _ _ _ htaken hadvance)]

/-- A walk is honest, and its records can be read again. -/
theorem Walks.honest (h : c.Walks s₀ rows At) :
    c.Honest s₀ rows At (fun r rest s => At (r :: rest) s)
      fun s => rows ≠ [] ∧ At rows s := by
  have hread : ∀ r rest s x s', At (r :: rest) s → c.read s = some (x, s') →
      x = r ∧ At (r :: rest) s' := by
    intro r rest s x s' hs hx
    obtain ⟨s₁, hr, hs₁⟩ := h.read r rest s hs
    cases hr.symm.trans hx
    exact ⟨rfl, hs₁⟩
  have hstart : ∀ s s', (s = s₀ ∨ ∃ rest, At rest s) → c.start s = some s' → At rows s' := by
    intro s s' hs hx
    obtain ⟨s₁, hr, hs₁⟩ := h.start s hs
    cases hr.symm.trans hx
    exact hs₁
  refine ⟨fun s => hstart s₀ s (Or.inl rfl), h.atEnd, hread, hread, ?_,
    fun hne s s' hs hx => ⟨hne, hstart s s' (Or.inr ⟨[], hs⟩) hx⟩, fun s x s' hs hx => ?_⟩
  · intro r rest s s' hs hx
    obtain ⟨s₁, hr, hs₁⟩ := h.advance r rest s hs
    cases hr.symm.trans hx
    exact hs₁
  · obtain ⟨r, rest, rfl⟩ := List.exists_cons_of_ne_nil hs.1
    obtain ⟨rfl, hs'⟩ := hread r rest s x s' hs.2 hx
    exact ⟨rest, rfl, hs'⟩

/-- A cursor that cannot be started is honest about anything. -/
theorem honest_of_start (h : c.start s₀ = none) (rows : List ρ) :
    c.Honest s₀ rows (fun _ _ => False) (fun _ _ _ => False) fun _ => False := by
  refine ⟨fun s hs => ?_, fun _ _ => False.elim, fun _ _ _ _ _ => False.elim,
    fun _ _ _ _ _ => False.elim, fun _ _ _ _ => False.elim, fun _ _ _ => False.elim,
    fun _ _ _ => False.elim⟩
  rw [h] at hs
  cases hs

end

end Cursor
