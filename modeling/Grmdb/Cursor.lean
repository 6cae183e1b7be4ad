import Mathlib

/-- A cursor over records: started, it is read at its place and moved on until it is at its end.
Reading may change it. A call that fails is `none`. -/
structure Cursor (ρ : Type) where
  State : Type
  start : State → Option State
  advance : State → Option State
  atEnd : State → Bool
  read : State → Option (ρ × State)

namespace Cursor

variable {ρ τ : Type}

/-- The records that the loop over the cursor reads from here to the end. -/
inductive Delivers (c : Cursor ρ) : c.State → List ρ → Prop where
  | nil {s : c.State} (hend : c.atEnd s = true) : Delivers c s []
  | cons {s s' s'' : c.State} {r : ρ} {rest : List ρ} (hend : c.atEnd s = false)
      (hread : c.read s = some (r, s')) (hadvance : c.advance s' = some s'')
      (hrest : Delivers c s'' rest) : Delivers c s (r :: rest)

/-- The loop itself, for at most `fuel` records. -/
def collect (c : Cursor ρ) : Nat → c.State → Option (List ρ × c.State)
  | 0, s => if c.atEnd s then some ([], s) else none
  | fuel + 1, s =>
    if c.atEnd s then some ([], s)
    else
      (c.read s).bind fun (r, s) =>
        (c.advance s).bind fun s => (c.collect fuel s).map fun (rest, s) => (r :: rest, s)

/-- The states that a user of the cursor can bring about: it is started before anything else, and
read and moved on only when it is not at its end. -/
inductive Reach (c : Cursor ρ) (s₀ : c.State) : c.State → Prop where
  | first {s : c.State} (h : c.start s₀ = some s) : Reach c s₀ s
  | start {s s' : c.State} (hs : Reach c s₀ s) (h : c.start s = some s') : Reach c s₀ s'
  | advance {s s' : c.State} (hs : Reach c s₀ s) (hend : c.atEnd s = false)
      (h : c.advance s = some s') : Reach c s₀ s'
  | read {s s' : c.State} {r : ρ} (hs : Reach c s₀ s) (hend : c.atEnd s = false)
      (h : c.read s = some (r, s')) : Reach c s₀ s'

/-- Whenever it is started it delivers `rows`, and reading twice gives one record. -/
structure Repeats (c : Cursor ρ) (s₀ : c.State) (rows : List ρ) : Prop where
  start : ∀ s, (s = s₀ ∨ c.Reach s₀ s) → ∃ s', c.start s = some s' ∧ c.Delivers s' rows
  read : ∀ s, c.Reach s₀ s → c.atEnd s = false →
    ∃ r s₁ s₂, c.read s = some (r, s₁) ∧ c.read s₁ = some (r, s₂)

/-- The cursor walks along `rows`: in a state of `At rest` the records of `rest` are ahead. -/
structure Walks (c : Cursor ρ) (s₀ : c.State) (rows : List ρ) (At : List ρ → c.State → Prop) :
    Prop where
  start : ∀ s, (s = s₀ ∨ ∃ rest, At rest s) → ∃ s', c.start s = some s' ∧ At rows s'
  atEnd : ∀ rest s, At rest s → c.atEnd s = rest.isEmpty
  read : ∀ r rest s, At (r :: rest) s → ∃ s', c.read s = some (r, s') ∧ At (r :: rest) s'
  advance : ∀ r rest s, At (r :: rest) s → ∃ s', c.advance s = some s' ∧ At rest s'

section

variable {c : Cursor ρ} {s₀ s s' : c.State} {rows rest : List ρ} {At : List ρ → c.State → Prop}

theorem collect_delivers {fuel : Nat} (h : c.collect fuel s = some (rows, s')) :
    c.Delivers s rows := by
  induction fuel generalizing s rows with
  | zero =>
    unfold collect at h
    split at h
    next hend =>
      cases h
      exact .nil hend
    next => cases h
  | succ fuel ih =>
    unfold collect at h
    split at h
    next hend =>
      cases h
      exact .nil hend
    next hend =>
      obtain ⟨⟨r, s₁⟩, hread, h⟩ := Option.bind_eq_some_iff.mp h
      obtain ⟨s₂, hadvance, h⟩ := Option.bind_eq_some_iff.mp h
      obtain ⟨⟨rest, s₃⟩, hrest, h⟩ := Option.map_eq_some_iff.mp h
      cases h
      exact .cons (Bool.not_eq_true _ ▸ hend) hread hadvance (ih hrest)

theorem collect_length {fuel : Nat} (h : c.collect fuel s = some (rows, s')) :
    rows.length ≤ fuel := by
  induction fuel generalizing s rows with
  | zero =>
    unfold collect at h
    split at h
    next =>
      cases h
      exact Nat.le_refl 0
    next => cases h
  | succ fuel ih =>
    unfold collect at h
    split at h
    next =>
      cases h
      exact Nat.zero_le _
    next =>
      obtain ⟨⟨r, s₁⟩, -, h⟩ := Option.bind_eq_some_iff.mp h
      obtain ⟨s₂, -, h⟩ := Option.bind_eq_some_iff.mp h
      obtain ⟨⟨rest, s₃⟩, hrest, h⟩ := Option.map_eq_some_iff.mp h
      cases h
      exact Nat.succ_le_succ (ih hrest)

theorem Delivers.collect (h : c.Delivers s rows) {fuel : Nat} (hfuel : rows.length ≤ fuel) :
    ∃ s', c.collect fuel s = some (rows, s') := by
  induction h generalizing fuel with
  | @nil s hend =>
    refine ⟨s, ?_⟩
    cases fuel with
    | zero => simp [Cursor.collect, hend]
    | succ fuel => simp [Cursor.collect, hend]
  | cons hend hread hadvance _ ih =>
    cases fuel with
    | zero => simp at hfuel
    | succ fuel =>
      obtain ⟨s', hs'⟩ := ih (Nat.le_of_succ_le_succ hfuel)
      exact ⟨s', by simp [Cursor.collect, hend, hread, hadvance, hs']⟩

/-- What a cursor delivers is determined. -/
theorem Delivers.unique {rows' : List ρ} (h : c.Delivers s rows) (h' : c.Delivers s rows') :
    rows = rows' := by
  induction h generalizing rows' with
  | nil hend =>
    cases h' with
    | nil => rfl
    | cons hend' => simp [hend] at hend'
  | cons hend hread hadvance _ ih =>
    cases h' with
    | nil hend' => simp [hend] at hend'
    | cons _ hread' hadvance' hrest' =>
      cases hread.symm.trans hread'
      cases hadvance.symm.trans hadvance'
      rw [ih hrest']

theorem Walks.delivers (h : c.Walks s₀ rows At) (hs : At rest s) : c.Delivers s rest := by
  induction rest generalizing s with
  | nil => exact .nil (h.atEnd [] s hs)
  | cons r rest ih =>
    obtain ⟨s₁, hread, hs₁⟩ := h.read r rest s hs
    obtain ⟨s₂, hadvance, hs₂⟩ := h.advance r rest s₁ hs₁
    exact .cons (h.atEnd _ s hs) hread hadvance (ih hs₂)

theorem Walks.collect (h : c.Walks s₀ rows At) (hs : At rest s) {fuel : Nat}
    (hfuel : rest.length ≤ fuel) : ∃ s', c.collect fuel s = some (rest, s') ∧ At [] s' := by
  induction rest generalizing s fuel with
  | nil =>
    have hend := h.atEnd [] s hs
    refine ⟨s, ?_, hs⟩
    cases fuel with
    | zero => simp [Cursor.collect, hend]
    | succ fuel => simp [Cursor.collect, hend]
  | cons r rest ih =>
    cases fuel with
    | zero => simp at hfuel
    | succ fuel =>
      obtain ⟨s₁, hread, hs₁⟩ := h.read r rest s hs
      obtain ⟨s₂, hadvance, hs₂⟩ := h.advance r rest s₁ hs₁
      obtain ⟨s', hcollect, hs'⟩ := ih hs₂ (Nat.le_of_succ_le_succ hfuel)
      have hend := h.atEnd _ s hs
      exact ⟨s', by simp [Cursor.collect, hend, hread, hadvance, hcollect], hs'⟩

theorem Walks.collect_eq (h : c.Walks s₀ rows At) (hs : At rest s) {fuel : Nat} {read : List ρ}
    (hcollect : c.collect fuel s = some (read, s')) : read = rest ∧ rest.length ≤ fuel := by
  have heq := (collect_delivers hcollect).unique (h.delivers hs)
  subst heq
  exact ⟨rfl, collect_length hcollect⟩

/-- A user only ever sees states of the walk. -/
theorem Walks.reach (h : c.Walks s₀ rows At) (hs : c.Reach s₀ s) : ∃ rest, At rest s := by
  have hahead : ∀ {s : c.State} {rest : List ρ}, At rest s → c.atEnd s = false →
      ∃ r rest', rest = r :: rest' := by
    intro s rest hat hend
    cases rest with
    | nil => simp [h.atEnd [] s hat] at hend
    | cons r rest => exact ⟨r, rest, rfl⟩
  induction hs with
  | first hstart =>
    obtain ⟨s₁, hs₁, hat⟩ := h.start s₀ (Or.inl rfl)
    cases hstart.symm.trans hs₁
    exact ⟨rows, hat⟩
  | @start s s' _ hstart ih =>
    obtain ⟨s₁, hs₁, hat⟩ := h.start s (Or.inr ih)
    cases hstart.symm.trans hs₁
    exact ⟨rows, hat⟩
  | @advance s s' _ hend hadvance ih =>
    obtain ⟨rest, hat⟩ := ih
    obtain ⟨r, rest', rfl⟩ := hahead hat hend
    obtain ⟨s₁, hs₁, hat'⟩ := h.advance r rest' s hat
    cases hadvance.symm.trans hs₁
    exact ⟨rest', hat'⟩
  | @read s s' r _ hend hread ih =>
    obtain ⟨rest, hat⟩ := ih
    obtain ⟨r', rest', rfl⟩ := hahead hat hend
    obtain ⟨s₁, hs₁, hat'⟩ := h.read r' rest' s hat
    cases hread.symm.trans hs₁
    exact ⟨_, hat'⟩

theorem Walks.repeats (h : c.Walks s₀ rows At) : c.Repeats s₀ rows := by
  constructor
  · intro s hs
    obtain ⟨s', hstart, hat⟩ := h.start s (hs.imp_right h.reach)
    exact ⟨s', hstart, h.delivers hat⟩
  · intro s hs hend
    obtain ⟨rest, hat⟩ := h.reach hs
    cases rest with
    | nil => simp [h.atEnd [] s hat] at hend
    | cons r rest =>
      obtain ⟨s₁, hread, hs₁⟩ := h.read r rest s hat
      obtain ⟨s₂, hread', -⟩ := h.read r rest s₁ hs₁
      exact ⟨r, s₁, s₂, hread, hread'⟩

end

/-- The cursor whose records go through `f`. -/
def map (f : ρ → τ) (c : Cursor ρ) : Cursor τ where
  State := c.State
  start := c.start
  advance := c.advance
  atEnd := c.atEnd
  read s := (c.read s).map fun (r, s) => (f r, s)

theorem collect_of_map {c : Cursor ρ} {f : ρ → τ} {fuel : Nat} {s s' : (c.map f).State}
    {rows : List τ} (h : (c.map f).collect fuel s = some (rows, s')) :
    ∃ read, @collect ρ c fuel s = some (read, s') := by
  induction fuel generalizing s rows with
  | zero =>
    unfold collect at h
    split at h
    next hend =>
      cases h
      exact ⟨[], if_pos hend⟩
    next => cases h
  | succ fuel ih =>
    unfold collect at h
    split at h
    next hend =>
      cases h
      exact ⟨[], if_pos hend⟩
    next hend =>
      obtain ⟨⟨r, s₁⟩, hread, h⟩ := Option.bind_eq_some_iff.mp h
      obtain ⟨s₂, hadvance, h⟩ := Option.bind_eq_some_iff.mp h
      obtain ⟨⟨rest, s₃⟩, hrest, h⟩ := Option.map_eq_some_iff.mp h
      cases h
      obtain ⟨⟨r', s₄⟩, hread, heq⟩ := Option.map_eq_some_iff.mp hread
      cases heq
      obtain ⟨read, hread'⟩ := ih hrest
      have hmoves : c.advance s₁ = some s₂ := hadvance
      refine ⟨r' :: read, (if_neg (show ¬c.atEnd s = true from hend)).trans ?_⟩
      simp only [hread, hmoves, Option.bind_some]
      exact congrArg (Option.map fun x : List ρ × c.State => (r' :: x.1, x.2)) hread'

theorem Delivers.of_map {c : Cursor ρ} {f : ρ → τ} {s : (c.map f).State} {rows : List τ}
    (h : (c.map f).Delivers s rows) :
    ∃ rows' : List ρ, @Delivers ρ c s rows' ∧ rows'.map f = rows := by
  induction h with
  | nil hend => exact ⟨[], .nil hend, rfl⟩
  | cons hend hread hadvance _ ih =>
    obtain ⟨⟨r, s'⟩, hread, heq⟩ := Option.map_eq_some_iff.mp hread
    cases heq
    obtain ⟨rest, hrest, rfl⟩ := ih
    exact ⟨r :: rest, .cons hend hread hadvance hrest, rfl⟩

theorem Walks.map {c : Cursor ρ} {s₀ : c.State} {rows : List ρ} {At : List ρ → c.State → Prop}
    (h : c.Walks s₀ rows At) (f : ρ → τ) :
    (c.map f).Walks s₀ (rows.map f) fun rest s => ∃ rest', rest'.map f = rest ∧ At rest' s := by
  constructor
  · intro s hs
    have hready : s = s₀ ∨ ∃ rest, At rest s := by
      rcases hs with rfl | ⟨_, rest', -, hat⟩
      · exact Or.inl rfl
      · exact Or.inr ⟨rest', hat⟩
    obtain ⟨s', hstart, hat⟩ := h.start s hready
    exact ⟨s', hstart, rows, rfl, hat⟩
  · rintro rest s ⟨rest', rfl, hat⟩
    rw [List.isEmpty_map]
    exact h.atEnd rest' s hat
  · rintro r rest s ⟨rest', hmap, hat⟩
    obtain ⟨r', rest', rfl, rfl, rfl⟩ := List.map_eq_cons_iff.mp hmap
    obtain ⟨s', hread, hat'⟩ := h.read r' rest' s hat
    exact ⟨s', by simp [Cursor.map, hread], r' :: rest', rfl, hat'⟩
  · rintro r rest s ⟨rest', hmap, hat⟩
    obtain ⟨r', rest', rfl, rfl, rfl⟩ := List.map_eq_cons_iff.mp hmap
    obtain ⟨s', hadvance, hat'⟩ := h.advance r' rest' s hat
    exact ⟨s', hadvance, rest', rfl, hat'⟩

end Cursor
