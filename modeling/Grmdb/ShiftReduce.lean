import Mathlib.Data.Stream.Init
import Grmdb.Derivations

namespace LR

inductive Action where
  | error
  | shift (state : Nat)
  | reduce (rule : Nat)
  deriving DecidableEq, Repr

/-- A grammar with the tables of a parser for it. -/
structure Tables (T N : Type) where
  rules : Nat → Option (ContextFreeRule T N)
  initial : N
  action : Nat → T → Action
  goto : Nat → N → Nat

/-- A shift-reduce parser over tokens `τ` with values `V` and errors `E`. The values lie in slots of
which each keeps its value until another one is put there. `make` gets the values of a right side
and what the first of their slots holds, the one the value of the node is put into. -/
structure Parser (T N τ V E : Type) extends Tables T N where
  kind : τ → T
  value : τ → V
  make : Nat → List V → V → Except E V
  syntaxError : E
  overflow : E

/-- `stack` has the states and the values with the top first; under it is the state 0. `slots` are
the slots above it. -/
structure Config (τ V : Type) where
  stack : List (Nat × V)
  slots : List V
  input : Stream' τ

variable {T N τ V E : Type}

/-- The configuration with the last `n` symbols taken from the stack. -/
def Config.pop (n : Nat) (c : Config τ V) : Config τ V :=
  ⟨c.stack.drop n, ((c.stack.take n).map Prod.snd).reverse ++ c.slots, c.input⟩

def topState (stack : List (Nat × V)) : Nat := (stack.head?.map Prod.fst).getD 0

@[simp] theorem topState_nil : topState ([] : List (Nat × V)) = 0 := rfl

@[simp] theorem topState_cons (s : Nat) (v : V) (stack : List (Nat × V)) :
    topState ((s, v) :: stack) = s := rfl

theorem bind_eq_ok {α β : Type} {x : Except E α} {f : α → Except E β} {b : β} :
    x >>= f = .ok b ↔ ∃ a, x = .ok a ∧ f a = .ok b := by
  cases x with
  | error e => simp [bind, Except.bind]
  | ok a => simp [bind, Except.bind]

theorem bind_eq_error {α β : Type} {x : Except E α} {f : α → Except E β} {e : E} :
    x >>= f = .error e ↔ x = .error e ∨ ∃ a, x = .ok a ∧ f a = .error e := by
  cases x with
  | error e' => simp [bind, Except.bind]
  | ok a => simp [bind, Except.bind]

namespace Parser

variable (p : Parser T N τ V E)

/-- The slots that are left when a value is put into the first one. The last slot is not used. -/
def above : List V → Except E (List V)
  | _ :: slot :: slots => .ok (slot :: slots)
  | _ => .error p.overflow

/-- The value of a node whose right side lies in the first slots. -/
def result (r : Nat) (slots : List V) : Except E V :=
  match p.rules r, slots with
  | some rule, slot :: _ => p.make r (slots.take rule.output.length) slot
  | _, _ => .error p.overflow

/-- The slots after the trees have been gone through from left to right. -/
def eval : Forest τ → List V → Except E (List V)
  | .nil, slots => .ok slots
  | .leaf token rest, slots => do
    let more ← p.above slots
    let values ← eval rest more
    return p.value token :: values
  | .node r children rest, slots => do
    let done ← eval children slots
    let v ← p.result r done
    let more ← p.above done
    let values ← eval rest more
    return v :: values

def push (s : Nat) (v : V) (c : Config τ V) : Config τ V ⊕ Except E V :=
  match p.above c.slots with
  | .ok slots => .inl ⟨(s, v) :: c.stack, slots, c.input⟩
  | .error e => .inr (.error e)

variable {p} {c c' c'' : Config τ V} {res res' : Except E V}

theorem push_eq_inl {s : Nat} {v : V} (h : p.push s v c = .inl c') :
    ∃ slots, p.above c.slots = .ok slots ∧ c' = ⟨(s, v) :: c.stack, slots, c.input⟩ := by
  rw [push] at h
  split at h
  next slots habove => exact ⟨slots, habove, (Sum.inl.inj h).symm⟩
  next e habove => cases h

variable (p) [DecidableEq N]

/-- One step, to the next configuration or to the result. -/
def step (c : Config τ V) : Config τ V ⊕ Except E V :=
  match p.action (topState c.stack) (p.kind c.input.head) with
  | .error => .inr (.error p.syntaxError)
  | .shift s => p.push s (p.value c.input.head) { c with input := c.input.tail }
  | .reduce r =>
    match p.rules r with
    | none => .inr (.error p.syntaxError)
    | some rule =>
      let below := c.pop rule.output.length
      match p.result r below.slots with
      | .error e => .inr (.error e)
      | .ok v =>
        if rule.input = p.initial then .inr (.ok v)
        else p.push (p.goto (topState below.stack) rule.input) v below

def Next (c c' : Config τ V) : Prop := p.step c = .inl c'

def Steps : Config τ V → Config τ V → Prop := Relation.ReflTransGen p.Next

/-- The parser ends with this result. -/
def Ends (c : Config τ V) (res : Except E V) : Prop := ∃ c', p.Steps c c' ∧ p.step c' = .inr res

/-- The steps of the parser, at most `fuel` of them. -/
def run : Nat → Config τ V → Option (Except E V)
  | 0, _ => none
  | fuel + 1, c =>
    match p.step c with
    | .inl c' => run fuel c'
    | .inr res => some res

variable {p}

/-- A step shifts the next token or reduces a rule other than those of the initial symbol. -/
theorem step_cases (h : p.step c = .inl c') :
    (∃ s slots, p.action (topState c.stack) (p.kind c.input.head) = .shift s ∧
      p.above c.slots = .ok slots ∧
      c' = ⟨(s, p.value c.input.head) :: c.stack, slots, c.input.tail⟩) ∨
    ∃ r rule v slots, p.action (topState c.stack) (p.kind c.input.head) = .reduce r ∧
      p.rules r = some rule ∧ rule.input ≠ p.initial ∧
      p.result r (c.pop rule.output.length).slots = .ok v ∧
      p.above (c.pop rule.output.length).slots = .ok slots ∧
      c' = ⟨(p.goto (topState (c.stack.drop rule.output.length)) rule.input, v) ::
        c.stack.drop rule.output.length, slots, c.input⟩ := by
  rw [step] at h
  split at h
  next haction => cases h
  next s haction =>
    obtain ⟨slots, habove, rfl⟩ := push_eq_inl h
    exact Or.inl ⟨s, slots, haction, habove, rfl⟩
  next r haction =>
    split at h
    next hrule => cases h
    next rule hrule =>
      dsimp only at h
      split at h
      next e hresult => cases h
      next v hresult =>
        split at h
        next hinitial => cases h
        next hinitial =>
          obtain ⟨slots, habove, rfl⟩ := push_eq_inl h
          exact Or.inr ⟨r, rule, v, slots, haction, hrule, hinitial, hresult, habove, rfl⟩

/-- A value is the result of a rule of the initial symbol. -/
theorem step_accept {v : V} (h : p.step c = .inr (.ok v)) :
    ∃ r rule, p.action (topState c.stack) (p.kind c.input.head) = .reduce r ∧
      p.rules r = some rule ∧ rule.input = p.initial ∧
      p.result r (c.pop rule.output.length).slots = .ok v := by
  have hpush : ∀ {s : Nat} {w : V} {c : Config τ V}, p.push s w c ≠ .inr (.ok v) := by
    intro s w c hpush
    rw [push] at hpush
    split at hpush
    · cases hpush
    · cases hpush
  rw [step] at h
  split at h
  next haction => cases h
  next s haction => exact absurd h hpush
  next r haction =>
    split at h
    next hrule => cases h
    next rule hrule =>
      dsimp only at h
      split at h
      next e hresult => cases h
      next w hresult =>
        split at h
        next hinitial =>
          cases h
          exact ⟨r, rule, haction, hrule, hinitial, hresult⟩
        next hinitial => exact absurd h hpush

theorem step_shift {s : Nat} {slots : List V}
    (haction : p.action (topState c.stack) (p.kind c.input.head) = .shift s)
    (habove : p.above c.slots = .ok slots) :
    p.step c = .inl ⟨(s, p.value c.input.head) :: c.stack, slots, c.input.tail⟩ := by
  simp only [step, haction, push, habove]

theorem step_reduce {r : Nat} {rule : ContextFreeRule T N} {v : V} {slots : List V}
    {below : Config τ V} (hpop : c.pop rule.output.length = below)
    (haction : p.action (topState c.stack) (p.kind c.input.head) = .reduce r)
    (hrule : p.rules r = some rule) (hinitial : rule.input ≠ p.initial)
    (hresult : p.result r below.slots = .ok v) (habove : p.above below.slots = .ok slots) :
    p.step c = .inl ⟨(p.goto (topState below.stack) rule.input, v) :: below.stack, slots,
      below.input⟩ := by
  simp only [step, haction, hrule, hpop, hresult, if_neg hinitial, push, habove]

theorem step_shift_error {s : Nat} {e : E}
    (haction : p.action (topState c.stack) (p.kind c.input.head) = .shift s)
    (habove : p.above c.slots = .error e) : p.step c = .inr (.error e) := by
  simp only [step, haction, push, habove]

theorem step_reduce_error {r : Nat} {rule : ContextFreeRule T N} {e : E} {below : Config τ V}
    (hpop : c.pop rule.output.length = below)
    (haction : p.action (topState c.stack) (p.kind c.input.head) = .reduce r)
    (hrule : p.rules r = some rule) (hinitial : rule.input ≠ p.initial)
    (h : (p.result r below.slots >>= fun _ => p.above below.slots) = .error e) :
    p.step c = .inr (.error e) := by
  rcases bind_eq_error.mp h with hresult | ⟨v, hresult, habove⟩
  · simp only [step, haction, hrule, hpop, hresult]
  · simp only [step, haction, hrule, hpop, hresult, if_neg hinitial, push, habove]

theorem Ends.of_next (hstep : p.step c = .inl c') (h : p.Ends c' res) : p.Ends c res := by
  obtain ⟨last, hsteps, hlast⟩ := h
  exact ⟨last, .head hstep hsteps, hlast⟩

theorem Ends.of_steps (hsteps : p.Steps c c') (h : p.Ends c' res) : p.Ends c res := by
  obtain ⟨last, hsteps', hlast⟩ := h
  exact ⟨last, hsteps.trans hsteps', hlast⟩

/-- What comes after a step does not depend on how far the run has come. -/
theorem Ends.after (hsteps : p.Steps c c') (h : p.Ends c res) : p.Ends c' res := by
  induction hsteps using Relation.ReflTransGen.head_induction_on with
  | refl => exact h
  | @head first second hstep _ ih =>
    obtain ⟨last, hlasts, hlast⟩ := h
    refine ih ?_
    have hfirst : p.step first = .inl second := hstep
    rcases Relation.ReflTransGen.cases_head hlasts with rfl | ⟨next, hnext, hrest⟩
    · rw [hfirst] at hlast
      cases hlast
    · rw [Next, hfirst] at hnext
      cases hnext
      exact ⟨last, hrest, hlast⟩

theorem Ends.unique (h : p.Ends c res) (h' : p.Ends c res') : res = res' := by
  obtain ⟨last, hsteps, hlast⟩ := h
  obtain ⟨last', hsteps', hlast'⟩ := h'.after hsteps
  rcases Relation.ReflTransGen.cases_head hsteps' with rfl | ⟨next, hnext, -⟩
  · rw [hlast] at hlast'
    exact Sum.inr.inj hlast'
  · rw [Next, hlast] at hnext
    cases hnext

/-- A run ends with a result exactly when enough fuel gives it. -/
theorem ends_iff_run : p.Ends c res ↔ ∃ fuel, p.run fuel c = some res := by
  constructor
  · rintro ⟨last, hsteps, hlast⟩
    induction hsteps using Relation.ReflTransGen.head_induction_on with
    | refl =>
      refine ⟨1, ?_⟩
      rw [run, hlast]
    | head hstep _ ih =>
      obtain ⟨fuel, hfuel⟩ := ih
      refine ⟨fuel + 1, ?_⟩
      rw [run, show p.step _ = .inl _ from hstep]
      exact hfuel
  · rintro ⟨fuel, h⟩
    induction fuel generalizing c with
    | zero => cases h
    | succ fuel ih =>
      rw [run] at h
      split at h
      next c' hstep => exact .of_next hstep (ih h)
      next res' hstep =>
        cases h
        exact ⟨c, .refl, hstep⟩

end Parser

end LR
