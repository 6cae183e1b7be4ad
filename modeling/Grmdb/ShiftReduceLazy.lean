import Grmdb.ShiftReduce

namespace LR

/-- A configuration of a parser that asks a scanner in the state `scanner` for its tokens. `pending`
is the token that has been looked at and not been shifted. -/
structure LazyConfig (τ V σ : Type) where
  stack : List (Nat × V)
  slots : List V
  pending : Option τ
  scanner : σ

variable {T N τ V E σ : Type}

def LazyConfig.pop (n : Nat) (c : LazyConfig τ V σ) : LazyConfig τ V σ :=
  ⟨c.stack.drop n, ((c.stack.take n).map Prod.snd).reverse ++ c.slots, c.pending, c.scanner⟩

/-- The configuration after the pending token. -/
def LazyConfig.shifted (c : LazyConfig τ V σ) : LazyConfig τ V σ :=
  ⟨c.stack, c.slots, none, c.scanner⟩

namespace Parser

variable (p : Parser T N τ V E) (looks : Nat → Bool) (scan : σ → τ × σ)

def peek (c : LazyConfig τ V σ) : τ := c.pending.getD (scan c.scanner).1

/-- The configuration in which the next token has been looked at. -/
def look (c : LazyConfig τ V σ) : LazyConfig τ V σ :=
  match c.pending with
  | some _ => c
  | none => { c with pending := some (scan c.scanner).1, scanner := (scan c.scanner).2 }

def lazyPush (s : Nat) (v : V) (c : LazyConfig τ V σ) :
    LazyConfig τ V σ ⊕ Except E V × σ :=
  match p.above c.slots with
  | .ok slots => .inl ⟨(s, v) :: c.stack, slots, c.pending, c.scanner⟩
  | .error e => .inr (.error e, c.scanner)

/-- One step of the parser that asks for a token in the states of `looks` only. A result comes with
the state that the scanner is left in. -/
def lazyStep [DecidableEq N] (c : LazyConfig τ V σ) : LazyConfig τ V σ ⊕ Except E V × σ :=
  let looked := if looks (topState c.stack) then look scan c else c
  match p.action (topState c.stack) (p.kind (peek scan c)) with
  | .error => .inr (.error p.syntaxError, looked.scanner)
  | .shift s => p.lazyPush s (p.value (peek scan c)) looked.shifted
  | .reduce r =>
    match p.rules r with
    | none => .inr (.error p.syntaxError, looked.scanner)
    | some rule =>
      let below := looked.pop rule.output.length
      match p.result r below.slots with
      | .error e => .inr (.error e, looked.scanner)
      | .ok v =>
        if rule.input = p.initial then .inr (.ok v, looked.scanner)
        else p.lazyPush (p.goto (topState below.stack) rule.input) v below

def lazyRun [DecidableEq N] : Nat → LazyConfig τ V σ → Option (Except E V × σ)
  | 0, _ => none
  | fuel + 1, c =>
    match p.lazyStep looks scan c with
    | .inl c' => lazyRun fuel c'
    | .inr res => some res

/-- The tokens that are still to come. -/
def upcoming (c : LazyConfig τ V σ) : Stream' τ :=
  match c.pending with
  | some token => Stream'.cons token (Stream'.corec' scan c.scanner)
  | none => Stream'.corec' scan c.scanner

def view (c : LazyConfig τ V σ) : Config τ V := ⟨c.stack, c.slots, upcoming scan c⟩

variable {p looks scan} {c c' : LazyConfig τ V σ} {res : Except E V × σ}

theorem upcoming_head (c : LazyConfig τ V σ) : (upcoming scan c).head = peek scan c := by
  unfold upcoming peek
  cases c.pending with
  | none => rfl
  | some token => rfl

theorem upcoming_look (c : LazyConfig τ V σ) : upcoming scan (look scan c) = upcoming scan c := by
  unfold look upcoming
  cases hpending : c.pending with
  | none => exact (Stream'.corec'_eq scan c.scanner).symm
  | some token => simp only [hpending]

theorem view_shifted (c : LazyConfig τ V σ) :
    view scan (look scan c).shifted = ⟨c.stack, c.slots, (upcoming scan c).tail⟩ := by
  unfold look upcoming
  cases c.pending with
  | none => rw [Stream'.corec'_eq scan c.scanner, Stream'.tail_cons]; rfl
  | some token => rfl

theorem lazyPush_view (s : Nat) (v : V) (c : LazyConfig τ V σ) :
    (p.lazyPush s v c).map (view scan) Prod.fst = p.push s v (view scan c) := by
  unfold lazyPush push view
  dsimp only
  cases p.above c.slots with
  | ok slots => rfl
  | error e => rfl

/-- The configuration that a step goes on with: it has looked at the next token or it has not. -/
theorem view_looked (scan : σ → τ × σ) (b : Bool) (c : LazyConfig τ V σ) :
    view scan (if b then look scan c else c) = view scan c := by
  cases b with
  | false => rfl
  | true =>
    rw [if_pos rfl, view, view, upcoming_look]
    unfold look
    split <;> rfl

/-- The parser that asks for tokens takes the steps of the one that has them all. -/
theorem lazyStep_view [DecidableEq N]
    (hshift : ∀ s t s', p.action s t = .shift s' → looks s = true) (c : LazyConfig τ V σ) :
    (p.lazyStep looks scan c).map (view scan) Prod.fst = p.step (view scan c) := by
  have hlooked := view_looked scan (looks (topState c.stack)) c
  have haction : p.action (topState (view scan c).stack) (p.kind (view scan c).input.head) =
      p.action (topState c.stack) (p.kind (peek scan c)) := by
    rw [show (view scan c).input.head = peek scan c from upcoming_head c]
    rfl
  unfold lazyStep step
  rw [haction]
  cases hcase : p.action (topState c.stack) (p.kind (peek scan c)) with
  | error => rfl
  | shift s =>
    dsimp only
    rw [lazyPush_view, hshift _ _ _ hcase, if_pos rfl, view_shifted]
    exact congrArg (fun token => p.push s (p.value token) _) (upcoming_head c).symm
  | reduce r =>
    dsimp only
    cases p.rules r with
    | none => rfl
    | some rule =>
      dsimp only
      rw [← hlooked]
      generalize (if looks (topState c.stack) then look scan c else c) = looked
      have hslots : ((view scan looked).pop rule.output.length).slots =
          (looked.pop rule.output.length).slots := rfl
      rw [hslots]
      cases p.result r (looked.pop rule.output.length).slots with
      | error e => rfl
      | ok v =>
        dsimp only
        split
        next => rfl
        next => exact lazyPush_view _ v _

theorem lazyRun_view [DecidableEq N]
    (hshift : ∀ s t s', p.action s t = .shift s' → looks s = true) (fuel : Nat)
    (c : LazyConfig τ V σ) :
    (p.lazyRun looks scan fuel c).map Prod.fst = p.run fuel (view scan c) := by
  induction fuel generalizing c with
  | zero => rfl
  | succ fuel ih =>
    have hstep := @lazyStep_view _ _ _ _ _ _ p looks scan _ hshift c
    unfold lazyRun run
    rw [← hstep]
    cases p.lazyStep looks scan c with
    | inl c' => exact ih c'
    | inr res => rfl

end Parser

end LR
