import Grmdb.ShiftReduce

namespace LR

/-- A rule of which a state has read the part before `dot`. When the rule is complete one of the
terminals of `looks`, a set of bits, comes next. -/
structure Item where
  rule : Nat
  dot : Nat
  looks : Nat
  deriving DecidableEq, Repr

namespace Tables

variable {T N : Type} (p : Tables T N) (items : Nat → List Item)

/-- The rules that have been begun in the state after `symbol` were there before it. -/
def Linked (s : Nat) (symbol : Symbol T N) (s' : Nat) : Prop :=
  s' ≠ 0 ∧ ∀ item ∈ items s', ∀ k, item.dot = k + 1 →
    (∃ rule, p.rules item.rule = some rule ∧ rule.output[k]? = some symbol) ∧
      ∃ prev ∈ items s, prev.rule = item.rule ∧ prev.dot = k

/-- The tables reduce only what has been read. -/
structure Sound : Prop where
  start : ∀ item ∈ items 0, item.dot = 0
  shift : ∀ s t s', p.action s t = .shift s' → p.Linked items s (.terminal t) s'
  reduce : ∀ s t r rule, p.action s t = .reduce r → p.rules r = some rule →
    ∃ item ∈ items s, item.rule = r ∧ item.dot = rule.output.length
  goto : ∀ s, ∀ item ∈ items s, ∀ rule, item.dot = 0 → p.rules item.rule = some rule →
    rule.input ≠ p.initial → p.Linked items s (.nonterminal rule.input) (p.goto s rule.input)
  initial : ∀ s, ∀ item ∈ items s, ∀ rule, item.dot = 0 → p.rules item.rule = some rule →
    rule.input = p.initial → s = 0

section Check

variable [DecidableEq T] [DecidableEq N]

def checkLinked (s : Nat) (symbol : Symbol T N) (s' : Nat) : Bool :=
  s' != 0 && (items s').all fun item => item.dot == 0 ||
    (((p.rules item.rule).bind fun rule => rule.output[item.dot - 1]?) == some symbol &&
      (items s).any fun prev => prev.rule == item.rule && prev.dot + 1 == item.dot)

def checkAction (s : Nat) (t : T) : Bool :=
  match p.action s t with
  | .error => true
  | .shift s' => checkLinked p items s (.terminal t) s'
  | .reduce r => (p.rules r).all fun rule =>
      (items s).any fun item => item.rule == r && item.dot == rule.output.length

def checkFirst (s : Nat) (item : Item) : Bool :=
  item.dot != 0 || (p.rules item.rule).all fun rule =>
    if rule.input = p.initial then s == 0
    else checkLinked p items s (.nonterminal rule.input) (p.goto s rule.input)

/-- `Sound` for tables whose states are `states`. -/
def checkSound (states : List Nat) (terminals : List T) : Bool :=
  (items 0).all (fun item => item.dot == 0) && states.all fun s =>
    terminals.all (checkAction p items s) && (items s).all (checkFirst p items s)

variable {p items} {states : List Nat} {terminals : List T} {s s' : Nat} {symbol : Symbol T N}

theorem linked_of_check (h : checkLinked p items s symbol s' = true) :
    p.Linked items s symbol s' := by
  rw [checkLinked, Bool.and_eq_true, bne_iff_ne, List.all_eq_true] at h
  refine ⟨h.1, fun item hitem k hdot => ?_⟩
  have hcheck := h.2 item hitem
  rw [Bool.or_eq_true, Bool.and_eq_true, beq_iff_eq, beq_iff_eq, List.any_eq_true, hdot] at hcheck
  obtain ⟨hsymbol, prev, hprev, hsame⟩ := hcheck.resolve_left (Nat.succ_ne_zero k)
  rw [Bool.and_eq_true, beq_iff_eq, beq_iff_eq] at hsame
  obtain ⟨rule, hrule, hget⟩ := Option.bind_eq_some_iff.mp hsymbol
  exact ⟨⟨rule, hrule, hget⟩, prev, hprev, hsame.1, Nat.succ.inj hsame.2⟩

theorem Sound.of_check (hstates : ∀ s, s ∉ states → items s = [] ∧ ∀ t, p.action s t = .error)
    (hterminals : ∀ t, t ∈ terminals) (h : checkSound p items states terminals = true) :
    p.Sound items := by
  rw [checkSound, Bool.and_eq_true, List.all_eq_true, List.all_eq_true] at h
  obtain ⟨hstart, hall⟩ := h
  have hactions : ∀ s t, checkAction p items s t = true := by
    intro s t
    by_cases hs : s ∈ states
    · exact List.all_eq_true.mp (Bool.and_eq_true_iff.mp (hall s hs)).1 t (hterminals t)
    · rw [checkAction, (hstates s hs).2 t]
  have hfirsts : ∀ s, ∀ item ∈ items s, item.dot = 0 → ∀ rule, p.rules item.rule = some rule →
      (if rule.input = p.initial then s == 0
        else checkLinked p items s (.nonterminal rule.input) (p.goto s rule.input)) = true := by
    intro s item hitem hdot rule hrule
    have hs : s ∈ states := by
      by_contra hs
      rw [(hstates s hs).1] at hitem
      cases hitem
    have hcheck := List.all_eq_true.mp (Bool.and_eq_true_iff.mp (hall s hs)).2 item hitem
    rw [checkFirst, hdot, hrule] at hcheck
    exact hcheck
  refine ⟨fun item hitem => beq_iff_eq.mp (hstart item hitem), ?_, ?_, ?_, ?_⟩
  · intro s t s' haction
    have hcheck := hactions s t
    rw [checkAction, haction] at hcheck
    exact linked_of_check hcheck
  · intro s t r rule haction hrule
    have hcheck := hactions s t
    rw [checkAction, haction] at hcheck
    simp only [hrule, Option.all_some, List.any_eq_true, Bool.and_eq_true, beq_iff_eq] at hcheck
    exact hcheck
  · intro s item hitem rule hdot hrule hinitial
    have hcheck := hfirsts s item hitem hdot rule hrule
    rw [if_neg hinitial] at hcheck
    exact linked_of_check hcheck
  · intro s item hitem rule hdot hrule hinitial
    have hcheck := hfirsts s item hitem hdot rule hrule
    rw [if_pos hinitial] at hcheck
    exact beq_iff_eq.mp hcheck

end Check

end Tables

namespace Parser

variable {T N τ V E : Type}

/-- The stack with its symbols and the tokens that have been read: each value has been made by a
token or by a tree. -/
inductive Built (p : Parser T N τ V E) (items : Nat → List Item) (slots₀ : List V) :
    List (Nat × V) → List V → List (Symbol T N) → List τ → Prop where
  | empty : Built p items slots₀ [] slots₀ [] []
  | token {stack : List (Nat × V)} {slots slots' : List V} {symbols : List (Symbol T N)}
      {word : List τ} {s : Nat} (t : τ) :
      Built p items slots₀ stack slots symbols word → p.above slots = .ok slots' →
      p.toTables.Linked items (topState stack) (.terminal (p.kind t)) s →
      Built p items slots₀ ((s, p.value t) :: stack) slots' (.terminal (p.kind t) :: symbols)
        (word ++ [t])
  | rule {stack : List (Nat × V)} {slots slots' done : List V} {symbols : List (Symbol T N)}
      {word : List τ} {s r : Nat} {rule : ContextFreeRule T N} {children : Forest τ} {v : V} :
      Built p items slots₀ stack slots symbols word → p.rules r = some rule →
      children.Derives p.rules p.kind rule.output → p.eval children slots = .ok done →
      p.result r done = .ok v → p.above done = .ok slots' →
      p.toTables.Linked items (topState stack) (.nonterminal rule.input) s →
      Built p items slots₀ ((s, v) :: stack) slots' (.nonterminal rule.input :: symbols)
        (word ++ children.word)

variable {p : Parser T N τ V E} {items : Nat → List Item} {slots₀ slots done values : List V}
  {stack : List (Nat × V)}
  {symbols symbols' : List (Symbol T N)} {word : List τ} {r n : Nat} {rule : ContextFreeRule T N}

/-- The last values of the stack are those of trees that are gone through one after the other. -/
theorem Built.pop (h : p.Built items slots₀ stack slots symbols word) (hn : n ≤ stack.length)
    {rest : Forest τ} (hrest : rest.Derives p.rules p.kind symbols')
    (heval : p.eval rest slots = .ok values) :
    ∃ (word' : List τ) (slots' : List V) (front : Forest τ),
      p.Built items slots₀ (stack.drop n) slots' (symbols.drop n) word' ∧
      front.Derives p.rules p.kind ((symbols.take n).reverse ++ symbols') ∧
      p.eval front slots' = .ok (((stack.take n).map Prod.snd).reverse ++ values) ∧
      word ++ rest.word = word' ++ front.word := by
  induction n generalizing stack slots symbols word rest symbols' values with
  | zero =>
    exact ⟨word, slots, rest, by simpa using h, by simpa using hrest, by simpa using heval, rfl⟩
  | succ n ih =>
    cases h with
    | empty => exact absurd hn (Nat.not_succ_le_zero n)
    | @token stack slots' _ symbols word s t hbuilt habove hlinked =>
      have heval' : p.eval (.leaf t rest) slots' = .ok (p.value t :: values) := by
        simp only [eval, habove, heval, bind, Except.bind, pure, Except.pure]
      obtain ⟨word', below, front, hbelow, hfront, hfrontEval, hword⟩ :=
        ih hbuilt (Nat.le_of_succ_le_succ hn) (.leaf hrest) heval'
      refine ⟨word', below, front, by simpa using hbelow, by simpa using hfront, ?_, ?_⟩
      · simpa using hfrontEval
      · rw [← hword, Forest.word, List.append_assoc, List.singleton_append]
    | @rule stack slots' _ done symbols word s r rule children v hbuilt hrule hchildren hdone
        hresult habove hlinked =>
      have heval' : p.eval (.node r children rest) slots' = .ok (v :: values) := by
        simp only [eval, hdone, hresult, habove, heval, bind, Except.bind, pure, Except.pure]
      obtain ⟨word', below, front, hbelow, hfront, hfrontEval, hword⟩ :=
        ih hbuilt (Nat.le_of_succ_le_succ hn) (.node hrule hchildren hrest) heval'
      refine ⟨word', below, front, by simpa using hbelow, by simpa using hfront, ?_, ?_⟩
      · simpa using hfrontEval
      · rw [← hword, Forest.word, List.append_assoc]

/-- What an item of the top state has read are the last symbols of the stack. -/
theorem Built.read (hsound : p.toTables.Sound items)
    (h : p.Built items slots₀ stack slots symbols word)
    {item : Item} (hitem : item ∈ items (topState stack)) (hrule : p.rules item.rule = some rule) :
    item.dot ≤ stack.length ∧ (symbols.take item.dot).reverse = rule.output.take item.dot ∧
      ∃ first ∈ items (topState (stack.drop item.dot)), first.rule = item.rule ∧ first.dot = 0 := by
  have hlink : ∀ {stack : List (Nat × V)} {symbols : List (Symbol T N)} {s : Nat} {v : V}
      {symbol : Symbol T N} {item : Item}, item ∈ items s → p.rules item.rule = some rule →
      p.toTables.Linked items (topState stack) symbol s →
      (∀ {prev : Item}, prev ∈ items (topState stack) → p.rules prev.rule = some rule →
        prev.dot ≤ stack.length ∧ (symbols.take prev.dot).reverse = rule.output.take prev.dot ∧
        ∃ first ∈ items (topState (stack.drop prev.dot)),
          first.rule = prev.rule ∧ first.dot = 0) →
      item.dot ≤ ((s, v) :: stack).length ∧
        ((symbol :: symbols).take item.dot).reverse = rule.output.take item.dot ∧
        ∃ first ∈ items (topState (((s, v) :: stack).drop item.dot)),
          first.rule = item.rule ∧ first.dot = 0 := by
    intro stack symbols s v symbol item hitem hrule hlinked ih
    cases hdot : item.dot with
    | zero => exact ⟨Nat.zero_le _, by simp, item, by simpa using hitem, rfl, hdot⟩
    | succ k =>
      obtain ⟨⟨rule', hrule', hsymbol⟩, prev, hprev, hsame, rfl⟩ :=
        hlinked.2 item hitem k hdot
      rw [hrule] at hrule'
      cases hrule'
      obtain ⟨hle, htake, first, hfirst, hfirstRule, hfirstDot⟩ := ih hprev (hsame ▸ hrule)
      refine ⟨Nat.succ_le_succ hle, ?_, first, by simpa using hfirst, hfirstRule.trans hsame,
        hfirstDot⟩
      rw [List.take_succ_cons, List.reverse_cons, htake, List.take_add_one, hsymbol]
      rfl
  induction h generalizing item with
  | empty =>
    have hdot := hsound.start item hitem
    rw [hdot]
    exact ⟨Nat.zero_le _, by simp, item, by simpa using hitem, rfl, hdot⟩
  | token t hbuilt habove hlinked ih => exact hlink hitem hrule hlinked ih
  | rule hbuilt hrule' hchildren hdone hresult habove hlinked ih =>
    exact hlink hitem hrule hlinked ih

/-- A rule that is reduced has its right side on the stack. -/
theorem Built.handle (hsound : p.toTables.Sound items)
    (h : p.Built items slots₀ stack slots symbols word)
    {t : T} (haction : p.action (topState stack) t = .reduce r) (hrule : p.rules r = some rule) :
    ∃ (word' : List τ) (slots' : List V) (children : Forest τ),
      p.Built items slots₀ (stack.drop rule.output.length) slots'
        (symbols.drop rule.output.length) word' ∧
      (symbols.take rule.output.length).reverse = rule.output ∧
      children.Derives p.rules p.kind rule.output ∧
      p.eval children slots' =
        .ok (((stack.take rule.output.length).map Prod.snd).reverse ++ slots) ∧
      word = word' ++ children.word ∧
      ∃ first ∈ items (topState (stack.drop rule.output.length)), first.rule = r ∧
        first.dot = 0 := by
  obtain ⟨item, hitem, rfl, hdot⟩ := hsound.reduce _ _ _ _ haction hrule
  obtain ⟨hle, htake, first, hfirst⟩ := h.read hsound hitem hrule
  rw [hdot] at hle htake hfirst
  rw [List.take_length] at htake
  obtain ⟨word', slots', children, hbelow, hchildren, heval, hword⟩ :=
    h.pop hle (.nil : (.nil : Forest τ).Derives p.rules p.kind []) rfl
  rw [List.append_nil, htake] at hchildren
  rw [Forest.word, List.append_nil] at hword
  exact ⟨word', slots', children, hbelow, htake, hchildren, heval, hword, first, hfirst⟩

theorem Built.eq_nil (h : p.Built items slots₀ stack slots symbols word)
    (htop : topState stack = 0) : stack = [] ∧ slots = slots₀ ∧ word = [] := by
  cases h with
  | empty => exact ⟨rfl, rfl, rfl⟩
  | token t hbuilt habove hlinked => exact absurd htop hlinked.1
  | rule hbuilt hrule hchildren hdone hresult habove hlinked => exact absurd htop hlinked.1

variable {c c' : Config τ V} {input : Stream' τ} {res : Except E V} {v : V}

/-- The parser is in a configuration that it reaches from the start. -/
def Reached (p : Parser T N τ V E) (items : Nat → List Item) (slots₀ : List V)
    (input : Stream' τ) (c : Config τ V) : Prop :=
  ∃ symbols word, p.Built items slots₀ c.stack c.slots symbols word ∧ word ++ₛ c.input = input

theorem reached_start : p.Reached items slots₀ input ⟨[], slots₀, input⟩ :=
  ⟨[], [], .empty, rfl⟩

variable [DecidableEq N]

theorem Reached.next (hsound : p.toTables.Sound items) (h : p.Reached items slots₀ input c)
    (hstep : p.step c = .inl c') : p.Reached items slots₀ input c' := by
  obtain ⟨symbols, word, hbuilt, hinput⟩ := h
  rcases step_cases hstep with ⟨s, slots', haction, habove, rfl⟩ |
    ⟨r, rule, v, slots', haction, hrule, hinitial, hresult, habove, rfl⟩
  · refine ⟨_, _, .token c.input.head hbuilt habove (hsound.shift _ _ _ haction), ?_⟩
    rw [Stream'.append_append_stream, ← hinput]
    exact congrArg (word ++ₛ ·) (Stream'.eta c.input)
  · obtain ⟨word', below, children, hbelow, -, hchildren, heval, rfl, first, hfirst, rfl, hdot⟩ :=
      hbuilt.handle hsound haction hrule
    exact ⟨_, _, .rule hbelow hrule hchildren heval hresult habove
      (hsound.goto _ first hfirst rule hdot hrule hinitial), hinput⟩

theorem Reached.steps (hsound : p.toTables.Sound items) (h : p.Reached items slots₀ input c)
    (hsteps : p.Steps c c') : p.Reached items slots₀ input c' := by
  induction hsteps with
  | refl => exact h
  | tail _ hstep ih => exact ih.next hsound hstep

/-- What the parser accepts begins with the tokens of a tree of the initial symbol, and the result
is the value of this tree. -/
theorem Sound.accepted (hsound : p.toTables.Sound items) (h : p.Ends ⟨[], slots₀, input⟩ (.ok v)) :
    ∃ (r : Nat) (rule : ContextFreeRule T N) (children : Forest τ) (rest : Stream' τ),
      p.rules r = some rule ∧ rule.input = p.initial ∧
      children.Derives p.rules p.kind rule.output ∧ children.word ++ₛ rest = input ∧
      (p.eval children slots₀ >>= p.result r) = .ok v := by
  obtain ⟨last, hsteps, hlast⟩ := h
  obtain ⟨symbols, word, hbuilt, hinput⟩ := reached_start.steps hsound hsteps
  obtain ⟨r, rule, haction, hrule, hinitial, hresult⟩ := step_accept hlast
  obtain ⟨word', below, children, hbelow, -, hchildren, heval, rfl, first, hfirst, rfl, hdot⟩ :=
    hbuilt.handle hsound haction hrule
  obtain ⟨-, rfl, rfl⟩ := hbelow.eq_nil (hsound.initial _ first hfirst rule hdot hrule hinitial)
  exact ⟨first.rule, rule, children, last.input, hrule, hinitial, hchildren, hinput,
    bind_eq_ok.mpr ⟨_, heval, hresult⟩⟩

end Parser

end LR
