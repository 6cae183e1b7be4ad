import Grmdb.ShiftReduceSound

namespace LR

/-- The terminals a nonterminal can begin with, as bits, and whether it can be empty. -/
structure Firsts (N : Type) where
  first : N → Nat
  nullable : N → Bool

variable {T N τ V E : Type}

section Bits

/-- A set of bits is part of another one. -/
def Within (a b : Nat) : Prop := a &&& b = a

instance (a b : Nat) : Decidable (Within a b) := inferInstanceAs (Decidable (_ = _))

theorem Within.testBit {a b i : Nat} (h : Within a b) (hi : a.testBit i = true) :
    b.testBit i = true := by
  rw [← h, Nat.testBit_and, Bool.and_eq_true] at hi
  exact hi.2

theorem Within.refl (a : Nat) : Within a a := Nat.and_self a

theorem Within.trans {a b c : Nat} (h : Within a b) (h' : Within b c) : Within a c := by
  rw [Within, ← h, Nat.and_assoc, h', h]

end Bits

variable (code : T → Nat) (firsts : Firsts N)

/-- The terminals that the symbols can begin with when `looks` can come after them. -/
def firstOf : List (Symbol T N) → Nat → Nat
  | [], looks => looks
  | .terminal t :: _, _ => 2 ^ code t
  | .nonterminal A :: rest, looks =>
    firsts.first A ||| if firsts.nullable A then firstOf rest looks else 0

def isNullable : Symbol T N → Bool
  | .terminal _ => false
  | .nonterminal A => firsts.nullable A

theorem firstOf_split (symbols : List (Symbol T N)) (looks i : Nat)
    (h : (firstOf code firsts symbols looks).testBit i = true) :
    (firstOf code firsts symbols 0).testBit i = true ∨
      symbols.all (isNullable firsts) = true ∧ looks.testBit i = true := by
  induction symbols with
  | nil => exact Or.inr ⟨rfl, h⟩
  | cons symbol symbols ih =>
    cases symbol with
    | terminal t => exact Or.inl h
    | nonterminal A =>
      rw [firstOf, Nat.testBit_or, Bool.or_eq_true] at h
      rw [firstOf, Nat.testBit_or, Bool.or_eq_true]
      cases hnull : firsts.nullable A with
      | false =>
        rw [hnull] at h
        exact Or.inl h
      | true =>
        rw [hnull, if_pos rfl] at h
        rw [if_pos rfl]
        rcases h with h | h
        · exact Or.inl (Or.inl h)
        · rcases ih h with h | ⟨hall, h⟩
          · exact Or.inl (Or.inr h)
          · exact Or.inr ⟨by rw [List.all_cons, isNullable, hnull, hall]; rfl, h⟩

namespace Tables

variable (p : Tables T N) (items : Nat → List Item)

/-- A state holds the item with one more symbol read. -/
def Advanced (item : Item) (s : Nat) : Prop :=
  ∃ next ∈ items s, next.rule = item.rule ∧ next.dot = item.dot + 1 ∧ Within item.looks next.looks

/-- The tables go on with every rule that has been begun, and reduce it when it is complete and one
of its terminals comes next. -/
structure Complete : Prop where
  first : ∀ r rule, p.rules r = some rule →
    Within (firstOf code firsts rule.output 0) (firsts.first rule.input)
  nullable : ∀ r rule, p.rules r = some rule → rule.output.all (isNullable firsts) = true →
    firsts.nullable rule.input = true
  shift : ∀ s, ∀ item ∈ items s, ∀ rule t, p.rules item.rule = some rule →
    rule.output[item.dot]? = some (.terminal t) →
    ∃ s', p.action s t = .shift s' ∧ Advanced items item s'
  goto : ∀ s, ∀ item ∈ items s, ∀ rule A, p.rules item.rule = some rule →
    rule.output[item.dot]? = some (.nonterminal A) → Advanced items item (p.goto s A)
  closed : ∀ s, ∀ item ∈ items s, ∀ rule A, p.rules item.rule = some rule →
    rule.output[item.dot]? = some (.nonterminal A) → ∀ r rule', p.rules r = some rule' →
    rule'.input = A → ∃ first ∈ items s, first.rule = r ∧ first.dot = 0 ∧
      Within (firstOf code firsts (rule.output.drop (item.dot + 1)) item.looks) first.looks
  reduce : ∀ s, ∀ item ∈ items s, ∀ rule t, p.rules item.rule = some rule →
    item.dot = rule.output.length → item.looks.testBit (code t) = true →
    p.action s t = .reduce item.rule
  start : ∀ r rule, p.rules r = some rule → rule.input = p.initial →
    ∃ item ∈ items 0, item.rule = r ∧ item.dot = 0 ∧ ∀ t, item.looks.testBit (code t) = true
  notInitial : ∀ r rule, p.rules r = some rule → .nonterminal p.initial ∉ rule.output

section Check

def checkAdvanced (item : Item) (s : Nat) : Bool :=
  (items s).any fun next => next.rule == item.rule && next.dot == item.dot + 1 &&
    decide (Within item.looks next.looks)

def checkClosed [DecidableEq N] (s : Nat) (A : N) (looks r : Nat) : Bool :=
  (p.rules r).all fun rule : ContextFreeRule T N => rule.input != A || (items s).any fun first =>
    first.rule == r && first.dot == 0 && decide (Within looks first.looks)

/-- `ruleNumbers` are the numbers of the rules. -/
def checkItem [DecidableEq N] (ruleNumbers : List Nat) (terminals : List T) (s : Nat) (item : Item)
    (rule : ContextFreeRule T N) : Bool :=
  match rule.output[item.dot]? with
  | some (.terminal t) =>
    match p.action s t with
    | .shift s' => checkAdvanced items item s'
    | _ => false
  | some (.nonterminal A) =>
    checkAdvanced items item (p.goto s A) &&
      ruleNumbers.all (checkClosed p items s A
        (firstOf code firsts (rule.output.drop (item.dot + 1)) item.looks))
  | none => terminals.all fun t =>
      !item.looks.testBit (code t) || p.action s t == .reduce item.rule

variable {code firsts p items} {ruleNumbers : List Nat} {terminals : List T} {s : Nat} {A : N}
  {t : T} {item : Item} {rule : ContextFreeRule T N}

theorem advanced_of_check (h : checkAdvanced items item s = true) : Advanced items item s := by
  rw [checkAdvanced, List.any_eq_true] at h
  obtain ⟨next, hnext, hsame⟩ := h
  rw [Bool.and_eq_true, Bool.and_eq_true, beq_iff_eq, beq_iff_eq, decide_eq_true_iff] at hsame
  exact ⟨next, hnext, hsame.1.1, hsame.1.2, hsame.2⟩

theorem shift_of_check [DecidableEq N]
    (h : checkItem code firsts p items ruleNumbers terminals s item rule = true)
    (hsymbol : rule.output[item.dot]? = some (.terminal t)) :
    ∃ s', p.action s t = .shift s' ∧ Advanced items item s' := by
  rw [checkItem, hsymbol] at h
  dsimp only at h
  split at h
  next s' haction => exact ⟨s', haction, advanced_of_check h⟩
  next => cases h

theorem goto_of_check [DecidableEq N]
    (h : checkItem code firsts p items ruleNumbers terminals s item rule = true)
    (hsymbol : rule.output[item.dot]? = some (.nonterminal A)) :
    Advanced items item (p.goto s A) ∧ ruleNumbers.all (checkClosed p items s A
      (firstOf code firsts (rule.output.drop (item.dot + 1)) item.looks)) = true := by
  rw [checkItem, hsymbol] at h
  obtain ⟨hadvanced, hclosed⟩ := Bool.and_eq_true_iff.mp h
  exact ⟨advanced_of_check hadvanced, hclosed⟩

theorem reduce_of_check [DecidableEq N] (hterminals : ∀ t, t ∈ terminals)
    (h : checkItem code firsts p items ruleNumbers terminals s item rule = true)
    (hdot : item.dot = rule.output.length) (hlooks : item.looks.testBit (code t) = true) :
    p.action s t = .reduce item.rule := by
  have hnone : rule.output[item.dot]? = none := by
    rw [hdot, List.getElem?_length]
  rw [checkItem, hnone] at h
  have hcheck := List.all_eq_true.mp h t (hterminals t)
  rw [hlooks] at hcheck
  exact beq_iff_eq.mp hcheck

variable [DecidableEq N] [DecidableEq T] (code firsts p items)

def checkStart (terminals : List T) (r : Nat) : Bool :=
  (items 0).any fun item => item.rule == r && item.dot == 0 &&
    terminals.all fun t => item.looks.testBit (code t)

def checkRule (terminals : List T) (r : Nat) (rule : ContextFreeRule T N) : Bool :=
  decide (Within (firstOf code firsts rule.output 0) (firsts.first rule.input)) &&
    ((!rule.output.all (isNullable firsts) || firsts.nullable rule.input) &&
      ((rule.input != p.initial || checkStart code items terminals r) &&
        rule.output.all fun symbol => symbol != .nonterminal p.initial))

/-- `Complete` for tables whose states are `states`. -/
def checkComplete (states ruleNumbers : List Nat) (terminals : List T) : Bool :=
  (ruleNumbers.all fun r => (p.rules r).all (checkRule code firsts p items terminals r)) &&
    states.all fun s => (items s).all fun item =>
      (p.rules item.rule).all (checkItem code firsts p items ruleNumbers terminals s item)

variable {code firsts p items} {states : List Nat}

theorem Complete.of_check (hstates : ∀ s, s ∉ states → items s = [])
    (hruleNumbers : ∀ r, r ∉ ruleNumbers → p.rules r = none) (hterminals : ∀ t, t ∈ terminals)
    (h : checkComplete code firsts p items states ruleNumbers terminals = true) :
    p.Complete code firsts items := by
  rw [checkComplete, Bool.and_eq_true, List.all_eq_true, List.all_eq_true] at h
  obtain ⟨hrules, hitems⟩ := h
  have hnumber : ∀ {r rule}, p.rules r = some rule → r ∈ ruleNumbers := by
    intro r rule hrule
    by_contra hr
    rw [hruleNumbers r hr] at hrule
    cases hrule
  have hrule : ∀ {r rule}, p.rules r = some rule →
      checkRule code firsts p items terminals r rule = true := by
    intro r rule hrule
    have hcheck := hrules r (hnumber hrule)
    rw [hrule] at hcheck
    exact hcheck
  have hitem : ∀ {s item rule}, item ∈ items s → p.rules item.rule = some rule →
      checkItem code firsts p items ruleNumbers terminals s item rule = true := by
    intro s item rule hitem hrule
    have hs : s ∈ states := by
      by_contra hs
      rw [hstates s hs] at hitem
      cases hitem
    have hcheck := List.all_eq_true.mp (hitems s hs) item hitem
    rw [hrule] at hcheck
    exact hcheck
  refine ⟨?_, ?_, ?_, ?_, ?_, ?_, ?_, ?_⟩
  · intro r rule h
    exact of_decide_eq_true (Bool.and_eq_true_iff.mp (hrule h)).1
  · intro r rule h hall
    have hcheck := (Bool.and_eq_true_iff.mp (Bool.and_eq_true_iff.mp (hrule h)).2).1
    rw [hall] at hcheck
    exact hcheck
  · intro s item hin rule t h hsymbol
    exact shift_of_check (hitem hin h) hsymbol
  · intro s item hin rule A h hsymbol
    exact (goto_of_check (hitem hin h) hsymbol).1
  · intro s item hin rule A h hsymbol r rule' hrule' hinput
    have hcheck := List.all_eq_true.mp (goto_of_check (hitem hin h) hsymbol).2 r (hnumber hrule')
    rw [checkClosed, hrule', Option.all_some, hinput, bne_self_eq_false, Bool.false_or,
      List.any_eq_true] at hcheck
    obtain ⟨first, hfirst, hsame⟩ := hcheck
    rw [Bool.and_eq_true, Bool.and_eq_true, beq_iff_eq, beq_iff_eq, decide_eq_true_iff] at hsame
    exact ⟨first, hfirst, hsame.1.1, hsame.1.2, hsame.2⟩
  · intro s item hin rule t h hdot hlooks
    exact reduce_of_check hterminals (hitem hin h) hdot hlooks
  · intro r rule h hinitial
    have hcheck := (Bool.and_eq_true_iff.mp (Bool.and_eq_true_iff.mp
      (Bool.and_eq_true_iff.mp (hrule h)).2).2).1
    rw [hinitial, bne_self_eq_false, Bool.false_or, checkStart, List.any_eq_true] at hcheck
    obtain ⟨item, hin, hsame⟩ := hcheck
    rw [Bool.and_eq_true, Bool.and_eq_true, beq_iff_eq, beq_iff_eq] at hsame
    exact ⟨item, hin, hsame.1.1, hsame.1.2, fun t => List.all_eq_true.mp hsame.2 t (hterminals t)⟩
  · intro r rule h hin
    have hcheck := (Bool.and_eq_true_iff.mp (Bool.and_eq_true_iff.mp
      (Bool.and_eq_true_iff.mp (hrule h)).2).2).2
    exact bne_iff_ne.mp (List.all_eq_true.mp hcheck _ hin) rfl

end Check

end Tables

namespace Parser

variable {code : T → Nat} {firsts : Firsts N} {p : Parser T N τ V E} {items : Nat → List Item}
  {forest : Forest τ} {symbols : List (Symbol T N)}

/-- The token after which the trees go on is one they can begin with. -/
theorem head_of_complete (hc : p.toTables.Complete code firsts items)
    (h : forest.Derives p.rules p.kind symbols) (rest : Stream' τ) (looks : Nat)
    (hlooks : looks.testBit (code (p.kind rest.head)) = true) :
    (firstOf code firsts symbols looks).testBit (code (p.kind (forest.word ++ₛ rest).head)) =
      true := by
  induction h generalizing rest looks with
  | nil => exact hlooks
  | @leaf token forest symbols _ _ =>
    change (2 ^ code (p.kind token)).testBit (code (p.kind token)) = true
    exact Nat.testBit_two_pow_self
  | @node r rule children forest symbols hrule hchildren _ ihchildren ihforest =>
    have hrest := ihforest rest looks hlooks
    have hhead := ihchildren (forest.word ++ₛ rest) _ hrest
    rw [Forest.word, Stream'.append_append_stream, firstOf, Nat.testBit_or, Bool.or_eq_true]
    rcases firstOf_split code firsts _ _ _ hhead with hfirst | ⟨hall, hafter⟩
    · exact Or.inl ((hc.first r rule hrule).testBit hfirst)
    · rw [hc.nullable r rule hrule hall, if_pos rfl]
      exact Or.inr hafter

theorem drop_eq_cons {α : Type} {l rest : List α} {n : Nat} {a : α} (h : l.drop n = a :: rest) :
    l[n]? = some a ∧ l.drop (n + 1) = rest := by
  constructor
  · rw [← List.head?_drop, h, List.head?_cons]
  · rw [← List.drop_drop, h, List.drop_one, List.tail_cons]

variable [DecidableEq N] {c : Config τ V} {item : Item} {rule : ContextFreeRule T N}
  {rest : Stream' τ} {values : List V} {e : E}

/-- The parser has gone through trees whose symbols a rule of the top state has ahead. -/
structure Through (items : Nat → List Item) (c : Config τ V) (item : Item) (n : Nat)
    (values : List V) (rest : Stream' τ) (c' : Config τ V) : Prop where
  slots : c'.slots = values.drop n
  input : c'.input = rest
  below : c'.stack.drop n = c.stack
  length : c'.stack.length = n + c.stack.length
  values : ((c'.stack.take n).map Prod.snd).reverse = values.take n
  item : ∃ next ∈ items (topState c'.stack), next.rule = item.rule ∧ next.dot = item.dot + n ∧
    Within item.looks next.looks

theorem Through.cons {c c₁ c' : Config τ V} {item next : Item} {n s : Nat} {v : V}
    (h : Through items c₁ next n values rest c') (hstack : c₁.stack = (s, v) :: c.stack)
    (hrule : next.rule = item.rule) (hdot : next.dot = item.dot + 1)
    (hwithin : Within item.looks next.looks) :
    Through items c item (n + 1) (v :: values) rest c' := by
  have hbelow : c'.stack.drop n = (s, v) :: c.stack := h.below.trans hstack
  obtain ⟨hget, hdrop⟩ := drop_eq_cons hbelow
  obtain ⟨last, hlast, hlastRule, hlastDot, hlastWithin⟩ := h.item
  refine ⟨h.slots, h.input, hdrop, ?_, ?_, last, hlast, hlastRule.trans hrule, ?_,
    hwithin.trans hlastWithin⟩
  · have hlength := h.length
    rw [hstack, List.length_cons] at hlength
    omega
  · rw [List.take_add_one, hget, Option.toList_some, List.map_append, List.reverse_append,
      h.values]
    rfl
  · omega

theorem through_of_complete (hc : p.toTables.Complete code firsts items)
    (h : forest.Derives p.rules p.kind symbols) (hitem : item ∈ items (topState c.stack))
    (hrule : p.rules item.rule = some rule) (hahead : rule.output.drop item.dot = symbols)
    (hlooks : item.looks.testBit (code (p.kind rest.head)) = true)
    (hinput : c.input = forest.word ++ₛ rest) :
    (∀ values, p.eval forest c.slots = .ok values →
      ∃ c', p.Steps c c' ∧ Through items c item symbols.length values rest c') ∧
      ∀ e, p.eval forest c.slots = .error e → p.Ends c (.error e) := by
  induction h generalizing c item rule rest with
  | nil =>
    refine ⟨fun values hvalues => ?_, fun e he => ?_⟩
    · cases hvalues
      exact ⟨c, .refl, rfl, hinput, rfl, (Nat.zero_add _).symm, rfl, item, hitem, rfl, rfl,
        .refl _⟩
    · cases he
  | @leaf token forest symbols hforest ih =>
    obtain ⟨hsymbol, hdrop⟩ := drop_eq_cons hahead
    obtain ⟨s, haction, next, hnext, hsame, hdot, hwithin⟩ :=
      hc.shift _ item hitem rule _ hrule hsymbol
    have hhead : c.input.head = token := by
      rw [hinput]
      rfl
    have htail : c.input.tail = forest.word ++ₛ rest := by
      rw [hinput]
      rfl
    rw [← hhead] at haction
    have hgo : ∀ more, p.above c.slots = .ok more →
        p.step c = .inl ⟨(s, p.value token) :: c.stack, more, forest.word ++ₛ rest⟩ := by
      intro more habove
      rw [step_shift haction habove, hhead, htail]
    have hnextRule : p.rules next.rule = some rule := hsame ▸ hrule
    have hnextAhead : rule.output.drop next.dot = symbols := hdot ▸ hdrop
    refine ⟨fun values hvalues => ?_, fun e he => ?_⟩
    · obtain ⟨more, habove, hmore⟩ := bind_eq_ok.mp hvalues
      obtain ⟨values, heval, heq⟩ := bind_eq_ok.mp hmore
      cases heq
      obtain ⟨c', hsteps, hthrough⟩ := (ih (c := ⟨(s, p.value token) :: c.stack, more, _⟩) hnext
        hnextRule hnextAhead (hwithin.testBit hlooks) rfl).1 values heval
      exact ⟨c', .head (hgo more habove) hsteps, hthrough.cons rfl hsame hdot hwithin⟩
    · rcases bind_eq_error.mp he with habove | ⟨more, habove, he⟩
      · exact ⟨c, .refl, step_shift_error haction habove⟩
      · rcases bind_eq_error.mp he with heval | ⟨values, -, he⟩
        · exact .of_next (hgo more habove) ((ih (c := ⟨(s, p.value token) :: c.stack, more, _⟩)
            hnext hnextRule hnextAhead (hwithin.testBit hlooks) rfl).2 e heval)
        · cases he
  | @node r rule' children forest symbols hrule' hchildren hforest ihchildren ihforest =>
    obtain ⟨hsymbol, hdrop⟩ := drop_eq_cons hahead
    have hinitial : rule'.input ≠ p.initial := by
      intro hinitial
      exact hc.notInitial _ rule hrule (hinitial ▸ List.mem_of_getElem? hsymbol)
    obtain ⟨first, hfirst, rfl, hfirstDot, hfirstWithin⟩ :=
      hc.closed _ item hitem rule _ hrule hsymbol _ rule' hrule' rfl
    obtain ⟨next, hnext, hsame, hdot, hwithin⟩ := hc.goto _ item hitem rule _ hrule hsymbol
    have hafter : first.looks.testBit (code (p.kind (forest.word ++ₛ rest).head)) = true := by
      rw [hdrop] at hfirstWithin
      exact hfirstWithin.testBit (head_of_complete hc hforest rest item.looks hlooks)
    obtain ⟨hok, herror⟩ := ihchildren hfirst hrule' (by rw [hfirstDot, List.drop_zero]) hafter
      (by rw [hinput, Forest.word, Stream'.append_append_stream])
    have hreduce : ∀ done, p.eval children c.slots = .ok done → ∃ c₁, p.Steps c c₁ ∧
        p.action (topState c₁.stack) (p.kind c₁.input.head) = .reduce first.rule ∧
        c₁.pop rule'.output.length = ⟨c.stack, done, forest.word ++ₛ rest⟩ := by
      intro done hdone
      obtain ⟨c₁, hsteps, hthrough⟩ := hok done hdone
      obtain ⟨last, hlast, hlastRule, hlastDot, hlastWithin⟩ := hthrough.item
      refine ⟨c₁, hsteps, ?_, ?_⟩
      · rw [← hlastRule]
        refine hc.reduce _ last hlast rule' _ (hlastRule ▸ hrule') ?_ ?_
        · rw [hlastDot, hfirstDot, Nat.zero_add]
        · rw [hthrough.input]
          exact hlastWithin.testBit hafter
      · rw [Config.pop, hthrough.values, hthrough.slots, hthrough.below, hthrough.input,
          List.take_append_drop]
    have hnextRule : p.rules next.rule = some rule := hsame ▸ hrule
    have hnextAhead : rule.output.drop next.dot = symbols := hdot ▸ hdrop
    have hgo : ∀ done v more, p.eval children c.slots = .ok done →
        p.result first.rule done = .ok v → p.above done = .ok more →
        p.Steps c ⟨(p.goto (topState c.stack) rule'.input, v) :: c.stack, more,
          forest.word ++ₛ rest⟩ := by
      intro done v more hdone hresult habove
      obtain ⟨c₁, hsteps, haction, hpop⟩ := hreduce done hdone
      exact .tail hsteps (step_reduce hpop haction hrule' hinitial hresult habove)
    refine ⟨fun values hvalues => ?_, fun e he => ?_⟩
    · obtain ⟨done, hdone, hvalues⟩ := bind_eq_ok.mp hvalues
      obtain ⟨v, hresult, hvalues⟩ := bind_eq_ok.mp hvalues
      obtain ⟨more, habove, hvalues⟩ := bind_eq_ok.mp hvalues
      obtain ⟨values, heval, heq⟩ := bind_eq_ok.mp hvalues
      cases heq
      obtain ⟨c', hsteps, hthrough⟩ :=
        (ihforest (c := ⟨(p.goto (topState c.stack) rule'.input, v) :: c.stack, more, _⟩) hnext
          hnextRule hnextAhead (hwithin.testBit hlooks) rfl).1 values heval
      exact ⟨c', (hgo done v more hdone hresult habove).trans hsteps,
        hthrough.cons rfl hsame hdot hwithin⟩
    · rcases bind_eq_error.mp he with hdone | ⟨done, hdone, he⟩
      · exact herror e hdone
      · obtain ⟨c₁, hsteps, haction, hpop⟩ := hreduce done hdone
        rcases bind_eq_error.mp he with hresult | ⟨v, hresult, he⟩
        · exact ⟨c₁, hsteps, step_reduce_error hpop haction hrule' hinitial
            (bind_eq_error.mpr (Or.inl hresult))⟩
        · rcases bind_eq_error.mp he with habove | ⟨more, habove, he⟩
          · exact ⟨c₁, hsteps, step_reduce_error hpop haction hrule' hinitial
              (bind_eq_error.mpr (Or.inr ⟨v, hresult, habove⟩))⟩
          · rcases bind_eq_error.mp he with heval | ⟨values, -, he⟩
            · exact .of_steps (hgo done v more hdone hresult habove)
                ((ihforest (c := ⟨(p.goto (topState c.stack) rule'.input, v) :: c.stack, more, _⟩)
                  hnext hnextRule hnextAhead (hwithin.testBit hlooks) rfl).2 e heval)
            · cases he

/-- The parser ends with the value of every tree of the initial symbol that the input begins
with. -/
theorem ends_of_complete (hc : p.toTables.Complete code firsts items) {r : Nat}
    {children : Forest τ} {slots : List V} {input : Stream' τ} (hrule : p.rules r = some rule)
    (hinitial : rule.input = p.initial) (hchildren : children.Derives p.rules p.kind rule.output)
    (hinput : children.word ++ₛ rest = input) :
    p.Ends ⟨[], slots, input⟩ (p.eval children slots >>= p.result r) := by
  obtain ⟨item, hitem, rfl, hdot, hlooks⟩ := hc.start r rule hrule hinitial
  obtain ⟨hok, herror⟩ := through_of_complete hc (c := ⟨[], slots, input⟩) hchildren hitem hrule
    (by rw [hdot, List.drop_zero]) (hlooks _) hinput.symm
  cases heval : p.eval children slots with
  | error e => exact herror e heval
  | ok done =>
    obtain ⟨c', hsteps, hthrough⟩ := hok done heval
    obtain ⟨last, hlast, hlastRule, hlastDot, hlastWithin⟩ := hthrough.item
    have haction : p.action (topState c'.stack) (p.kind c'.input.head) = .reduce item.rule := by
      rw [← hlastRule]
      refine hc.reduce _ last hlast rule _ (hlastRule ▸ hrule) ?_ (hlastWithin.testBit (hlooks _))
      rw [hlastDot, hdot, Nat.zero_add]
    have hpop : c'.pop rule.output.length = ⟨[], done, rest⟩ := by
      rw [Config.pop, hthrough.values, hthrough.slots, hthrough.below, hthrough.input,
        List.take_append_drop]
    refine ⟨c', hsteps, ?_⟩
    change p.step c' = .inr (p.result item.rule done)
    cases hresult : p.result item.rule done with
    | error e => simp only [step, haction, hrule, hpop, hresult]
    | ok v => simp only [step, haction, hrule, hpop, hresult, if_pos hinitial]

end Parser

end LR
