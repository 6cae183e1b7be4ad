import Grmdb.SelectAnswers

namespace Grmdb

section OneInner

variable {left right : Cursor Bytes} {eval : Bytes → Option Bool} {l₀ : left.State}
  {r₀ : right.State} {rowsL rowsR restL : List Bytes} {b : Bytes}
  {AtR : List Bytes → right.State → Prop} {p : Bytes × Bytes → Bool} {fuel loopFuel : Nat}
  {s s' : NestedLoopState left.State right.State}

/-- The join when the right input has one record: every record of the left input is read once. -/
structure OneAhead (AtR : List Bytes → right.State → Prop) (b : Bytes) (restL : List Bytes)
    (s : NestedLoopState left.State right.State) : Prop where
  left : left.Delivers s.left restL
  right : AtR [b] s.right
  isLast : s.isLast = restL.isEmpty
  isEnd : s.isEnd = restL.isEmpty

theorem OneAhead.round {a : Bytes} (hR : right.Walks r₀ [b] AtR)
    (h : OneAhead AtR b (a :: restL) s) :
    ∃ s', nestedLoopRound left right s = some (joinPairRow (a, b), s') ∧
      OneAhead AtR b restL s' := by
  obtain ⟨hleft, hright, hlast, hend⟩ := h
  cases hleft with
  | @cons _ l l' _ _ hendL hreadL hadvL hrest =>
    obtain ⟨r, hreadR, hr⟩ := hR.read _ _ _ hright
    obtain ⟨r', hadvR, hr'⟩ := hR.advance _ _ _ hr
    obtain ⟨r'', hstart, hr''⟩ := hR.start r' (Or.inr ⟨[], hr'⟩)
    have hendR := hR.atEnd _ _ hr'
    have hend' := hrest.atEnd
    cases restL with
    | nil =>
      refine ⟨{ s with left := l', right := r'', isEnd := true, isLast := true }, ?_, hrest, hr'',
        rfl, rfl⟩
      simp [nestedLoopRound, hreadL, hreadR, hadvR, hendR, hadvL, hstart, hend', joinPairRow]
    | cons a' restL =>
      refine ⟨{ s with left := l', right := r'' }, ?_, hrest, hr'', hlast, hend⟩
      simp [nestedLoopRound, hreadL, hreadR, hadvR, hendR, hadvL, hstart, hend', joinPairRow]

/-- A left input that gets through once is enough. -/
theorem OneAhead.delivers (hR : right.Walks r₀ [b] AtR)
    (hp : ∀ a ∈ restL, eval (joinPairRow (a, b)) = some (p (a, b)))
    (h : OneAhead AtR b restL s) (hloop : restL.length ≤ loopFuel) (hfuel : restL.length ≤ fuel) :
    ∃ s', nestedLoop left right eval loopFuel s = some s' ∧
      (nestedLoopCursor left right eval fuel).Delivers s'
        (((restL.map fun a => (a, b)).filter p).map joinPairRow) := by
  induction restL generalizing s loopFuel with
  | nil =>
    refine ⟨s, ?_, .nil h.isEnd⟩
    have hlast : s.isLast = true := h.isLast
    cases loopFuel with
    | zero => rw [nestedLoop, if_pos hlast]
    | succ loopFuel => rw [nestedLoop, if_pos hlast]
  | cons a restL ih =>
    cases loopFuel with
    | zero => simp at hloop
    | succ loopFuel =>
      obtain ⟨s₁, hround, hahead⟩ := h.round hR
      have hhere := hp a List.mem_cons_self
      have hrest : ∀ a' ∈ restL, eval (joinPairRow (a', b)) = some (p (a', b)) :=
        fun a' ha' => hp a' (List.mem_cons_of_mem a ha')
      have hshort : restL.length ≤ fuel := Nat.le_of_succ_le hfuel
      have hopen : s.isLast = false := h.isLast
      rw [nestedLoop, if_neg (by simp [hopen]), hround, Option.bind_some]
      dsimp only
      rw [hhere, Option.bind_some]
      cases hok : p (a, b) with
      | false =>
        rw [if_neg (by simp), List.map_cons, List.filter_cons, if_neg (by simp [hok])]
        exact ih hrest hahead (Nat.le_of_succ_le_succ hloop) hshort
      | true =>
        rw [if_pos rfl, List.map_cons, List.filter_cons, if_pos hok, List.map_cons]
        refine ⟨_, rfl, ?_⟩
        -- the call of `nextTuple` after the record is moved out
        obtain ⟨s₂, hs₂⟩ : ∃ s₂, (if s₁.isLast then
            { s₁ with record := none, isEnd := true }
          else { s₁ with record := none, isEnd := s₁.isEnd }) = s₂ := ⟨_, rfl⟩
        have hahead₂ : OneAhead AtR b restL s₂ := by
          subst hs₂
          obtain ⟨hl, hr, hlast, hend⟩ := hahead
          cases restL with
          | nil =>
            have hlast' : s₁.isLast = true := hlast
            rw [if_pos hlast']
            exact ⟨hl, hr, hlast, rfl⟩
          | cons a' restL =>
            have hlast' : s₁.isLast = false := hlast
            rw [if_neg (by simp [hlast'])]
            exact ⟨hl, hr, hlast, hend⟩
        obtain ⟨s₃, hnext, hdelivers⟩ := ih hrest hahead₂ hshort hshort
        have hstep : (nestedLoopCursor left right eval fuel).advance
            { s₁ with record := none, isEnd := if s₁.isLast then false else s₁.isEnd } =
              nestedLoop left right eval fuel s₂ := by
          rw [← hs₂]
          cases s₁.isLast with
          | true => rfl
          | false => rfl
        have hend : (if s₁.isLast then false else s₁.isEnd) = false := by
          rw [hahead.isLast, hahead.isEnd]
          cases restL with
          | nil => rfl
          | cons a' restL => rfl
        exact .cons hend rfl (hstep.trans hnext) hdelivers

/-- A join gets through when its left input does and that one is empty or the right one has at most
one record. -/
theorem nestedLoopCursor_one_inner (hL : ∃ l, left.start l₀ = some l ∧ left.Delivers l rowsL)
    (hR : right.Walks r₀ rowsR AtR) (hone : rowsL = [] ∨ rowsR.length ≤ 1)
    (hp : ∀ pair ∈ rowsL ×ˢ rowsR, eval (joinPairRow pair) = some (p pair))
    (hfuel : rowsL.length ≤ fuel) :
    ∃ s, (nestedLoopCursor left right eval fuel).start ⟨l₀, r₀, false, false, none⟩ = some s ∧
      (nestedLoopCursor left right eval fuel).Delivers s
        (((rowsL ×ˢ rowsR).filter p).map joinPairRow) := by
  obtain ⟨l, hstartL, hdelivers⟩ := hL
  obtain ⟨r, hstartR, hr⟩ := hR.start r₀ (Or.inl rfl)
  have hendL := hdelivers.atEnd
  have hendR := hR.atEnd _ _ hr
  by_cases hempty : rowsL = [] ∨ rowsR = []
  · exact nestedLoopCursor_empty hstartL hstartR hendL hendR hempty
  · obtain ⟨hlne, hrne⟩ := not_or.mp hempty
    obtain ⟨b, rfl⟩ : ∃ b, rowsR = [b] :=
      List.length_eq_one_iff.mp
        (Nat.le_antisymm (hone.resolve_left hlne) (List.length_pos_of_ne_nil hrne))
    have hpairs : rowsL ×ˢ [b] = rowsL.map fun a => (a, b) := by
      simp [SProd.sprod, List.product, List.map_eq_flatMap]
    have hahead : @OneAhead left right AtR b rowsL ⟨l, r, false, false, none⟩ :=
      ⟨hdelivers, hr, by simpa using hlne, by simpa using hlne⟩
    rw [hpairs] at hp ⊢
    obtain ⟨s, hloop, hs⟩ := hahead.delivers hR
      (fun a ha => hp (a, b) (List.mem_map.mpr ⟨a, ha, rfl⟩)) hfuel hfuel
    refine ⟨s, ?_, hs⟩
    simp [nestedLoopCursor, hstartL, hstartR, hendL, hendR, hlne, hloop]

end OneInner

section Stuck

variable {left right : Cursor Bytes} {eval : Bytes → Option Bool} {l₀ : left.State}
  {r₀ : right.State} {rowsL rowsR rows : List Bytes} {AtL : List Bytes → left.State → Prop}
  {TakenL : Bytes → List Bytes → left.State → Prop} {AgainL : left.State → Prop}
  {AtR : List Bytes → right.State → Prop} {TakenR : Bytes → List Bytes → right.State → Prop}
  {AgainR : right.State → Prop} {fuel loopFuel : Nat} {a b : Bytes} {restL restR : List Bytes}
  {s s' : NestedLoopState left.State right.State}

/-- A record of the left input that cannot be read again stops the loop. -/
theorem nestedLoop_stuck (hread : left.read s.left = none) (hlast : s.isLast = false) :
    nestedLoop left right eval loopFuel s = none := by
  cases loopFuel with
  | zero => rw [nestedLoop, if_neg (by simp [hlast])]
  | succ loopFuel =>
    rw [nestedLoop, if_neg (by simp [hlast]), nestedLoopRound, hread]
    rfl

/-- With two records on the right a left input whose records are gone once they are read does not
get past its first one. -/
theorem nestedLoopCursor_two_inner (hL : left.Honest l₀ rowsL AtL TakenL AgainL)
    (hR : right.Honest r₀ rowsR AtR TakenR AgainR)
    (honce : ∀ l r l', left.read l = some (r, l') → left.read l' = none) (hne : rowsL ≠ [])
    (htwo : 2 ≤ rowsR.length)
    (hstart : (nestedLoopCursor left right eval fuel).start ⟨l₀, r₀, false, false, none⟩ = some s)
    (hdelivers : (nestedLoopCursor left right eval fuel).Delivers s rows) : False := by
  obtain ⟨l, hstartL, hstart⟩ := Option.bind_eq_some_iff.mp hstart
  obtain ⟨r, hstartR, hstart⟩ := Option.bind_eq_some_iff.mp hstart
  have hl := hL.start _ hstartL
  have hr := hR.start _ hstartR
  obtain ⟨a, restL, rfl⟩ := List.exists_cons_of_ne_nil hne
  obtain ⟨b, b', restR, rfl⟩ : ∃ b b' restR, rowsR = b :: b' :: restR := by
    cases rowsR with
    | nil => simp at htwo
    | cons b rowsR =>
      cases rowsR with
      | nil => simp at htwo
      | cons b' restR => exact ⟨b, b', restR, rfl⟩
  rw [hL.atEnd _ _ hl, hR.atEnd _ _ hr] at hstart
  simp only [List.isEmpty_cons, Bool.false_eq_true, or_self, if_false] at hstart
  cases fuel with
  | zero => simp [nestedLoop] at hstart
  | succ fuel =>
    rw [nestedLoop, if_neg (by simp)] at hstart
    obtain ⟨⟨tuple, s₁⟩, hround, hstart⟩ := Option.bind_eq_some_iff.mp hstart
    obtain ⟨⟨x, l₁⟩, hreadL, hround⟩ := Option.bind_eq_some_iff.mp hround
    obtain ⟨⟨y, r₁⟩, hreadR, hround⟩ := Option.bind_eq_some_iff.mp hround
    obtain ⟨r₂, hadvR, hround⟩ := Option.bind_eq_some_iff.mp hround
    obtain ⟨rfl, hl₁⟩ := hL.read _ _ _ _ _ hl hreadL
    obtain ⟨rfl, hr₁⟩ := hR.read _ _ _ _ _ hr hreadR
    have hr₂ := hR.advance _ _ _ _ hr₁ hadvR
    rw [hR.atEnd _ _ hr₂] at hround
    cases hround
    have hgone := honce _ _ _ hreadL
    obtain ⟨ok, -, hstart⟩ := Option.bind_eq_some_iff.mp hstart
    cases ok with
    | false =>
      have hstuck := @nestedLoop_stuck left right eval fuel
        ⟨l₁, r₂, false, false, none⟩ hgone rfl
      cases hstuck.symm.trans hstart
    | true =>
      cases hstart
      obtain ⟨_, _, s₂, s₃, -, hread, hadvance, -⟩ := hdelivers.next rfl
      cases hread
      have hstuck := @nestedLoop_stuck left right eval (fuel + 1)
        ⟨l₁, r₂, false, false, none⟩ hgone rfl
      cases hstuck.symm.trans hadvance

/-- The join when the right input has one record and may fail. -/
structure OneLeft (AtL : List Bytes → left.State → Prop) (AtR : List Bytes → right.State → Prop)
    (AgainR : right.State → Prop) (b : Bytes) (restL : List Bytes)
    (s : NestedLoopState left.State right.State) : Prop where
  left : AtL restL s.left
  right : restL ≠ [] → AtR [b] s.right ∨ AgainR s.right
  isLast : s.isLast = restL.isEmpty
  isEnd : s.isEnd = true → restL = []

theorem OneLeft.atEnd (hL : left.Honest l₀ rowsL AtL TakenL AgainL)
    (h : OneLeft AtL AtR AgainR b restL s) (hlast : s.isLast = true) :
    ∃ rows, left.Delivers s.left rows := by
  rw [h.isLast, List.isEmpty_iff] at hlast
  subst hlast
  exact ⟨[], .nil (hL.atEnd _ _ h.left)⟩

theorem OneLeft.nestedLoop (hL : left.Honest l₀ rowsL AtL TakenL AgainL)
    (hR : right.Honest r₀ [b] AtR TakenR AgainR) (h : OneLeft AtL AtR AgainR b restL s)
    (hloop : nestedLoop left right eval loopFuel s = some s') :
    (∃ restL', OneLeft AtL AtR AgainR b restL' s') ∧
      ((∃ rows, left.Delivers s'.left rows) → ∃ rows, left.Delivers s.left rows) := by
  induction loopFuel generalizing s restL with
  | zero =>
    rw [Grmdb.nestedLoop] at hloop
    split at hloop
    next =>
      cases hloop
      exact ⟨⟨restL, h⟩, id⟩
    next => cases hloop
  | succ loopFuel ih =>
    rw [Grmdb.nestedLoop] at hloop
    split at hloop
    next =>
      cases hloop
      exact ⟨⟨restL, h⟩, id⟩
    next hopen =>
      obtain ⟨⟨tuple, s₁⟩, hround, hloop⟩ := Option.bind_eq_some_iff.mp hloop
      obtain ⟨ok, -, hloop⟩ := Option.bind_eq_some_iff.mp hloop
      obtain ⟨hl, hr, hlast, hend⟩ := h
      obtain ⟨a, restL, rfl⟩ : ∃ a rest, restL = a :: rest := by
        cases restL with
        | nil => exact absurd hlast hopen
        | cons a rest => exact ⟨a, rest, rfl⟩
      obtain ⟨⟨x, l₁⟩, hreadL, hround⟩ := Option.bind_eq_some_iff.mp hround
      obtain ⟨⟨y, r₁⟩, hreadR, hround⟩ := Option.bind_eq_some_iff.mp hround
      obtain ⟨r₂, hadvR, hround⟩ := Option.bind_eq_some_iff.mp hround
      obtain ⟨rfl, hl₁⟩ := hL.read _ _ _ _ _ hl hreadL
      have hr₁ : TakenR y [] r₁ := by
        rcases hr (List.cons_ne_nil _ _) with hat | hagain
        · obtain ⟨rfl, htaken⟩ := hR.read _ _ _ _ _ hat hreadR
          exact htaken
        · obtain ⟨rest, hrows, htaken⟩ := hR.again _ _ _ hagain hreadR
          cases hrows
          exact htaken
      have hr₂ := hR.advance _ _ _ _ hr₁ hadvR
      rw [hR.atEnd _ _ hr₂] at hround
      obtain ⟨l₂, hadvL, hround⟩ := Option.bind_eq_some_iff.mp hround
      obtain ⟨r₃, hstart, hround⟩ := Option.map_eq_some_iff.mp hround
      have hl₂ := hL.advance _ _ _ _ hl₁ hadvL
      have hr₃ := hR.restart (List.cons_ne_nil _ _) _ _ hr₂ hstart
      have hclosed : s.isEnd = false := by
        cases hs : s.isEnd with
        | false => rfl
        | true => exact absurd (hend hs) (List.cons_ne_nil _ _)
      have hone : OneLeft AtL AtR AgainR b restL s₁ ∧ s₁.left = l₂ := by
        rw [hL.atEnd _ _ hl₂] at hround
        cases restL with
        | nil =>
          cases hround
          exact ⟨⟨hl₂, fun hne => absurd rfl hne, rfl, fun _ => rfl⟩, rfl⟩
        | cons a' restL =>
          cases hround
          refine ⟨⟨hl₂, fun _ => Or.inr hr₃, hlast, fun hs => ?_⟩, rfl⟩
          exact absurd (hclosed.symm.trans hs) (by simp)
      obtain ⟨hone, hleft⟩ := hone
      have hback : (∃ rows, left.Delivers s₁.left rows) → ∃ rows, left.Delivers s.left rows := by
        rintro ⟨rows, hrows⟩
        rw [hleft] at hrows
        exact ⟨x :: rows, .cons (hL.atEnd _ _ hl) hreadL hadvL hrows⟩
      cases ok with
      | true =>
        cases hloop
        refine ⟨⟨restL, hone.left, hone.right, hone.isLast, fun hs => ?_⟩, hback⟩
        cases hlast₁ : s₁.isLast with
        | true => simp [hlast₁] at hs
        | false => exact hone.isEnd (by simpa [hlast₁] using hs)
      | false =>
        obtain ⟨hnext, hlater⟩ := ih hone hloop
        exact ⟨hnext, fun hrows => hback (hlater hrows)⟩

theorem OneLeft.advance (hL : left.Honest l₀ rowsL AtL TakenL AgainL)
    (hR : right.Honest r₀ [b] AtR TakenR AgainR) (h : OneLeft AtL AtR AgainR b restL s)
    (hloop : Grmdb.nestedLoop left right eval loopFuel
      (if s.isLast then { s with isEnd := true } else s) = some s') :
    (∃ restL', OneLeft AtL AtR AgainR b restL' s') ∧
      ((∃ rows, left.Delivers s'.left rows) → ∃ rows, left.Delivers s.left rows) := by
  cases restL with
  | nil =>
    have hlast : s.isLast = true := h.isLast
    rw [if_pos hlast] at hloop
    have hdone : OneLeft AtL AtR AgainR b [] { s with isEnd := true } :=
      ⟨h.left, h.right, h.isLast, fun _ => rfl⟩
    have hrun := hdone.nestedLoop hL hR hloop
    exact hrun
  | cons a restL =>
    have hopen : s.isLast = false := h.isLast
    rw [if_neg (by simp [hopen])] at hloop
    exact h.nestedLoop hL hR hloop

theorem OneLeft.delivers {s : (nestedLoopCursor left right eval fuel).State}
    (hL : left.Honest l₀ rowsL AtL TakenL AgainL) (hR : right.Honest r₀ [b] AtR TakenR AgainR)
    (h : OneLeft AtL AtR AgainR b restL s)
    (hdelivers : (nestedLoopCursor left right eval fuel).Delivers s rows) :
    ∃ rows, left.Delivers s.left rows := by
  induction hdelivers generalizing restL with
  | nil hend =>
    refine h.atEnd hL ?_
    rw [h.isLast, h.isEnd hend]
    rfl
  | @cons s s₁ s₂ r rest hend hread hadvance _ ih =>
    obtain ⟨tuple, -, heq⟩ := Option.map_eq_some_iff.mp hread
    cases heq
    have hgone : OneLeft AtL AtR AgainR b restL { s with record := none } :=
      ⟨h.left, h.right, h.isLast, h.isEnd⟩
    obtain ⟨⟨restL', hnext⟩, hback⟩ := hgone.advance hL hR hadvance
    exact hback (ih hnext)

/-- A join that gets through over one record on the right, or none on the left, has run its left
input to the end. -/
theorem nestedLoopCursor_left_delivers (hL : left.Honest l₀ rowsL AtL TakenL AgainL)
    (hR : right.Honest r₀ rowsR AtR TakenR AgainR) (hcase : rowsL = [] ∨ ∃ b, rowsR = [b])
    (hstart : (nestedLoopCursor left right eval fuel).start ⟨l₀, r₀, false, false, none⟩ = some s)
    (hdelivers : (nestedLoopCursor left right eval fuel).Delivers s rows) :
    ∃ l rows, left.start l₀ = some l ∧ left.Delivers l rows := by
  obtain ⟨l, hstartL, hstart⟩ := Option.bind_eq_some_iff.mp hstart
  obtain ⟨r, hstartR, hstart⟩ := Option.bind_eq_some_iff.mp hstart
  have hl := hL.start _ hstartL
  have hr := hR.start _ hstartR
  have hendL := hL.atEnd _ _ hl
  rw [hR.atEnd _ _ hr] at hstart
  suffices hrows : ∃ rows, left.Delivers l rows by
    obtain ⟨rows, hrows⟩ := hrows
    exact ⟨l, rows, hstartL, hrows⟩
  by_cases hnil : rowsL = []
  · subst hnil
    exact ⟨[], .nil hendL⟩
  · obtain ⟨b, rfl⟩ := hcase.resolve_left hnil
    have hopen : left.atEnd l = false := by
      rw [hendL]
      simpa using hnil
    rw [if_neg (by simp [hopen])] at hstart
    have hfirst : OneLeft AtL AtR AgainR b rowsL
        (⟨l, r, false, false, none⟩ : NestedLoopState left.State right.State) :=
      ⟨hl, fun _ => Or.inl hr, by simpa using hnil, fun h => by cases h⟩
    obtain ⟨⟨restL, hone⟩, hback⟩ := hfirst.nestedLoop hL hR hstart
    exact hback (hone.delivers hL hR hdelivers)

end Stuck

namespace Plan

def IsScan : Plan → Prop
  | .scan _ => True
  | _ => False

/-- Every join has a scan for its inner input. -/
def Chain : Plan → Prop
  | .scan _ => True
  | .join sortMerge left right _ => sortMerge = false ∧ left.IsScan ∧ right.Chain
  | _ => False

/-- What the joins of a chain can do: a join over another one, whose records are gone once they are
read, has at most one record to join them with. -/
def Fits (db : Database) : Plan → Prop
  | .join _ left right _ => right.Fits db ∧ (right.IsScan ∨
    db.answers right.order right.allConds = [] ∨
      (db.answers left.order left.allConds).length ≤ 1)
  | _ => True

theorem IsScan.chain {plan : Plan} (h : plan.IsScan) : plan.Chain := by
  cases plan with
  | scan => trivial
  | null | scanSub | values | join | sort | aggr | projection => exact h.elim

theorem IsScan.nestedLoops {plan : Plan} (h : plan.IsScan) : plan.NestedLoops := by
  cases plan with
  | scan => trivial
  | null | scanSub | values | join | sort | aggr | projection => exact h.elim

theorem Chain.nestedLoops {plan : Plan} (h : plan.Chain) : plan.NestedLoops := by
  induction plan with
  | scan => trivial
  | join sm left right conds _ ihRight =>
    obtain ⟨hsm, hleft, hright⟩ := h
    exact ⟨hsm, hleft.nestedLoops, ihRight hright⟩
  | null | scanSub | values | sort | aggr | projection => exact h.elim

end Plan

/-- The comparison has a value for all records of the tables. -/
def Database.Evaluates (db : Database) (cond : Condition) : Prop :=
  ∀ env : String → Bytes, (∀ t ∈ cond.tables, env t ∈ db.records t) →
    (cond.evalIn db.cat env).isSome

/-- What is asked of a plan so that nothing but its joins can stop it. -/
structure Database.Runs (db : Database) (plan : Plan) : Prop where
  chain : plan.Chain
  fit : db.TablesFit plan.order
  cat : ∀ t ∈ plan.order, (db.cat t).isSome
  nodup : plan.order.Nodup
  placed : plan.JoinsPlaced
  onScan : ∀ s ∈ plan.scans, ∀ cond ∈ s.conds, cond.onTable s.tabName = true
  indexes : db.IndexesFit plan
  evaluates : ∀ cond ∈ plan.allConds, db.Evaluates cond
  built : ∀ s ∈ plan.scans, ∀ fuel, (convertPlanExecutor db fuel (.scan s)).isSome

section Chains

variable {db : Database} {plan left right : Plan} {fuel : Nat} {exec : Executor}
  {rows : List Bytes} {conds : List Condition}

theorem Database.Runs.gives (h : db.Runs plan)
    (hexec : convertPlanExecutor db fuel plan = some exec) :
    exec.Gives db.cat plan.order (db.answers plan.order plan.allConds) :=
  plan_gives h.fit h.cat h.chain.nestedLoops (fun _ ht => ht) h.nodup h.placed h.onScan h.indexes
    hexec

theorem Database.Runs.outer {sm : Bool} (h : db.Runs (.join sm left right conds)) :
    db.Runs right where
  chain := h.chain.2.2
  fit := ⟨fun t ht => h.fit.cols t (List.mem_append_left _ ht),
    fun t ht => h.fit.rows t (List.mem_append_left _ ht)⟩
  cat t ht := h.cat t (List.mem_append_left _ ht)
  nodup := List.Nodup.of_append_left h.nodup
  placed := h.placed.2.1
  onScan s hs := h.onScan s (List.mem_append_right _ hs)
  indexes s hs := h.indexes s (List.mem_append_right _ hs)
  evaluates cond hcond := h.evaluates cond
    ((Plan.allConds_join sm left right conds).mem_iff.mpr
      (List.mem_append_left _ (List.mem_append_left _ hcond)))
  built s hs := h.built s (List.mem_append_right _ hs)

theorem Database.Runs.inner {sm : Bool} {s : ScanPlan}
    (h : db.Runs (.join sm (.scan s) right conds)) : db.Runs (.scan s) where
  chain := trivial
  fit := ⟨fun t ht => h.fit.cols t (List.mem_append_right _ ht),
    fun t ht => h.fit.rows t (List.mem_append_right _ ht)⟩
  cat t ht := h.cat t (List.mem_append_right _ ht)
  nodup := List.Nodup.of_append_right h.nodup
  placed := trivial
  onScan s hs := h.onScan s (List.mem_append_left _ hs)
  indexes s hs := h.indexes s (List.mem_append_left _ hs)
  evaluates cond hcond := h.evaluates cond
    ((Plan.allConds_join sm (.scan s) right conds).mem_iff.mpr
      (List.mem_append_left _ (List.mem_append_right _ hcond)))
  built s hs := h.built s (List.mem_append_left _ hs)

theorem evalConds_isSome {cols : List ColMeta} {tuple : Bytes}
    (h : ∀ cond ∈ conds, (evalCond cols cond tuple).isSome) :
    (evalConds cols conds tuple).isSome := by
  induction conds with
  | nil => rfl
  | cons cond conds ih =>
    obtain ⟨ok, hok⟩ := Option.isSome_iff_exists.mp (h cond List.mem_cons_self)
    rw [evalConds, hok, Option.bind_some]
    cases ok with
    | true => exact ih fun c hc => h c (List.mem_cons_of_mem cond hc)
    | false => rfl

/-- The conditions are tested without an error on a record of the plan. -/
theorem Database.Runs.evaluated (h : db.Runs plan) (hsub : ∀ cond ∈ conds, cond ∈ plan.allConds)
    {env : String → Bytes} (henv : ∀ t ∈ plan.order, env t ∈ db.records t) :
    (evalConds (rowCols db.cat plan.order) conds (flatRow plan.order env)).isSome := by
  have hfits : FitsIn db.cat plan.order env := fun t ht tab htab =>
    ⟨h.fit.rows t ht tab htab _ (henv t ht), h.fit.cols t ht tab htab⟩
  refine evalConds_isSome fun cond hcond => ?_
  have htables := Plan.allConds_tables h.chain.nestedLoops h.placed h.onScan cond (hsub cond hcond)
  rw [evalCond_rowCols h.cat hfits htables]
  exact h.evaluates cond (hsub cond hcond) env fun t ht => henv t (htables t ht)

theorem Database.Runs.scan_walks {s : ScanPlan} (h : db.Runs (.scan s))
    (hexec : convertPlanExecutor db fuel (.scan s) = some exec) :
    ∃ rows At, exec.cursor.Walks exec.init rows At := by
  have hbuilt := hexec
  obtain ⟨tab, htab, hbuilt⟩ := Option.bind_eq_some_iff.mp hbuilt
  obtain ⟨file, hfile, hbuilt⟩ := Option.bind_eq_some_iff.mp hbuilt
  split at hbuilt
  next hindex =>
    obtain ⟨index, tree, conds, hmeta, htree, hconds, rfl⟩ := indexScanExecutor_cases hbuilt
    have hlhs := fun cond hcond => Condition.onTable_lhs (h.onScan s List.mem_cons_self cond hcond)
    cases (swapConds_onTable hlhs).symm.trans hconds
    have hfits := h.indexes s List.mem_cons_self hindex tab index tree file htab hmeta htree hfile
    obtain ⟨rows, At, hwalks, -⟩ := hfits.walks (fun n => db.keyBuffers s n index.ixCols) _
    exact ⟨rows, At, hwalks⟩
  next =>
    rw [eq_of_seqScanExecutor hbuilt]
    have hcols : tab.cols = rowCols db.cat [s.tabName] := by simp [rowCols, htab]
    have hp : ∀ row ∈ file.rows, evalConds tab.cols s.conds row.2 =
        some (evalConds tab.cols s.conds row.2 == some true) := by
      intro row hrow
      have hin : row.2 ∈ db.records s.tabName := by
        rw [Database.records, hfile]
        exact List.mem_map_of_mem hrow
      have hsome := h.evaluated
        (fun cond hcond =>
          List.mem_append_left _ (List.mem_flatMap.mpr ⟨s, List.mem_cons_self, hcond⟩))
        fun t ht => List.mem_singleton.mp ht ▸ hin
      have hrow' : flatRow (Plan.scan s).order (fun _ => row.2) = row.2 := by
        simp [flatRow, Plan.order]
      rw [hrow', Plan.order, ← hcols] at hsome
      obtain ⟨b, hb⟩ := Option.isSome_iff_exists.mp hsome
      rw [hb]
      cases b with
      | true => rfl
      | false => rfl
    exact ⟨_, _, scanCursor_walks hp _⟩

/-- The rows of the two inputs of a join, and the tests of its conditions on their pairs. -/
theorem Database.Runs.eval_pairs {sm : Bool} {s : ScanPlan} {execL execR : Executor}
    {rowsL rowsR : List Bytes} (h : db.Runs (.join sm (.scan s) right conds))
    (hleft : execL.Gives db.cat right.order (db.answers right.order right.allConds))
    (hright : execR.Gives db.cat [s.tabName] (db.answers [s.tabName] (Plan.scan s).allConds))
    (hL : rowsL.Perm ((db.answers right.order right.allConds).map (flatRow right.order)))
    (hR : rowsR.Perm ((db.answers [s.tabName] (Plan.scan s).allConds).map (flatRow [s.tabName]))) :
    ∀ pair ∈ rowsL ×ˢ rowsR, evalConds (joinCols execL execR) conds (joinPairRow pair) =
      some (evalConds (joinCols execL execR) conds (joinPairRow pair) == some true) := by
  intro pair hpair
  obtain ⟨hl, hr⟩ := List.mem_product.mp hpair
  obtain ⟨env, henv, heq⟩ := List.mem_map.mp (hL.mem_iff.mp hl)
  obtain ⟨env', henv', heq'⟩ := List.mem_map.mp (hR.mem_iff.mp hr)
  have hdisjoint : right.order.Disjoint [s.tabName] := List.disjoint_of_nodup_append h.nodup
  have hcols : joinCols execL execR = rowCols db.cat (right.order ++ [s.tabName]) := by
    rw [joinCols, hleft.cols, hright.cols, hleft.tupleLen, rowCols_append]
  have hrow : joinPairRow pair = flatRow (right.order ++ [s.tabName])
      (Environments.merge right.order env env') := by
    rw [flatRow_merge hdisjoint, heq, heq']
    rfl
  have hrecords : ∀ t ∈ right.order ++ [s.tabName],
      Environments.merge right.order env env' t ∈ db.records t := by
    intro t ht
    have hleftRows := (Environments.mem_environments (List.mem_filter.mp henv).1).1
    have hrightRows := (Environments.mem_environments (List.mem_filter.mp henv').1).1
    by_cases hin : t ∈ right.order
    · rw [Environments.merge, if_pos hin]
      exact hleftRows t hin
    · rw [Environments.merge, if_neg hin]
      exact hrightRows t ((List.mem_append.mp ht).resolve_left hin)
  have hsome := h.evaluated (fun cond hcond =>
    (Plan.allConds_join sm (.scan s) right conds).mem_iff.mpr (List.mem_append_right _ hcond))
    hrecords
  rw [Plan.order, Plan.order, ← hcols, ← hrow] at hsome
  obtain ⟨b, hb⟩ := Option.isSome_iff_exists.mp hsome
  rw [hb]
  cases b with
  | true => rfl
  | false => rfl

theorem Database.Runs.scan_yields {s : ScanPlan} (h : db.Runs (.scan s)) (fuel : Nat) :
    ∃ exec rows At, convertPlanExecutor db fuel (.scan s) = some exec ∧
      exec.cursor.Walks exec.init rows At ∧
      exec.Gives db.cat [s.tabName] (db.answers [s.tabName] (Plan.scan s).allConds) ∧
      rows.Perm ((db.answers [s.tabName] (Plan.scan s).allConds).map (flatRow [s.tabName])) := by
  obtain ⟨exec, hexec⟩ := Option.isSome_iff_exists.mp (h.built s List.mem_cons_self fuel)
  obtain ⟨rows, At, hwalks⟩ := h.scan_walks hexec
  obtain ⟨s₀, hstart, hat⟩ := hwalks.start _ (Or.inl rfl)
  exact ⟨exec, rows, At, hexec, hwalks, h.gives hexec,
    (h.gives hexec).firstPass ⟨s₀, hstart, hwalks.delivers hat⟩⟩

/-- The records of a join are gone once they are read. -/
theorem Database.Runs.readsOnce (h : db.Runs plan) (hscan : ¬plan.IsScan)
    (hexec : convertPlanExecutor db fuel plan = some exec) (s : exec.cursor.State) (r : Bytes)
    (s' : exec.cursor.State) (hread : exec.cursor.read s = some (r, s')) :
    exec.cursor.read s' = none := by
  cases plan with
  | scan => exact absurd trivial hscan
  | join sm left right conds =>
    obtain ⟨rfl, -, -⟩ := h.chain
    obtain ⟨execR, -, hexec⟩ := Option.bind_eq_some_iff.mp hexec
    obtain ⟨execL, -, rfl⟩ := Option.map_eq_some_iff.mp hexec
    obtain ⟨tuple, -, heq⟩ := Option.map_eq_some_iff.mp hread
    cases heq
    rfl
  | null | scanSub | values | sort | aggr | projection => exact h.chain.elim

/-- A chain that fits gets through. -/
theorem chain_yields (h : db.Runs plan) (hfits : plan.Fits db) :
    ∃ n, ∀ fuel, n ≤ fuel → ∃ exec rows, plan.Yields db fuel exec rows := by
  induction plan with
  | scan s =>
    refine ⟨0, fun fuel _ => ?_⟩
    obtain ⟨exec, rows, At, hexec, hwalks, -, -⟩ := h.scan_yields fuel
    obtain ⟨s₀, hstart, hat⟩ := hwalks.start _ (Or.inl rfl)
    exact ⟨exec, rows, hexec, s₀, hstart, hwalks.delivers hat⟩
  | join sm left right conds _ ih =>
    obtain ⟨rfl, hscan, -⟩ := h.chain
    cases left with
    | scan s =>
      obtain ⟨hrightFits, hcase⟩ := hfits
      obtain ⟨n, hn⟩ := ih h.outer hrightFits
      refine ⟨max n ((db.answers right.order right.allConds).length *
        ((db.answers [s.tabName] (Plan.scan s).allConds).length + 1)), fun fuel hfuel => ?_⟩
      obtain ⟨execR, rowsR, AtR, hexecR, hwalksR, hgivesR, hpermR⟩ := h.inner.scan_yields fuel
      obtain ⟨execL, rowsL, hexecL, hpassL⟩ := hn fuel (le_trans (le_max_left _ _) hfuel)
      have hgivesL := h.outer.gives hexecL
      have hpermL := hgivesL.firstPass hpassL
      have heval := h.eval_pairs hgivesL hgivesR hpermL hpermR
      have hexec : convertPlanExecutor db fuel (.join false (.scan s) right conds) =
          some (nestedLoopJoinExecutor fuel execR execL conds) := by
        rw [convertPlanExecutor, hexecR, Option.bind_some, hexecL]
        rfl
      have hlenL : rowsL.length = (db.answers right.order right.allConds).length := by
        rw [hpermL.length_eq, List.length_map]
      have hlenR : rowsR.length = (db.answers [s.tabName] (Plan.scan s).allConds).length := by
        rw [hpermR.length_eq, List.length_map]
      have hbound : rowsL.length * (rowsR.length + 1) ≤ fuel := by
        rw [hlenL, hlenR]
        exact le_trans (le_max_right _ _) hfuel
      rw [Nat.mul_succ] at hbound
      suffices hpass : ∃ rows, (nestedLoopJoinExecutor fuel execR execL conds).FirstPass rows by
        obtain ⟨rows, hrows⟩ := hpass
        exact ⟨_, rows, hexec, hrows⟩
      by_cases hleftScan : right.IsScan
      · cases right with
        | scan s' =>
          obtain ⟨execL', rowsL', AtL, hexecL', hwalksL, -, hpermL'⟩ := h.outer.scan_yields fuel
          cases hexecL.symm.trans hexecL'
          have heval' := h.eval_pairs hgivesL hgivesR hpermL' hpermR
          refine ⟨_, nestedLoopCursor_delivers hwalksL hwalksR heval' ?_⟩
          have hlenL' : rowsL'.length = rowsL.length := by
            rw [hpermL'.length_eq, hpermL.length_eq]
            rfl
          rw [List.length_product, hlenL']
          omega
        | null | scanSub | values | join | sort | aggr | projection => exact hleftScan.elim
      · refine ⟨_, nestedLoopCursor_one_inner hpassL hwalksR ?_ heval (by omega)⟩
        rcases hcase.resolve_left hleftScan with hnil | hone
        · exact Or.inl (List.length_eq_zero_iff.mp (by rw [hlenL, hnil]; rfl))
        · exact Or.inr (by rw [hlenR]; exact hone)
    | null | scanSub | values | join | sort | aggr | projection => exact hscan.elim
  | null | scanSub | values | sort | aggr | projection => exact h.chain.elim

/-- A chain that gets through fits when every table has a record that meets its conditions. -/
theorem chain_fits (h : db.Runs plan)
    (hsome : ∀ s ∈ plan.scans, db.answers [s.tabName] s.conds ≠ [])
    (hyields : plan.Yields db fuel exec rows) : plan.Fits db := by
  induction plan generalizing exec rows with
  | scan s => trivial
  | join sm left right conds _ ih =>
    obtain ⟨rfl, hscan, -⟩ := h.chain
    cases left with
    | scan s =>
      obtain ⟨hexec, s₀, hstart, hdelivers⟩ := hyields
      obtain ⟨execR, hexecR, hexec⟩ := Option.bind_eq_some_iff.mp hexec
      obtain ⟨execL, hexecL, hexec⟩ := Option.map_eq_some_iff.mp hexec
      rw [if_neg (by simp)] at hexec
      subst hexec
      have hgivesL := h.outer.gives hexecL
      have hgivesR := h.inner.gives hexecR
      obtain ⟨rowsL, AtL, TakenL, AgainL, hhonestL, hpermL⟩ := hgivesL.rows
      obtain ⟨rowsR, AtR, TakenR, AgainR, hhonestR, hpermR⟩ := hgivesR.rows
      have hconds : (Plan.scan s).allConds = s.conds := by
        simp [Plan.allConds, Plan.scans, Plan.joinConds]
      have hlenR : rowsR.length = (db.answers [s.tabName] (Plan.scan s).allConds).length := by
        rw [hpermR.length_eq, List.length_map]
        rfl
      have hlenL : rowsL.length = (db.answers right.order right.allConds).length := by
        rw [hpermL.length_eq, List.length_map]
      have hneR : rowsR ≠ [] := by
        intro hnil
        rw [hnil, hconds, List.length_nil] at hlenR
        exact hsome s List.mem_cons_self (List.length_eq_zero_iff.mp hlenR.symm)
      by_cases hrightScan : right.IsScan
      · refine ⟨?_, Or.inl hrightScan⟩
        cases right with
        | scan => trivial
        | null | scanSub | values | join | sort | aggr | projection => exact hrightScan.elim
      · have hcase : rowsL = [] ∨ rowsR.length ≤ 1 := by
          by_contra hnot
          obtain ⟨hneL, htwo⟩ := not_or.mp hnot
          refine nestedLoopCursor_two_inner hhonestL hhonestR (h.outer.readsOnce hrightScan hexecL)
            hneL (by omega) hstart hdelivers
        refine ⟨?_, Or.inr ?_⟩
        · have hone : rowsL = [] ∨ ∃ b, rowsR = [b] := hcase.imp_right fun hle =>
            List.length_eq_one_iff.mp (Nat.le_antisymm hle (List.length_pos_of_ne_nil hneR))
          obtain ⟨l, rows', hstartL, hrows'⟩ :=
            nestedLoopCursor_left_delivers hhonestL hhonestR hone hstart hdelivers
          exact ih h.outer (fun s' hs' => hsome s' (List.mem_append_right _ hs'))
            ⟨hexecL, l, hstartL, hrows'⟩
        · rcases hcase with hnil | hle
          · left
            rw [hnil, List.length_nil] at hlenL
            exact List.length_eq_zero_iff.mp hlenL.symm
          · right
            rw [hlenR] at hle
            exact hle
    | null | scanSub | values | join | sort | aggr | projection => exact hscan.elim
  | null | scanSub | values | sort | aggr | projection => exact h.chain.elim

end Chains

section Planner

variable {plans : List Plan} {plan : Plan} {knobs : JoinKnobs} {cond : Condition}
  {conds : List Condition} {st : JoinState} {joined : List String}

/-- Every condition has a table in common with those before it. -/
def CondsLinked : List String → List Condition → Prop
  | _, [] => True
  | joined, cond :: conds =>
    (cond.lhsCol.tabName ∈ joined ∨ cond.rhsCol.tabName ∈ joined) ∧
      CondsLinked (cond.lhsCol.tabName :: cond.rhsCol.tabName :: joined) conds

/-- The same for the join conditions of a query. -/
def JoinsLinked : List Condition → Prop
  | [] => True
  | cond :: conds => CondsLinked [cond.lhsCol.tabName, cond.rhsCol.tabName] conds

theorem pushConds_chain (cond : Condition) (h : plan.Chain) : (pushConds cond plan).1.Chain := by
  induction plan with
  | scan => trivial
  | join sm left right conds _ ihRight =>
    obtain ⟨hsm, hleft, hright⟩ := h
    cases left with
    | scan s =>
      have hscan : ∀ left', pushConds cond (.scan s) ≠ (left', .placed) := by
        intro left' heq
        simp only [pushConds, Prod.mk.injEq] at heq
        have hnot := heq.2
        unfold pushScan at hnot
        split at hnot
        · cases hnot
        · split at hnot
          · cases hnot
          · cases hnot
      unfold pushConds
      split
      next left' hl => exact absurd hl (hscan left')
      next =>
        split
        next right' hr =>
          have hright' := ihRight hright
          rw [hr] at hright'
          exact ⟨hsm, hleft, hright'⟩
        next =>
          split
          · exact ⟨hsm, hleft, hright⟩
          · exact ⟨hsm, hleft, hright⟩
    | null | scanSub | values | join | sort | aggr | projection => exact hleft.elim
  | null | scanSub | values | sort | aggr | projection => exact h.elim

section

variable (hplans : ∀ plan ∈ plans, plan.IsScan)

include hplans

theorem getD_isScan {i : Nat} (hi : i < plans.length) : (plans.getD i .null).IsScan := by
  rw [List.getD_eq_getElem _ _ hi]
  exact hplans _ (List.getElem_mem hi)

theorem getD_isScan_of_tabName {i : Nat} {t : String}
    (h : (plans.getD i .null).tabName = some t) : (plans.getD i .null).IsScan := by
  by_cases hi : i < plans.length
  · exact getD_isScan hplans hi
  · rw [List.getD_eq_default _ _ (Nat.le_of_not_lt hi)] at h
    cases h

theorem joinStep_chain (hcond : cond.Joins plans)
    (hlinked : cond.lhsCol.tabName ∈ st.joinedTables ∨ cond.rhsCol.tabName ∈ st.joinedTables)
    (h : st.plan.Chain) :
    (joinStep plans st cond).plan.Chain ∧
      cond.lhsCol.tabName ∈ (joinStep plans st cond).joinedTables ∧
      cond.rhsCol.tabName ∈ (joinStep plans st cond).joinedTables ∧
      ∀ t ∈ st.joinedTables, t ∈ (joinStep plans st cond).joinedTables := by
  cases joinRound hcond st with
  | push hlhs hrhs hstep =>
    rw [show joinStep plans st cond = _ from hstep st.plan]
    exact ⟨pushConds_chain cond h, hlhs, hrhs, fun t ht => ht⟩
  | addRight j hj _ hlhs _ hstep =>
    rw [show joinStep plans st cond = _ from hstep st.plan]
    exact ⟨⟨rfl, getD_isScan hplans hj, h⟩, List.mem_append_left _ hlhs, by simp,
      fun t ht => List.mem_append_left _ ht⟩
  | addLeft i hi _ _ hrhs hstep =>
    rw [show joinStep plans st cond = _ from hstep st.plan]
    exact ⟨⟨rfl, getD_isScan hplans hi, h⟩, by simp, List.mem_append_left _ hrhs,
      fun t ht => List.mem_append_left _ ht⟩
  | addBoth i j _ _ _ _ hlhs hrhs _ => exact (hlinked.elim hlhs hrhs).elim

theorem joinSteps_chain (hconds : ∀ cond ∈ conds, cond.Joins plans)
    (hlinked : CondsLinked joined conds)
    (hjoined : ∀ t ∈ joined, t ∈ st.joinedTables) (h : st.plan.Chain) :
    (conds.foldl (joinStep plans) st).plan.Chain := by
  induction conds generalizing st joined with
  | nil => exact h
  | cons cond conds ih =>
    obtain ⟨hhere, hlater⟩ := hlinked
    obtain ⟨hchain, hlhs, hrhs, hold⟩ := joinStep_chain hplans (hconds cond List.mem_cons_self)
      (hhere.imp (hjoined _) (hjoined _)) h
    refine ih (fun c hc => hconds c (List.mem_cons_of_mem cond hc)) hlater (fun t ht => ?_) hchain
    rcases List.mem_cons.mp ht with rfl | ht
    · exact hlhs
    · rcases List.mem_cons.mp ht with rfl | ht
      · exact hrhs
      · exact hold t (hjoined t ht)

theorem restJoins_chain (h : st.plan.Chain) : (restJoins plans st).Chain := by
  unfold restJoins
  have hbound : ∀ i ∈ List.range plans.length, i < plans.length := fun i hi => List.mem_range.mp hi
  generalize st.plan = plan at h
  generalize List.range plans.length = is at hbound
  induction is generalizing plan with
  | nil => exact h
  | cons i is ih =>
    rw [List.foldl_cons]
    have hrest : ∀ j ∈ is, j < plans.length := fun j hj => hbound j (List.mem_cons_of_mem i hj)
    split
    next => exact ih plan h hrest
    next => exact ih _ ⟨rfl, getD_isScan hplans (hbound i List.mem_cons_self), h⟩ hrest

/-- Linked conditions are joined one table after the other. -/
theorem joinTables_chain (hknobs : knobs.nestedloop = true) (hne : plans ≠ [])
    (hconds : ∀ cond ∈ conds, cond.Joins plans) (hlinked : JoinsLinked conds)
    (h : joinTables knobs plans conds = some plan) : plan.Chain := by
  cases conds with
  | nil =>
    cases h
    have hscan := getD_isScan hplans (List.length_pos_of_ne_nil hne)
    refine restJoins_chain hplans ?_
    exact hscan.chain
  | cons cond conds =>
    obtain ⟨st, hst, rfl⟩ := Option.map_eq_some_iff.mp h
    obtain ⟨i, j, -, hi, hj, hfirst, -⟩ := firstJoin_eq (hconds cond List.mem_cons_self)
    rw [hfirst, if_pos hknobs] at hst
    cases hst
    refine restJoins_chain hplans (joinSteps_chain hplans
      (fun c hc => hconds c (List.mem_cons_of_mem cond hc)) hlinked (fun t ht => ?_) ?_)
    · simp only [List.mem_cons, List.not_mem_nil, or_false] at ht
      rcases ht with rfl | rfl
      · simp
      · simp
    · exact ⟨rfl, getD_isScan_of_tabName hplans hi, (getD_isScan_of_tabName hplans hj).chain⟩

end

end Planner

section Evaluates

variable {db : Database} {cond : Condition} {target : TabCol} {col : ColMeta}
  {env : String → Bytes}

/-- An INT or CHAR column of its table. -/
def PlainCol (cat : Catalog) (target : TabCol) (col : ColMeta) : Prop :=
  ∃ tab, cat target.tabName = some tab ∧ tab.getCol target.colName = some col ∧
    col.Plain tab.tupleLen

/-- A condition between such a column and a literal or a column of its type. -/
def Condition.Typed (cat : Catalog) (cond : Condition) : Prop :=
  ∃ col, PlainCol cat cond.lhsCol col ∧
    if cond.isRhsVal then ∃ v, cond.rhsVal = some v ∧ v.type = col.type
    else ∃ col', PlainCol cat cond.rhsCol col' ∧ col'.type = col.type

theorem PlainCol.valueIn (h : PlainCol db.cat target col) (hfit : db.TablesFit [target.tabName])
    (henv : env target.tabName ∈ db.records target.tabName) :
    ∃ v, valueIn db.cat env target = some v ∧ v.type = col.type := by
  obtain ⟨tab, htab, hcol, hplain⟩ := h
  have hlen := hfit.rows _ List.mem_cons_self tab htab _ henv
  obtain ⟨v, hv, htype⟩ := ColMeta.Plain.read (hlen ▸ hplain)
  refine ⟨v, ?_, htype⟩
  rw [Grmdb.valueIn, columnOf, htab, Option.bind_some, hcol, Option.bind_some, hv]

theorem Condition.Typed.evaluates (h : cond.Typed db.cat)
    (hfit : ∀ t ∈ cond.tables, db.TablesFit [t]) : db.Evaluates cond := by
  obtain ⟨col, hcol, hside⟩ := h
  intro env henv
  obtain ⟨v, hv, htype⟩ :=
    hcol.valueIn (hfit _ List.mem_cons_self) (henv _ List.mem_cons_self)
  have hplain : v.type = .int ∨ v.type = .string := by
    obtain ⟨tab, -, -, hplain⟩ := hcol
    rw [htype]
    exact hplain.int_or_string
  have hright : ∃ w, (if cond.isRhsVal then cond.rhsVal else Grmdb.valueIn db.cat env cond.rhsCol) =
      some w ∧ w.type = col.type := by
    cases hval : cond.isRhsVal with
    | true =>
      rw [hval, if_pos rfl] at hside
      rw [if_pos rfl]
      exact hside
    | false =>
      rw [hval, if_neg (by simp)] at hside
      rw [if_neg (by simp)]
      obtain ⟨col', hcol', hsame⟩ := hside
      have hin : cond.rhsCol.tabName ∈ cond.tables := by simp [Condition.tables, hval]
      obtain ⟨w, hw, hwtype⟩ := hcol'.valueIn (hfit _ hin) (henv _ hin)
      exact ⟨w, hw, hwtype.trans hsame⟩
  obtain ⟨w, hw, hwtype⟩ := hright
  rw [Condition.evalIn, hv, Option.bind_some, hw, Option.bind_some,
    Value.comp_meets (htype.trans hwtype.symm) hplain]
  rfl

end Evaluates

section Relation

variable {db : Database} {knobs : JoinKnobs} {tables : List String} {conds : List Condition}
  {plan : Plan}

theorem Database.Evaluates.mirrors {cond cond' : Condition} (h : db.Evaluates cond)
    (hmirror : cond.Mirrors cond') (hval : cond' = cond.swap → cond.isRhsVal = false) :
    db.Evaluates cond' := by
  rcases hmirror with rfl | rfl
  · exact h
  · intro env henv
    have hcol := hval rfl
    have hcol' : cond.swap.isRhsVal = false := hcol
    rw [Condition.evalIn_swap hcol]
    refine h env fun t ht => henv t ?_
    simp only [Condition.tables, hcol, Bool.false_eq_true, if_false, List.mem_cons,
      List.not_mem_nil, or_false] at ht
    simp only [Condition.tables, hcol', Bool.false_eq_true, if_false, List.mem_cons,
      List.not_mem_nil, or_false]
    exact ht.symm

theorem makeOneRel_chain (hknobs : knobs.nestedloop = true) (hne : tables ≠ [])
    (hchecked : ∀ cond ∈ conds, cond.Checked)
    (hin : ∀ cond ∈ conds, ∀ t ∈ cond.tables, t ∈ tables)
    (hlinked : JoinsLinked (conds.filter fun cond => cond.isJoin))
    (h : makeOneRel db.cat knobs (fun _ s => .scan s) tables conds = some plan) : plan.Chain := by
  obtain ⟨⟨scans, left⟩, hscans, -⟩ := Option.bind_eq_some_iff.mp h
  rcases makeOneRel_cases hne scanLeaf_scan hchecked hin hscans h with
    ⟨s, -, -, rfl⟩ | ⟨hplans, -, hjoins, htop⟩
  · trivial
  · rw [← left_eq hin hscans] at hlinked
    refine joinTables_chain (fun p hp => ?_) hknobs hplans hjoins hlinked htop
    obtain ⟨i, s, -, rfl⟩ := mapIdx_mem hp
    trivial

theorem makeOneRel_runs (hknobs : knobs.nestedloop = true) (hne : tables ≠ [])
    (hnodup : tables.Nodup) (hnamed : "" ∉ tables) (hchecked : ∀ cond ∈ conds, cond.Checked)
    (hcat : ∀ t ∈ tables, (db.cat t).isSome) (hplaces : PlacesConds db.cat knobs tables conds)
    (hlinked : JoinsLinked (conds.filter fun cond => cond.isJoin))
    (h : makeOneRel db.cat knobs (fun _ s => .scan s) tables conds = some plan)
    (hfit : db.TablesFit tables) (hindexes : db.IndexesFit plan)
    (hevaluates : ∀ cond ∈ conds, db.Evaluates cond)
    (hbuilt : ∀ s ∈ plan.scans, (convertPlanExecutor db 0 (.scan s)).isSome) : db.Runs plan := by
  have hkeeps := hplaces.keeps hne scanLeaf_scan hchecked h
  have hchain := makeOneRel_chain hknobs hne hchecked hplaces.inFrom hlinked h
  have hperm := hchain.nestedLoops.order_perm.trans hkeeps.tables
  have hon : ∀ s ∈ plan.scans, ∀ cond ∈ s.conds, cond.onTable s.tabName = true :=
    fun s hs cond hcond => (List.mem_filter.mp ((hkeeps.onScan s hs).mem_iff.mp hcond)).2
  have hmem : ∀ t ∈ plan.order, t ∈ tables := fun t ht => hperm.mem_iff.mp ht
  obtain ⟨there, hmirrors, hthere⟩ := hkeeps.all
  refine ⟨hchain, ⟨fun t ht => hfit.cols t (hmem t ht), fun t ht => hfit.rows t (hmem t ht)⟩,
    fun t ht => hcat t (hmem t ht), hperm.nodup_iff.mpr hnodup, hkeeps.placed, hon, hindexes,
    fun cond' hcond' => ?_, fun s hs fuel => hbuilt s hs⟩
  obtain ⟨cond, hcond, hmirror⟩ := MapM.forall₂_mem_right hmirrors (hthere.mem_iff.mp hcond')
  refine (hevaluates cond hcond).mirrors hmirror fun hswap => ?_
  -- the mirror image of a condition with a literal would have no table
  cases hval : cond.isRhsVal with
  | false => rfl
  | true =>
    subst hswap
    have htab := Plan.allConds_tables hchain.nestedLoops hkeeps.placed hon _ hcond'
      cond.rhsCol.tabName List.mem_cons_self
    rw [(hchecked cond hcond).val hval] at htab
    exact absurd (hmem _ htab) hnamed

/-- A query over linked tables, each with a record that meets the conditions on it, gets through
exactly when each join over another join has nothing to join or a single record to join it with, and
then it delivers the answers. Two tables always fit. -/
theorem makeOneRel_yields_iff (db : Database) (knobs : JoinKnobs) (tables : List String)
    (conds : List Condition) (plan : Plan) (hknobs : knobs.nestedloop = true) (hne : tables ≠ [])
    (hnodup : tables.Nodup) (hnamed : "" ∉ tables) (hchecked : ∀ cond ∈ conds, cond.Checked)
    (hcat : ∀ t ∈ tables, (db.cat t).isSome) (hplaces : PlacesConds db.cat knobs tables conds)
    (hlinked : JoinsLinked (conds.filter fun cond => cond.isJoin))
    (h : makeOneRel db.cat knobs (fun _ s => .scan s) tables conds = some plan)
    (hfit : db.TablesFit tables) (hindexes : db.IndexesFit plan)
    (hevaluates : ∀ cond ∈ conds, db.Evaluates cond)
    (hbuilt : ∀ s ∈ plan.scans, (convertPlanExecutor db 0 (.scan s)).isSome)
    (hsome : ∀ t ∈ tables, db.answers [t] (conds.filter fun cond => cond.onTable t) ≠ []) :
    ((∃ fuel exec rows, plan.Yields db fuel exec rows) ↔ plan.Fits db) ∧
      (plan.Fits db → ∃ n, ∀ fuel, n ≤ fuel → ∃ exec rows, plan.Yields db fuel exec rows ∧
        rows.Perm ((db.answers plan.order conds).map (flatRow plan.order))) := by
  have hruns := makeOneRel_runs hknobs hne hnodup hnamed hchecked hcat hplaces hlinked h hfit
    hindexes hevaluates hbuilt
  have hkeeps := hplaces.keeps hne scanLeaf_scan hchecked h
  refine ⟨⟨?_, fun hfits => ?_⟩, fun hfits => ?_⟩
  · rintro ⟨fuel, exec, rows, hyields⟩
    refine chain_fits hruns (fun s hs => ?_) hyields
    rw [Database.answers_conds_perm (hkeeps.onScan s hs)]
    exact hsome _ (hkeeps.tables.mem_iff.mp (List.mem_map_of_mem hs))
  · obtain ⟨n, hn⟩ := chain_yields hruns hfits
    obtain ⟨exec, rows, hyields⟩ := hn n le_rfl
    exact ⟨n, exec, rows, hyields⟩
  · obtain ⟨n, hn⟩ := chain_yields hruns hfits
    refine ⟨n, fun fuel hfuel => ?_⟩
    obtain ⟨exec, rows, hyields⟩ := hn fuel hfuel
    have hgives := (makeOneRel_gives hknobs hne hnodup hnamed hchecked hcat hplaces h hfit hindexes
      hyields.1).2
    exact ⟨exec, rows, hyields, hgives.firstPass hyields.2⟩

/-- `a.x = b.x AND b.x = c.x`. -/
def tripleConds : List Condition := [sameX, ⟨⟨"b", "x"⟩, .eq, false, ⟨"c", "x"⟩, none⟩]

/-- The plan for them: `c` is joined to the join of `a` and `b`. -/
def triplePlan : Plan :=
  .join false (.scan ⟨false, "c", [], []⟩)
    (.join false (.scan ⟨false, "a", [], []⟩) (.scan ⟨false, "b", [], []⟩) [sameX])
    [⟨⟨"c", "x"⟩, .eq, false, ⟨"b", "x"⟩, none⟩]

/-- With two records in `c` the join of the three tables does not get through. -/
theorem makeOneRel_yields_iff_triple :
    ¬∃ fuel exec rows, triplePlan.Yields (joinDatabase sameXRows) fuel exec rows := by
  have hiff := makeOneRel_yields_iff (joinDatabase sameXRows) ⟨true, false⟩ ["a", "b", "c"]
    tripleConds triplePlan rfl (by decide) (by decide) (by decide) ?_ ?_
    ⟨by decide, ?_, ?_, ?_, Or.inl rfl⟩ ⟨Or.inl (by decide), trivial⟩ (by decide) ⟨?_, ?_⟩ ?_ ?_
    (by decide) ?_
  · refine hiff.1.not.mpr ?_
    rintro ⟨-, hcase⟩
    rcases hcase with hscan | hnil | hone
    · exact hscan.elim
    · exact absurd (congrArg List.length hnil) (by decide)
    · exact absurd hone (by decide)
  · intro cond hcond
    simp only [tripleConds, List.mem_cons, List.not_mem_nil, or_false] at hcond
    rcases hcond with rfl | rfl
    · exact ⟨by decide, by decide, by decide⟩
    · exact ⟨by decide, by decide, by decide⟩
  · intro t _
    rfl
  · intro cond hcond hsame
    have hnone : ∀ cond ∈ tripleConds, cond.lhsCol.tabName ≠ cond.rhsCol.tabName := by decide
    exact absurd hsame.2 (hnone cond hcond)
  · intro cond _ t _
    exact List.nodup_iff_count_le_one.mp (by decide) t
  · intro t _ tab htab _
    cases htab
    trivial
  · intro t _ tab htab
    cases htab
    simp [TabMeta.tupleLen]
  · intro t ht tab htab
    cases htab
    revert t
    decide
  · intro s _ _ tab index tree file _ _ htree
    cases htree
  · intro cond hcond
    have hfit : ∀ t ∈ ["a", "b", "c"], (joinDatabase sameXRows).TablesFit [t] := by
      intro t ht
      refine ⟨fun u _ tab htab => ?_, fun u hu tab htab => ?_⟩
      · cases htab
        simp [TabMeta.tupleLen]
      · cases htab
        cases List.mem_singleton.mp hu
        revert t
        decide
    have hplain : ∀ t, PlainCol pairCatalog ⟨t, "x"⟩ ⟨t, "x", .int, 4, 0⟩ := fun t =>
      ⟨_, rfl, rfl, Or.inl ⟨rfl, rfl⟩, by simp [TabMeta.tupleLen]⟩
    simp only [tripleConds, List.mem_cons, List.not_mem_nil, or_false] at hcond
    rcases hcond with rfl | rfl
    · exact Condition.Typed.evaluates ⟨_, hplain "a", _, hplain "b", rfl⟩ fun t ht =>
        hfit t (by revert t; decide)
    · exact Condition.Typed.evaluates ⟨_, hplain "b", _, hplain "c", rfl⟩ fun t ht =>
        hfit t (by revert t; decide)
  · intro t ht hnil
    have hlen : ∀ t ∈ ["a", "b", "c"], ((joinDatabase sameXRows).answers [t]
        (tripleConds.filter fun cond => cond.onTable t)).length ≠ 0 := by decide
    exact hlen t ht (congrArg List.length hnil)

end Relation

end Grmdb
