import Grmdb.MergeJoin
import Grmdb.ScanExecutors

namespace Grmdb

open MergeJoin

/-- The columns of a joined record: those of the right input come after the left record. -/
def joinCols (left right : Executor) : List ColMeta :=
  left.cols ++ right.cols.map fun col => { col with offset := col.offset + left.tupleLen }

section NestedLoop

/-- `isend`, `is_last_tuple_` and `record_` of `NestedLoopJoinExecutor` with its two inputs. -/
structure NestedLoopState (σ τ : Type) where
  left : σ
  right : τ
  isEnd : Bool
  isLast : Bool
  record : Option Bytes

variable (left right : Cursor Bytes) (eval : Bytes → Option Bool)

/-- One round of the loop up to the test of the conditions. The inputs have then moved on. -/
def nestedLoopRound (s : NestedLoopState left.State right.State) :
    Option (Bytes × NestedLoopState left.State right.State) :=
  (left.read s.left).bind fun (leftTuple, l) =>
    (right.read s.right).bind fun (rightTuple, r) =>
      (right.advance r).bind fun r =>
        let tuple := leftTuple ++ rightTuple
        if right.atEnd r then
          (left.advance l).bind fun l =>
            (right.start r).map fun r =>
              if left.atEnd l then
                (tuple, { s with left := l, right := r, isEnd := true, isLast := true })
              else (tuple, { s with left := l, right := r })
        else some (tuple, { s with left := l, right := r })

/-- The loop that `beginTuple` and `nextTuple` share. -/
def nestedLoop : Nat → NestedLoopState left.State right.State →
    Option (NestedLoopState left.State right.State)
  | 0, s => if s.isLast then some s else none
  | fuel + 1, s =>
    if s.isLast then some s
    else
      (nestedLoopRound left right s).bind fun (tuple, s) =>
        (eval tuple).bind fun ok =>
          if ok then
            some { s with record := some tuple, isEnd := if s.isLast then false else s.isEnd }
          else nestedLoop fuel s

/-- `Next` moves the record out: the call after it returns a null pointer. The flags are set once
and never taken back. -/
def nestedLoopCursor (fuel : Nat) : Cursor Bytes where
  State := NestedLoopState left.State right.State
  start s :=
    (left.start s.left).bind fun l =>
      (right.start s.right).bind fun r =>
        if left.atEnd l ∨ right.atEnd r then
          some { s with left := l, right := r, isEnd := true, isLast := true }
        else nestedLoop left right eval fuel { s with left := l, right := r }
  advance s :=
    nestedLoop left right eval fuel (if s.isLast then { s with isEnd := true } else s)
  atEnd s := s.isEnd
  read s := s.record.map fun tuple => (tuple, { s with record := none })

end NestedLoop

/-- `NestedLoopJoinExecutor`. The constructor exchanges the inputs. -/
def nestedLoopJoinExecutor (fuel : Nat) (planLeft planRight : Executor) (conds : List Condition) :
    Executor :=
  let left := planRight
  let right := planLeft
  let cols := joinCols left right
  ⟨cols, left.tupleLen + right.tupleLen,
    nestedLoopCursor left.cursor right.cursor (evalConds cols conds) fuel,
    ⟨left.init, right.init, false, false, none⟩⟩

section SortMerge

structure SortMergeState (σ τ : Type) where
  left : σ
  right : τ
  isEnd : Bool
  record : Option Bytes

variable (cols : List ColMeta) (rhs : Condition → TabCol) (left right : Cursor Bytes)

/-- The loop over the conditions for one pair of tuples. A side that moves on does not change the
pair. The result says whether the pair is taken. -/
def sortMergeConds (leftTuple rightTuple : Bytes) : List Condition →
    SortMergeState left.State right.State → Option (Bool × SortMergeState left.State right.State)
  | [], s => some (false, s)
  | cond :: conds, s =>
    (getValue cols cond.lhsCol leftTuple).bind fun leftVal =>
      (getValue cols (rhs cond) rightTuple).bind fun rightVal =>
        (leftVal.comp rightVal .lt).bind fun lt =>
          if lt then
            (left.advance s.left).bind fun l =>
              sortMergeConds leftTuple rightTuple conds { s with left := l }
          else
            (leftVal.comp rightVal .gt).bind fun gt =>
              (right.advance s.right).bind fun r =>
                if gt then sortMergeConds leftTuple rightTuple conds { s with right := r }
                else some (true, { s with right := r, record := some (leftTuple ++ rightTuple) })

/-- The loop that `beginTuple` and `nextTuple` share but for the column of the right side. -/
def sortMerge (conds : List Condition) : Nat → SortMergeState left.State right.State →
    Option (SortMergeState left.State right.State)
  | 0, s => if left.atEnd s.left ∨ right.atEnd s.right then some { s with isEnd := true } else none
  | fuel + 1, s =>
    if left.atEnd s.left ∨ right.atEnd s.right then some { s with isEnd := true }
    else
      (left.read s.left).bind fun (leftTuple, l) =>
        (right.read s.right).bind fun (rightTuple, r) =>
          (sortMergeConds cols rhs left right leftTuple rightTuple conds
            { s with left := l, right := r }).bind fun (taken, s) =>
            if taken then some s else sortMerge conds fuel s

/-- `output_sorted`, which runs an input once to write its records to a file. -/
def outputSorted (fuel : Nat) (input : Cursor Bytes) (s : input.State) : Option input.State :=
  (input.start s).bind fun s => (input.collect fuel s).map Prod.snd

def sortMergeCursor (conds : List Condition) (fuel : Nat) : Cursor Bytes where
  State := SortMergeState left.State right.State
  start s :=
    (outputSorted fuel left s.left).bind fun l =>
      (outputSorted fuel right s.right).bind fun r =>
        (left.start l).bind fun l =>
          (right.start r).bind fun r =>
            sortMerge cols Condition.rhsCol left right conds fuel { s with left := l, right := r }
  -- `lhs_col` is read on both sides here
  advance s := sortMerge cols Condition.lhsCol left right conds fuel s
  atEnd s := s.isEnd
  read s := s.record.map fun tuple => (tuple, { s with record := none })

end SortMerge

/-- `SortMergeExecutor`. It looks its columns up where they are in the inputs. -/
def sortMergeExecutor (fuel : Nat) (planLeft planRight : Executor) (conds : List Condition) :
    Executor :=
  let left := planRight
  let right := planLeft
  ⟨joinCols left right, left.tupleLen + right.tupleLen,
    sortMergeCursor (left.cols ++ right.cols) left.cursor right.cursor conds fuel,
    ⟨left.init, right.init, false, none⟩⟩

section NestedLoop

variable {left right : Cursor Bytes} {eval : Bytes → Option Bool} {l₀ : left.State}
  {r₀ : right.State} {rowsL rowsR : List Bytes} {AtL : List Bytes → left.State → Prop}
  {AtR : List Bytes → right.State → Prop} {p : Bytes × Bytes → Bool} {fuel : Nat}
  {s s' : NestedLoopState left.State right.State} {pair : Bytes × Bytes}
  {rest pairs : List (Bytes × Bytes)}

def joinPairRow (pair : Bytes × Bytes) : Bytes := pair.1 ++ pair.2

/-- The pairs that the loop has not come to. -/
def PairsAhead (rowsL rowsR : List Bytes) (AtL : List Bytes → left.State → Prop)
    (AtR : List Bytes → right.State → Prop) :
    List (Bytes × Bytes) → NestedLoopState left.State right.State → Prop
  | [], s => s.isLast = true ∧ (∃ restL, AtL restL s.left) ∧ ∃ restR, AtR restR s.right
  | pair :: rest, s => s.isLast = false ∧
    ∃ restL restR, AtL (pair.1 :: restL) s.left ∧ AtR (pair.2 :: restR) s.right ∧
      pair.1 :: restL <:+ rowsL ∧ pair.2 :: restR <:+ rowsR ∧
      rest = restR.map (Prod.mk pair.1) ++ restL ×ˢ rowsR

theorem PairsAhead.pair_mem (h : PairsAhead rowsL rowsR AtL AtR (pair :: rest) s) :
    pair ∈ rowsL ×ˢ rowsR := by
  obtain ⟨-, restL, restR, -, -, hl, hr, -⟩ := h
  exact List.mem_product.mpr ⟨hl.subset List.mem_cons_self, hr.subset List.mem_cons_self⟩

theorem PairsAhead.frame (h : PairsAhead rowsL rowsR AtL AtR pairs s) (record : Option Bytes)
    (isEnd : Bool) :
    PairsAhead rowsL rowsR AtL AtR pairs { s with record := record, isEnd := isEnd } := by
  cases pairs with
  | nil => exact h
  | cons pair rest => exact h

theorem nestedLoopRound_ahead (hL : left.Walks l₀ rowsL AtL) (hR : right.Walks r₀ rowsR AtR)
    (h : PairsAhead rowsL rowsR AtL AtR (pair :: rest) s) :
    ∃ s', nestedLoopRound left right s = some (joinPairRow pair, s') ∧
      PairsAhead rowsL rowsR AtL AtR rest s' ∧
      s'.isEnd = (if rest = [] then true else s.isEnd) ∧ s'.record = s.record := by
  obtain ⟨hlast, restL, restR, hl, hr, hsl, hsr, rfl⟩ := h
  obtain ⟨l, hreadL, hl⟩ := hL.read _ _ _ hl
  obtain ⟨r, hreadR, hr⟩ := hR.read _ _ _ hr
  obtain ⟨r', hadvR, hr'⟩ := hR.advance _ _ _ hr
  have hendR := hR.atEnd _ _ hr'
  cases restR with
  | cons b restR =>
    -- the right side goes on
    refine ⟨{ s with left := l, right := r' }, ?_, ⟨hlast, restL, restR, hl, hr', hsl,
      (List.suffix_cons _ _).trans hsr, rfl⟩, by simp, rfl⟩
    simp [nestedLoopRound, hreadL, hreadR, hadvR, hendR, joinPairRow]
  | nil =>
    obtain ⟨l', hadvL, hl'⟩ := hL.advance _ _ _ hl
    have hendL := hL.atEnd _ _ hl'
    obtain ⟨r'', hstart, hr''⟩ := hR.start r' (Or.inr ⟨[], hr'⟩)
    cases restL with
    | nil =>
      refine ⟨{ s with left := l', right := r'', isEnd := true, isLast := true }, ?_,
        ⟨rfl, ⟨[], hl'⟩, rowsR, hr''⟩, by simp, rfl⟩
      simp [nestedLoopRound, hreadL, hreadR, hadvR, hendR, hadvL, hstart, hendL, joinPairRow]
    | cons a restL =>
      obtain ⟨b, rowsR', hrows⟩ := List.exists_cons_of_ne_nil
        (List.ne_nil_of_mem (hsr.subset List.mem_cons_self))
      have hrest : ([] : List Bytes).map (Prod.mk pair.1) ++ (a :: restL) ×ˢ rowsR =
          (a, b) :: (rowsR'.map (Prod.mk a) ++ restL ×ˢ rowsR) := by
        rw [List.map_nil, List.nil_append, List.product_cons]
        nth_rewrite 1 [hrows]
        rfl
      rw [hrest]
      refine ⟨{ s with left := l', right := r'' }, ?_, ⟨hlast, restL, rowsR', hl', hrows ▸ hr'',
        (List.suffix_cons _ _).trans hsl, hrows ▸ List.suffix_refl _, rfl⟩, by simp, rfl⟩
      simp [nestedLoopRound, hreadL, hreadR, hadvR, hendR, hadvL, hstart, hendL, joinPairRow]

/-- The loop stops at the first pair that is selected, or behind the last one. -/
theorem nestedLoop_ahead (hL : left.Walks l₀ rowsL AtL) (hR : right.Walks r₀ rowsR AtR)
    (hp : ∀ pair ∈ rowsL ×ˢ rowsR, eval (joinPairRow pair) = some (p pair))
    (h : PairsAhead rowsL rowsR AtL AtR pairs s)
    (hend : s.isEnd = pairs.isEmpty) (hloop : nestedLoop left right eval fuel s = some s') :
    (pairs.filter p = [] ∧ PairsAhead rowsL rowsR AtL AtR [] s' ∧ s'.isEnd = true) ∨
      ∃ pair rest, pairs.filter p = pair :: rest.filter p ∧ s'.isEnd = false ∧
        s'.record = some (joinPairRow pair) ∧ PairsAhead rowsL rowsR AtL AtR rest s' ∧
        rest.length < pairs.length := by
  induction fuel generalizing s pairs with
  | zero =>
    cases pairs with
    | nil =>
      rw [nestedLoop, if_pos h.1] at hloop
      cases hloop
      exact Or.inl ⟨rfl, h, hend⟩
    | cons pair rest => simp [nestedLoop, h.1] at hloop
  | succ fuel ih =>
    cases pairs with
    | nil =>
      rw [nestedLoop, if_pos h.1] at hloop
      cases hloop
      exact Or.inl ⟨rfl, h, hend⟩
    | cons pair rest =>
      obtain ⟨s₁, hround, hahead, hend₁, -⟩ := nestedLoopRound_ahead hL hR h
      have hpair := hp pair h.pair_mem
      rw [nestedLoop, if_neg (by simp [h.1]), hround, Option.bind_some] at hloop
      simp only [hpair, Option.bind_some] at hloop
      cases hok : p pair with
      | true =>
        rw [hok, if_pos rfl] at hloop
        cases hloop
        refine Or.inr ⟨pair, rest, by rw [List.filter_cons, if_pos hok], ?_, rfl,
          hahead.frame _ _, Nat.lt_succ_self _⟩
        cases rest with
        | nil => simp [hahead.1]
        | cons pair' rest => simpa [hahead.1, hend] using hend₁
      | false =>
        rw [hok, if_neg (by simp)] at hloop
        have hskip : (pair :: rest).filter p = rest.filter p := by
          rw [List.filter_cons, if_neg (by simp [hok])]
        rw [hskip]
        have hend₁' : s₁.isEnd = rest.isEmpty := by
          rw [hend₁, hend]
          cases rest with
          | nil => rfl
          | cons pair' rest => rfl
        rcases ih hahead hend₁' hloop with hnone | ⟨found, rest', hfilter, hend', hrec, hat, hlen⟩
        · exact Or.inl hnone
        · exact Or.inr ⟨found, rest', hfilter, hend', hrec, hat, Nat.lt_succ_of_lt hlen⟩

theorem nestedLoop_isSome (hL : left.Walks l₀ rowsL AtL) (hR : right.Walks r₀ rowsR AtR)
    (hp : ∀ pair ∈ rowsL ×ˢ rowsR, eval (joinPairRow pair) = some (p pair))
    (h : PairsAhead rowsL rowsR AtL AtR pairs s) (hfuel : pairs.length ≤ fuel) :
    ∃ s', nestedLoop left right eval fuel s = some s' := by
  induction pairs generalizing s fuel with
  | nil =>
    refine ⟨s, ?_⟩
    cases fuel with
    | zero => rw [nestedLoop, if_pos h.1]
    | succ fuel => rw [nestedLoop, if_pos h.1]
  | cons pair rest ih =>
    cases fuel with
    | zero => simp at hfuel
    | succ fuel =>
      obtain ⟨s₁, hround, hahead, -, -⟩ := nestedLoopRound_ahead hL hR h
      obtain ⟨s₂, hloop⟩ := ih hahead (Nat.le_of_succ_le_succ hfuel)
      rw [nestedLoop, if_neg (by simp [h.1]), hround, Option.bind_some]
      simp only [hp pair h.pair_mem, Option.bind_some]
      cases p pair with
      | true => exact ⟨_, rfl⟩
      | false => exact ⟨s₂, hloop⟩

/-- What `beginTuple` starts the loop with. -/
theorem pairsAhead_start {l : left.State} {r : right.State} (hl : AtL rowsL l) (hr : AtR rowsR r)
    (hlne : rowsL ≠ []) (hrne : rowsR ≠ []) :
    PairsAhead rowsL rowsR AtL AtR (rowsL ×ˢ rowsR) ⟨l, r, false, false, none⟩ := by
  cases rowsL with
  | nil => exact absurd rfl hlne
  | cons a rowsL =>
    cases rowsR with
    | nil => exact absurd rfl hrne
    | cons b rowsR =>
      exact ⟨rfl, rowsL, rowsR, hl, hr, List.suffix_refl _, List.suffix_refl _, rfl⟩

/-- What the join delivers once it is at a pair. -/
theorem nestedLoopCursor_delivers_ahead (hL : left.Walks l₀ rowsL AtL)
    (hR : right.Walks r₀ rowsR AtR)
    (hp : ∀ pair ∈ rowsL ×ˢ rowsR, eval (joinPairRow pair) = some (p pair))
    (h : PairsAhead rowsL rowsR AtL AtR rest s) (hend : s.isEnd = false)
    (hrecord : s.record = some (joinPairRow pair)) (hfuel : rest.length ≤ fuel) :
    (nestedLoopCursor left right eval fuel).Delivers s
      (joinPairRow pair :: (rest.filter p).map joinPairRow) := by
  obtain ⟨n, hn⟩ : ∃ n, rest.length = n := ⟨_, rfl⟩
  induction n using Nat.strong_induction_on generalizing rest s pair with
  | _ n ih =>
    -- the state that `nextTuple` starts its loop with, after the record is moved out
    obtain ⟨s₁, hs₁⟩ : ∃ s₁, (if s.isLast then { s with record := none, isEnd := true }
      else { s with record := none }) = s₁ := ⟨_, rfl⟩
    have hahead : PairsAhead rowsL rowsR AtL AtR rest s₁ ∧ s₁.isEnd = rest.isEmpty := by
      subst hs₁
      cases rest with
      | nil =>
        rw [if_pos h.1]
        exact ⟨h.frame none true, rfl⟩
      | cons pair' rest =>
        rw [if_neg (by simp [h.1])]
        exact ⟨h.frame none s.isEnd, hend⟩
    obtain ⟨s₂, hloop⟩ := nestedLoop_isSome hL hR hp hahead.1 hfuel
    have hread : (nestedLoopCursor left right eval fuel).read s =
        some (joinPairRow pair, { s with record := none }) := by
      simp [nestedLoopCursor, hrecord]
    have hadvance : (nestedLoopCursor left right eval fuel).advance { s with record := none } =
        some s₂ := by
      rw [← hloop, ← hs₁]
      rfl
    refine .cons hend hread hadvance ?_
    rcases nestedLoop_ahead hL hR hp hahead.1 hahead.2 hloop with
      ⟨hnil, -, hend₂⟩ | ⟨pair', rest', hfilter, hend₂, hrec₂, hat₂, hlen⟩
    · rw [hnil]
      exact .nil hend₂
    · rw [hfilter, List.map_cons]
      exact ih rest'.length (hn ▸ hlen) hat₂ hend₂ hrec₂ (by omega) rfl

/-- A join with an input without records is at its end from the start. -/
theorem nestedLoopCursor_empty {l : left.State} {r : right.State} (hstartL : left.start l₀ = some l)
    (hstartR : right.start r₀ = some r) (hendL : left.atEnd l = rowsL.isEmpty)
    (hendR : right.atEnd r = rowsR.isEmpty) (hempty : rowsL = [] ∨ rowsR = []) :
    ∃ s, (nestedLoopCursor left right eval fuel).start ⟨l₀, r₀, false, false, none⟩ = some s ∧
      (nestedLoopCursor left right eval fuel).Delivers s
        (((rowsL ×ˢ rowsR).filter p).map joinPairRow) := by
  have hnone : rowsL ×ˢ rowsR = [] := by
    rcases hempty with rfl | rfl
    · rfl
    · exact List.product_nil rowsL
  refine ⟨⟨l, r, true, true, none⟩, ?_, ?_⟩
  · rcases hempty with rfl | rfl
    · simp [nestedLoopCursor, hstartL, hstartR, hendL]
    · simp [nestedLoopCursor, hstartL, hstartR, hendR]
  · rw [hnone]
    exact .nil rfl

/-- In its first run a nested-loop join delivers the pairs that satisfy its conditions. -/
theorem nestedLoopCursor_delivers (hL : left.Walks l₀ rowsL AtL) (hR : right.Walks r₀ rowsR AtR)
    (hp : ∀ pair ∈ rowsL ×ˢ rowsR, eval (joinPairRow pair) = some (p pair))
    (hfuel : (rowsL ×ˢ rowsR).length ≤ fuel) :
    ∃ s, (nestedLoopCursor left right eval fuel).start ⟨l₀, r₀, false, false, none⟩ = some s ∧
      (nestedLoopCursor left right eval fuel).Delivers s
        (((rowsL ×ˢ rowsR).filter p).map joinPairRow) := by
  obtain ⟨l, hstartL, hl⟩ := hL.start l₀ (Or.inl rfl)
  obtain ⟨r, hstartR, hr⟩ := hR.start r₀ (Or.inl rfl)
  have hendL := hL.atEnd _ _ hl
  have hendR := hR.atEnd _ _ hr
  by_cases hempty : rowsL = [] ∨ rowsR = []
  · exact nestedLoopCursor_empty hstartL hstartR hendL hendR hempty
  · obtain ⟨hlne, hrne⟩ := not_or.mp hempty
    have hahead := @pairsAhead_start left right rowsL rowsR AtL AtR l r hl hr hlne hrne
    obtain ⟨s, hloop⟩ := nestedLoop_isSome hL hR hp hahead hfuel
    have hend : false = (rowsL ×ˢ rowsR).isEmpty := by
      cases hrows : rowsL ×ˢ rowsR with
      | nil =>
        rw [hrows] at hahead
        cases hahead.1
      | cons pair rest => rfl
    refine ⟨s, ?_, ?_⟩
    · simp [nestedLoopCursor, hstartL, hstartR, hendL, hendR, hlne, hrne, hloop]
    · rcases nestedLoop_ahead hL hR hp hahead hend hloop with
        ⟨hnil, -, hend₂⟩ | ⟨pair', rest', hfilter, hend₂, hrec₂, hat₂, hlen⟩
      · rw [hnil]
        exact .nil hend₂
      · rw [hfilter, List.map_cons]
        exact nestedLoopCursor_delivers_ahead hL hR hp hat₂ hend₂ hrec₂ (by omega)

/-- A join without a pair, before and after its first run. -/
def NestedLoopDone (AtL : List Bytes → left.State → Prop) (AtR : List Bytes → right.State → Prop)
    (rest : List Bytes) (s : NestedLoopState left.State right.State) : Prop :=
  rest = [] ∧ s.isEnd = true ∧ s.isLast = true ∧ (∃ restL, AtL restL s.left) ∧
    ∃ restR, AtR restR s.right

/-- The flags that are never taken back do no harm as long as no pair satisfies the conditions. -/
theorem nestedLoopCursor_walks_none (hL : left.Walks l₀ rowsL AtL) (hR : right.Walks r₀ rowsR AtR)
    (hnone : ∀ pair ∈ rowsL ×ˢ rowsR, eval (joinPairRow pair) = some false)
    (hfirst : ((nestedLoopCursor left right eval fuel).start
      ⟨l₀, r₀, false, false, none⟩).isSome) :
    (nestedLoopCursor left right eval fuel).Walks ⟨l₀, r₀, false, false, none⟩ []
      (NestedLoopDone AtL AtR) := by
  constructor
  · intro s hs
    rcases hs with rfl | ⟨rest, -, hend, hlast, hreadyL, hreadyR⟩
    · obtain ⟨l, hstartL, hl⟩ := hL.start l₀ (Or.inl rfl)
      obtain ⟨r, hstartR, hr⟩ := hR.start r₀ (Or.inl rfl)
      obtain ⟨s', hs'⟩ := Option.isSome_iff_exists.mp hfirst
      refine ⟨s', hs', rfl, ?_⟩
      simp only [nestedLoopCursor, hstartL, hstartR, Option.bind_some] at hs'
      split at hs'
      next =>
        cases hs'
        exact ⟨rfl, rfl, ⟨_, hl⟩, _, hr⟩
      next hboth =>
        have hlne : rowsL ≠ [] := by
          rintro rfl
          exact hboth (Or.inl (hL.atEnd _ _ hl))
        have hrne : rowsR ≠ [] := by
          rintro rfl
          exact hboth (Or.inr (hR.atEnd _ _ hr))
        have hahead := @pairsAhead_start left right rowsL rowsR AtL AtR l r hl hr hlne hrne
        have hend : false = (rowsL ×ˢ rowsR).isEmpty := by
          cases hrows : rowsL ×ˢ rowsR with
          | nil =>
            rw [hrows] at hahead
            cases hahead.1
          | cons pair rest => rfl
        have hp : ∀ pair ∈ rowsL ×ˢ rowsR, eval (joinPairRow pair) = some ((fun _ => false) pair) :=
          hnone
        rcases nestedLoop_ahead hL hR hp hahead hend hs' with
          ⟨-, hdone, hend'⟩ | ⟨pair, rest, hfilter, -⟩
        · exact ⟨hend', hdone⟩
        · simp at hfilter
    · obtain ⟨l, hstartL, hl⟩ := hL.start s.left (Or.inr hreadyL)
      obtain ⟨r, hstartR, hr⟩ := hR.start s.right (Or.inr hreadyR)
      refine ⟨{ s with left := l, right := r, isEnd := true, isLast := true }, ?_, rfl, rfl, rfl,
        ⟨_, hl⟩, _, hr⟩
      simp only [nestedLoopCursor, hstartL, hstartR, Option.bind_some]
      split
      next => rfl
      next =>
        cases fuel with
        | zero => simp [nestedLoop, hlast, hend]
        | succ fuel => simp [nestedLoop, hlast, hend]
  · rintro rest s ⟨rfl, hend, -⟩
    exact hend
  · rintro r rest s ⟨hnil, -⟩
    cases hnil
  · rintro r rest s ⟨hnil, -⟩
    cases hnil

end NestedLoop

section SortMerge

/-- How a round of the merge finds a pair of tuples for one condition. -/
def sortMergeOrder (cols : List ColMeta) (lhs rhs : TabCol) (leftTuple rightTuple : Bytes) :
    Option Ordering :=
  (getValue cols lhs leftTuple).bind fun leftVal =>
    (getValue cols rhs rightTuple).bind fun rightVal =>
      (leftVal.comp rightVal .lt).bind fun lt =>
        if lt then some .lt
        else (leftVal.comp rightVal .gt).map fun gt => if gt then .gt else .eq

variable {cols : List ColMeta} {rhs : Condition → TabCol} {left right : Cursor Bytes}
  {cond : Condition} {conds : List Condition} {l₀ : left.State} {r₀ : right.State}
  {rowsL rowsR restL restR : List Bytes} {AtL : List Bytes → left.State → Prop}
  {AtR : List Bytes → right.State → Prop} {c : Bytes → Bytes → Ordering} {fuel : Nat}
  {s s' t : SortMergeState left.State right.State} {l r : Bytes}

theorem sortMergeConds_one (h : sortMergeOrder cols cond.lhsCol (rhs cond) l r = some (c l r)) :
    sortMergeConds cols rhs left right l r [cond] s =
      match c l r with
      | .lt => (left.advance s.left).map fun l' => (false, { s with left := l' })
      | .gt => (right.advance s.right).map fun r' => (false, { s with right := r' })
      | .eq => (right.advance s.right).map fun r' =>
        (true, { s with right := r', record := some (l ++ r) }) := by
  unfold sortMergeOrder at h
  obtain ⟨leftVal, hleft, h⟩ := Option.bind_eq_some_iff.mp h
  obtain ⟨rightVal, hright, h⟩ := Option.bind_eq_some_iff.mp h
  obtain ⟨lt, hlt, h⟩ := Option.bind_eq_some_iff.mp h
  simp only [sortMergeConds, hleft, hright, Option.bind_some, hlt]
  cases lt with
  | true =>
    have hc : c l r = .lt := (Option.some.inj h).symm
    rw [hc, if_pos rfl]
    cases left.advance s.left with
    | none => rfl
    | some l' => rfl
  | false =>
    obtain ⟨gt, hgt, hc⟩ := Option.map_eq_some_iff.mp h
    rw [← hc, if_neg (by simp), hgt, Option.bind_some]
    cases right.advance s.right with
    | none => cases gt <;> rfl
    | some r' => cases gt <;> rfl

/-- The tuples that the merge has not used up. -/
structure MergeAhead (rowsL rowsR : List Bytes) (AtL : List Bytes → left.State → Prop)
    (AtR : List Bytes → right.State → Prop) (restL restR : List Bytes)
    (s : SortMergeState left.State right.State) : Prop where
  left : AtL restL s.left
  right : AtR restR s.right
  suffixL : restL <:+ rowsL
  suffixR : restR <:+ rowsR

theorem sortMerge_stop (hL : left.Walks l₀ rowsL AtL) (hR : right.Walks r₀ rowsR AtR)
    (h : MergeAhead rowsL rowsR AtL AtR restL restR s) (hnil : restL = [] ∨ restR = []) :
    sortMerge cols rhs left right conds fuel s = some { s with isEnd := true } := by
  have hend : left.atEnd s.left = true ∨ right.atEnd s.right = true := by
    rcases hnil with rfl | rfl
    · exact Or.inl (hL.atEnd _ _ h.left)
    · exact Or.inr (hR.atEnd _ _ h.right)
  cases fuel with
  | zero => rw [sortMerge, if_pos hend]
  | succ fuel => rw [sortMerge, if_pos hend]

/-- One round: the smaller tuple is passed over, and of two equal ones the right one. -/
theorem sortMerge_round (hL : left.Walks l₀ rowsL AtL) (hR : right.Walks r₀ rowsR AtR)
    (hc : ∀ l ∈ rowsL, ∀ r ∈ rowsR,
      sortMergeOrder cols cond.lhsCol (rhs cond) l r = some (c l r))
    (h : MergeAhead rowsL rowsR AtL AtR (l :: restL) (r :: restR) s) :
    ∃ s₁, s₁.isEnd = s.isEnd ∧
      match c l r with
      | .lt => MergeAhead rowsL rowsR AtL AtR restL (r :: restR) s₁ ∧ ∀ fuel,
        sortMerge cols rhs left right [cond] (fuel + 1) s =
          sortMerge cols rhs left right [cond] fuel s₁
      | .gt => MergeAhead rowsL rowsR AtL AtR (l :: restL) restR s₁ ∧ ∀ fuel,
        sortMerge cols rhs left right [cond] (fuel + 1) s =
          sortMerge cols rhs left right [cond] fuel s₁
      | .eq => MergeAhead rowsL rowsR AtL AtR (l :: restL) restR s₁ ∧
        s₁.record = some (l ++ r) ∧ ∀ fuel,
        sortMerge cols rhs left right [cond] (fuel + 1) s = some s₁ := by
  obtain ⟨hl, hr, hsl, hsr⟩ := h
  have hendL := hL.atEnd _ _ hl
  have hendR := hR.atEnd _ _ hr
  obtain ⟨l', hreadL, hl'⟩ := hL.read _ _ _ hl
  obtain ⟨r', hreadR, hr'⟩ := hR.read _ _ _ hr
  obtain ⟨l'', hadvL, hl''⟩ := hL.advance _ _ _ hl'
  obtain ⟨r'', hadvR, hr''⟩ := hR.advance _ _ _ hr'
  have horder := hc l (hsl.subset List.mem_cons_self) r (hsr.subset List.mem_cons_self)
  have hround := @sortMergeConds_one cols rhs left right cond c
    { s with left := l', right := r' } l r horder
  cases hcase : c l r with
  | lt =>
    refine ⟨{ s with left := l'', right := r' }, rfl,
      ⟨hl'', hr', (List.suffix_cons _ _).trans hsl, hsr⟩, fun fuel => ?_⟩
    rw [sortMerge]
    simp [hendL, hendR, hreadL, hreadR, hround, hcase, hadvL]
  | gt =>
    refine ⟨{ s with left := l', right := r'' }, rfl,
      ⟨hl', hr'', hsl, (List.suffix_cons _ _).trans hsr⟩, fun fuel => ?_⟩
    rw [sortMerge]
    simp [hendL, hendR, hreadL, hreadR, hround, hcase, hadvR]
  | eq =>
    refine ⟨{ s with left := l', right := r'', record := some (l ++ r) }, rfl,
      ⟨hl', hr'', hsl, (List.suffix_cons _ _).trans hsr⟩, rfl, fun fuel => ?_⟩
    rw [sortMerge]
    simp [hendL, hendR, hreadL, hreadR, hround, hcase, hadvR]

/-- The loop stops at the next pair of the merge, or where one side is used up. -/
theorem sortMerge_ahead (hL : left.Walks l₀ rowsL AtL) (hR : right.Walks r₀ rowsR AtR)
    (hc : ∀ l ∈ rowsL, ∀ r ∈ rowsR,
      sortMergeOrder cols cond.lhsCol (rhs cond) l r = some (c l r))
    (h : MergeAhead rowsL rowsR AtL AtR restL restR s)
    (hloop : sortMerge cols rhs left right [cond] fuel s = some s') :
    (mergeJoin c restL restR = [] ∧ s'.isEnd = true ∧ (∃ restL, AtL restL s'.left) ∧
        ∃ restR, AtR restR s'.right) ∨
      ∃ pair restL' restR', mergeJoin c restL restR = pair :: mergeJoin c restL' restR' ∧
        s'.isEnd = s.isEnd ∧ s'.record = some (joinPairRow pair) ∧
        MergeAhead rowsL rowsR AtL AtR restL' restR' s' ∧
        restL'.length + restR'.length < restL.length + restR.length := by
  induction fuel generalizing s restL restR with
  | zero =>
    by_cases hnil : restL = [] ∨ restR = []
    · cases (sortMerge_stop hL hR h hnil).symm.trans hloop
      exact Or.inl ⟨mergeJoin_nil hnil, rfl, ⟨_, h.left⟩, _, h.right⟩
    · obtain ⟨hlne, hrne⟩ := not_or.mp hnil
      have hendL := hL.atEnd _ _ h.left
      have hendR := hR.atEnd _ _ h.right
      simp [sortMerge, hendL, hendR, hlne, hrne] at hloop
  | succ fuel ih =>
    by_cases hnil : restL = [] ∨ restR = []
    · cases (sortMerge_stop hL hR h hnil).symm.trans hloop
      exact Or.inl ⟨mergeJoin_nil hnil, rfl, ⟨_, h.left⟩, _, h.right⟩
    · obtain ⟨hlne, hrne⟩ := not_or.mp hnil
      obtain ⟨l, restL, rfl⟩ := List.exists_cons_of_ne_nil hlne
      obtain ⟨r, restR, rfl⟩ := List.exists_cons_of_ne_nil hrne
      obtain ⟨s₁, hend, hround⟩ := sortMerge_round hL hR hc h
      cases hcase : c l r with
      | lt =>
        rw [hcase] at hround
        obtain ⟨hahead, hstep⟩ := hround
        rw [hstep fuel] at hloop
        have hjoin : mergeJoin c (l :: restL) (r :: restR) = mergeJoin c restL (r :: restR) := by
          rw [mergeJoin, hcase]
        rw [hjoin]
        rcases ih hahead hloop with hnone | ⟨pair, restL', restR', hpair, hend', hrec, hat, hlen⟩
        · exact Or.inl hnone
        · refine Or.inr ⟨pair, restL', restR', hpair, hend'.trans hend, hrec, hat, ?_⟩
          simp only [List.length_cons] at hlen ⊢
          omega
      | gt =>
        rw [hcase] at hround
        obtain ⟨hahead, hstep⟩ := hround
        rw [hstep fuel] at hloop
        have hjoin : mergeJoin c (l :: restL) (r :: restR) = mergeJoin c (l :: restL) restR := by
          rw [mergeJoin, hcase]
        rw [hjoin]
        rcases ih hahead hloop with hnone | ⟨pair, restL', restR', hpair, hend', hrec, hat, hlen⟩
        · exact Or.inl hnone
        · refine Or.inr ⟨pair, restL', restR', hpair, hend'.trans hend, hrec, hat, ?_⟩
          simp only [List.length_cons] at hlen ⊢
          omega
      | eq =>
        rw [hcase] at hround
        obtain ⟨hahead, hrec, hstep⟩ := hround
        rw [hstep fuel] at hloop
        cases hloop
        refine Or.inr ⟨(l, r), l :: restL, restR, by rw [mergeJoin, hcase], hend, hrec, hahead, ?_⟩
        simp

/-- Whether the fuel is enough does not depend on how the inputs have come to their places. -/
theorem sortMerge_again (hL : left.Walks l₀ rowsL AtL) (hR : right.Walks r₀ rowsR AtR)
    (hc : ∀ l ∈ rowsL, ∀ r ∈ rowsR,
      sortMergeOrder cols cond.lhsCol (rhs cond) l r = some (c l r))
    (hs : MergeAhead rowsL rowsR AtL AtR restL restR s)
    (ht : MergeAhead rowsL rowsR AtL AtR restL restR t)
    (h : (sortMerge cols rhs left right [cond] fuel s).isSome) :
    (sortMerge cols rhs left right [cond] fuel t).isSome := by
  induction fuel generalizing s t restL restR with
  | zero =>
    have hends : left.atEnd t.left = left.atEnd s.left :=
      (hL.atEnd _ _ ht.left).trans (hL.atEnd _ _ hs.left).symm
    have hends' : right.atEnd t.right = right.atEnd s.right :=
      (hR.atEnd _ _ ht.right).trans (hR.atEnd _ _ hs.right).symm
    rw [sortMerge] at h ⊢
    rw [hends, hends']
    split at h
    next hend => rw [if_pos hend]; rfl
    next => cases h
  | succ fuel ih =>
    by_cases hnil : restL = [] ∨ restR = []
    · rw [sortMerge_stop hL hR ht hnil]
      rfl
    · obtain ⟨hlne, hrne⟩ := not_or.mp hnil
      obtain ⟨l, restL, rfl⟩ := List.exists_cons_of_ne_nil hlne
      obtain ⟨r, restR, rfl⟩ := List.exists_cons_of_ne_nil hrne
      obtain ⟨s₁, -, hround⟩ := sortMerge_round hL hR hc hs
      obtain ⟨t₁, -, hround'⟩ := sortMerge_round hL hR hc ht
      cases hcase : c l r with
      | lt =>
        rw [hcase] at hround hround'
        rw [hround.2 fuel] at h
        rw [hround'.2 fuel]
        exact ih hround.1 hround'.1 h
      | gt =>
        rw [hcase] at hround hround'
        rw [hround.2 fuel] at h
        rw [hround'.2 fuel]
        exact ih hround.1 hround'.1 h
      | eq =>
        rw [hcase] at hround'
        rw [hround'.2.2 fuel]
        rfl

theorem sortMerge_isSome (hL : left.Walks l₀ rowsL AtL) (hR : right.Walks r₀ rowsR AtR)
    (hc : ∀ l ∈ rowsL, ∀ r ∈ rowsR,
      sortMergeOrder cols cond.lhsCol (rhs cond) l r = some (c l r))
    (h : MergeAhead rowsL rowsR AtL AtR restL restR s)
    (hfuel : restL.length + restR.length ≤ fuel) :
    ∃ s', sortMerge cols rhs left right [cond] fuel s = some s' := by
  induction fuel generalizing s restL restR with
  | zero =>
    have hnil : restL = [] := List.length_eq_zero_iff.mp (by omega)
    exact ⟨_, sortMerge_stop hL hR h (Or.inl hnil)⟩
  | succ fuel ih =>
    by_cases hnil : restL = [] ∨ restR = []
    · exact ⟨_, sortMerge_stop hL hR h hnil⟩
    · obtain ⟨hlne, hrne⟩ := not_or.mp hnil
      obtain ⟨l, restL, rfl⟩ := List.exists_cons_of_ne_nil hlne
      obtain ⟨r, restR, rfl⟩ := List.exists_cons_of_ne_nil hrne
      obtain ⟨s₁, -, hround⟩ := sortMerge_round hL hR hc h
      simp only [List.length_cons] at hfuel
      cases hcase : c l r with
      | lt =>
        rw [hcase] at hround
        rw [hround.2 fuel]
        exact ih hround.1 (by simp only [List.length_cons]; omega)
      | gt =>
        rw [hcase] at hround
        rw [hround.2 fuel]
        exact ih hround.1 (by simp only [List.length_cons]; omega)
      | eq =>
        rw [hcase] at hround
        rw [hround.2.2 fuel]
        exact ⟨s₁, rfl⟩

theorem outputSorted_eq (hL : left.Walks l₀ rowsL AtL) {l : left.State}
    (hl : l = l₀ ∨ ∃ rest, AtL rest l) (hfuel : rowsL.length ≤ fuel) :
    ∃ l', outputSorted fuel left l = some l' ∧ AtL [] l' := by
  obtain ⟨l₁, hstart, hl₁⟩ := hL.start l hl
  obtain ⟨l', hcollect, hl'⟩ := hL.collect hl₁ hfuel
  refine ⟨l', ?_, hl'⟩
  simp [outputSorted, hstart, hcollect]

theorem outputSorted_length (hL : left.Walks l₀ rowsL AtL) {l l' : left.State}
    (hl : l = l₀ ∨ ∃ rest, AtL rest l) (h : outputSorted fuel left l = some l') :
    rowsL.length ≤ fuel := by
  obtain ⟨l₁, hstart, h⟩ := Option.bind_eq_some_iff.mp h
  obtain ⟨⟨read, l₂⟩, hcollect, -⟩ := Option.map_eq_some_iff.mp h
  obtain ⟨l₃, hstart', hat⟩ := hL.start l hl
  cases hstart.symm.trans hstart'
  exact (hL.collect_eq hat hcollect).2

/-- `beginTuple` up to its loop. -/
theorem sortMergeCursor_start (hL : left.Walks l₀ rowsL AtL) (hR : right.Walks r₀ rowsR AtR)
    (hfuelL : rowsL.length ≤ fuel) (hfuelR : rowsR.length ≤ fuel)
    (hl : s.left = l₀ ∨ ∃ rest, AtL rest s.left) (hr : s.right = r₀ ∨ ∃ rest, AtR rest s.right) :
    ∃ s₁, s₁.isEnd = s.isEnd ∧ MergeAhead rowsL rowsR AtL AtR rowsL rowsR s₁ ∧
      (sortMergeCursor cols left right conds fuel).start s =
        sortMerge cols Condition.rhsCol left right conds fuel s₁ := by
  obtain ⟨l₁, houtL, hl₁⟩ := outputSorted_eq hL hl hfuelL
  obtain ⟨r₁, houtR, hr₁⟩ := outputSorted_eq hR hr hfuelR
  obtain ⟨l₂, hstartL, hl₂⟩ := hL.start l₁ (Or.inr ⟨_, hl₁⟩)
  obtain ⟨r₂, hstartR, hr₂⟩ := hR.start r₁ (Or.inr ⟨_, hr₁⟩)
  refine ⟨{ s with left := l₂, right := r₂ }, rfl,
    ⟨hl₂, hr₂, List.suffix_refl _, List.suffix_refl _⟩, ?_⟩
  simp [sortMergeCursor, houtL, houtR, hstartL, hstartR]

/-- An input for which only the number of its records is known. -/
theorem outputSorted_counts {unitsL : List Unit} {CountL : List Unit → left.State → Prop}
    (hL : (left.map fun _ => ()).Walks l₀ unitsL CountL) {l : left.State}
    (hl : l = l₀ ∨ ∃ rest, CountL rest l) (hfuel : unitsL.length ≤ fuel) :
    ∃ l', outputSorted fuel left l = some l' ∧ CountL [] l' := by
  obtain ⟨l₁, hstart, hl₁⟩ := hL.start l hl
  obtain ⟨l', hcollect, hl'⟩ := hL.collect hl₁ hfuel
  obtain ⟨read, hread⟩ := Cursor.collect_of_map hcollect
  exact ⟨l', Option.bind_eq_some_iff.mpr
    ⟨l₁, hstart, Option.map_eq_some_iff.mpr ⟨(read, l'), hread, rfl⟩⟩, hl'⟩

/-- A merge with an empty side delivers nothing, whatever the other side delivers. -/
theorem sortMergeCursor_empty {unitsL unitsR : List Unit} {CountL : List Unit → left.State → Prop}
    {CountR : List Unit → right.State → Prop}
    (hL : (left.map fun _ => ()).Walks l₀ unitsL CountL)
    (hR : (right.map fun _ => ()).Walks r₀ unitsR CountR) (hnil : unitsL = [] ∨ unitsR = [])
    (hfuelL : unitsL.length ≤ fuel) (hfuelR : unitsR.length ≤ fuel) :
    ∃ s, (sortMergeCursor cols left right conds fuel).start ⟨l₀, r₀, false, none⟩ = some s ∧
      (sortMergeCursor cols left right conds fuel).Delivers s [] := by
  obtain ⟨l₁, houtL, hl₁⟩ := outputSorted_counts hL (Or.inl rfl) hfuelL
  obtain ⟨r₁, houtR, hr₁⟩ := outputSorted_counts hR (Or.inl rfl) hfuelR
  obtain ⟨l₂, hstartL, hl₂⟩ := hL.start l₁ (Or.inr ⟨_, hl₁⟩)
  obtain ⟨r₂, hstartR, hr₂⟩ := hR.start r₁ (Or.inr ⟨_, hr₁⟩)
  have hbeginL : left.start l₁ = some l₂ := hstartL
  have hbeginR : right.start r₁ = some r₂ := hstartR
  have hend : left.atEnd l₂ = true ∨ right.atEnd r₂ = true := by
    rcases hnil with rfl | rfl
    · exact Or.inl (hL.atEnd _ _ hl₂)
    · exact Or.inr (hR.atEnd _ _ hr₂)
  have hloop : sortMerge cols Condition.rhsCol left right conds fuel ⟨l₂, r₂, false, none⟩ =
      some ⟨l₂, r₂, true, none⟩ := by
    cases fuel with
    | zero => exact if_pos hend
    | succ fuel => exact if_pos hend
  refine ⟨⟨l₂, r₂, true, none⟩, ?_, .nil rfl⟩
  simp only [sortMergeCursor, houtL, houtR, hbeginL, hbeginR, Option.bind_some]
  exact hloop

theorem sortMergeCursor_delivers_ahead {pair : Bytes × Bytes} (hL : left.Walks l₀ rowsL AtL)
    (hR : right.Walks r₀ rowsR AtR)
    (hc : ∀ l ∈ rowsL, ∀ r ∈ rowsR,
      sortMergeOrder cols cond.lhsCol cond.lhsCol l r = some (c l r))
    (h : MergeAhead rowsL rowsR AtL AtR restL restR s) (hend : s.isEnd = false)
    (hrecord : s.record = some (joinPairRow pair)) (hfuel : restL.length + restR.length ≤ fuel) :
    (sortMergeCursor cols left right [cond] fuel).Delivers s
      (joinPairRow pair :: (mergeJoin c restL restR).map joinPairRow) := by
  obtain ⟨n, hn⟩ : ∃ n, restL.length + restR.length = n := ⟨_, rfl⟩
  induction n using Nat.strong_induction_on generalizing restL restR s pair with
  | _ n ih =>
    have hahead : MergeAhead rowsL rowsR AtL AtR restL restR { s with record := none } :=
      ⟨h.left, h.right, h.suffixL, h.suffixR⟩
    obtain ⟨s₂, hloop⟩ :=
      @sortMerge_isSome cols Condition.lhsCol left right cond l₀ r₀ rowsL rowsR restL restR AtL AtR
        c fuel _ hL hR hc hahead hfuel
    have hread : (sortMergeCursor cols left right [cond] fuel).read s =
        some (joinPairRow pair, { s with record := none }) := by
      simp [sortMergeCursor, hrecord]
    refine .cons hend hread hloop ?_
    rcases sortMerge_ahead hL hR hc hahead hloop with
      ⟨hnil, hend₂, -⟩ | ⟨pair', restL', restR', hpair, hend₂, hrec₂, hat₂, hlen⟩
    · rw [hnil]
      exact .nil hend₂
    · rw [hpair, List.map_cons]
      exact ih (restL'.length + restR'.length) (hn ▸ hlen) hat₂ (hend₂.trans hend) hrec₂
        (by omega) rfl

/-- In its first run a sort-merge join delivers the pairs of the merge. -/
theorem sortMergeCursor_delivers (hL : left.Walks l₀ rowsL AtL) (hR : right.Walks r₀ rowsR AtR)
    (hfirst : ∀ l ∈ rowsL, ∀ r ∈ rowsR,
      sortMergeOrder cols cond.lhsCol cond.rhsCol l r = some (c l r))
    (hnext : ∀ l ∈ rowsL, ∀ r ∈ rowsR,
      sortMergeOrder cols cond.lhsCol cond.lhsCol l r = some (c l r))
    (hfuel : rowsL.length + rowsR.length ≤ fuel) :
    ∃ s, (sortMergeCursor cols left right [cond] fuel).start ⟨l₀, r₀, false, none⟩ = some s ∧
      (sortMergeCursor cols left right [cond] fuel).Delivers s
        ((mergeJoin c rowsL rowsR).map joinPairRow) := by
  obtain ⟨s₁, hend, hahead, hstart⟩ :=
    @sortMergeCursor_start cols left right [cond] l₀ r₀ rowsL rowsR AtL AtR fuel
      ⟨l₀, r₀, false, none⟩ hL hR (by omega) (by omega) (Or.inl rfl) (Or.inl rfl)
  obtain ⟨s, hloop⟩ :=
    @sortMerge_isSome cols Condition.rhsCol left right cond l₀ r₀ rowsL rowsR rowsL rowsR AtL AtR
      c fuel _ hL hR hfirst hahead hfuel
  refine ⟨s, hstart.trans hloop, ?_⟩
  rcases sortMerge_ahead hL hR hfirst hahead hloop with
    ⟨hnil, hend₂, -⟩ | ⟨pair, restL, restR, hpair, hend₂, hrec, hat, hlen⟩
  · rw [hnil]
    exact .nil hend₂
  · rw [hpair, List.map_cons]
    exact sortMergeCursor_delivers_ahead hL hR hnext hat (hend₂.trans hend) hrec (by omega)

/-- A join without a pair, after its first run. -/
def SortMergeDone (AtL : List Bytes → left.State → Prop) (AtR : List Bytes → right.State → Prop)
    (rest : List Bytes) (s : SortMergeState left.State right.State) : Prop :=
  rest = [] ∧ s.isEnd = true ∧ (∃ restL, AtL restL s.left) ∧ ∃ restR, AtR restR s.right

/-- Without a pair that the merge takes, a sort-merge join can be run again. -/
theorem sortMergeCursor_walks_none (hL : left.Walks l₀ rowsL AtL) (hR : right.Walks r₀ rowsR AtR)
    (hnone : (rowsL = [] ∨ rowsR = []) ∨ ∃ cond, conds = [cond] ∧ ∀ l ∈ rowsL, ∀ r ∈ rowsR,
      sortMergeOrder cols cond.lhsCol cond.rhsCol l r = some .lt ∨
        sortMergeOrder cols cond.lhsCol cond.rhsCol l r = some .gt)
    (hfuelL : rowsL.length ≤ fuel) (hfuelR : rowsR.length ≤ fuel)
    (hfirst : ((sortMergeCursor cols left right conds fuel).start
      ⟨l₀, r₀, false, none⟩).isSome) :
    (sortMergeCursor cols left right conds fuel).Walks ⟨l₀, r₀, false, none⟩ []
      (SortMergeDone AtL AtR) := by
  have hloops : ∀ s₁ : SortMergeState left.State right.State,
      MergeAhead rowsL rowsR AtL AtR rowsL rowsR s₁ →
      ∃ s', sortMerge cols Condition.rhsCol left right conds fuel s₁ = some s' ∧
        SortMergeDone AtL AtR [] s' := by
    intro s₁ hahead
    rcases hnone with hnil | ⟨cond, rfl, hdiffer⟩
    · exact ⟨_, sortMerge_stop hL hR hahead hnil, rfl, rfl, ⟨_, hahead.left⟩, _, hahead.right⟩
    · obtain ⟨s₀, -, hahead₀, hstart⟩ :=
        @sortMergeCursor_start cols left right [cond] l₀ r₀ rowsL rowsR AtL AtR fuel
          ⟨l₀, r₀, false, none⟩ hL hR hfuelL hfuelR (Or.inl rfl) (Or.inl rfl)
      rw [hstart] at hfirst
      obtain ⟨c, hc⟩ : ∃ c : Bytes → Bytes → Ordering, ∀ l r,
          c l r = (sortMergeOrder cols cond.lhsCol cond.rhsCol l r).getD .eq :=
        ⟨_, fun _ _ => rfl⟩
      have hc' : ∀ l ∈ rowsL, ∀ r ∈ rowsR,
          sortMergeOrder cols cond.lhsCol (Condition.rhsCol cond) l r = some (c l r) ∧
            c l r ≠ .eq := by
        intro l hl r hr
        rcases hdiffer l hl r hr with h | h
        · simp [hc, h]
        · simp [hc, h]
      have horder := fun l hl r hr => (hc' l hl r hr).1
      have hagain := sortMerge_again hL hR horder hahead₀ hahead hfirst
      obtain ⟨s', hloop⟩ := Option.isSome_iff_exists.mp hagain
      refine ⟨s', hloop, ?_⟩
      rcases sortMerge_ahead hL hR horder hahead hloop with
        ⟨-, hend, hreadyL, hreadyR⟩ | ⟨pair, restL, restR, hpair, -⟩
      · exact ⟨rfl, hend, hreadyL, hreadyR⟩
      · have hmem : pair ∈ mergeJoin c rowsL rowsR := hpair ▸ List.mem_cons_self
        obtain ⟨hl, hr, heq⟩ := eq_of_mem_mergeJoin hmem
        exact absurd heq (hc' _ hl _ hr).2
  constructor
  · intro s hs
    have hready : (s.left = l₀ ∨ ∃ rest, AtL rest s.left) ∧
        (s.right = r₀ ∨ ∃ rest, AtR rest s.right) := by
      rcases hs with rfl | ⟨rest, -, -, hreadyL, hreadyR⟩
      · exact ⟨Or.inl rfl, Or.inl rfl⟩
      · exact ⟨Or.inr hreadyL, Or.inr hreadyR⟩
    obtain ⟨s₁, -, hahead, hstart⟩ :=
      @sortMergeCursor_start cols left right conds l₀ r₀ rowsL rowsR AtL AtR fuel s hL hR hfuelL
        hfuelR hready.1 hready.2
    obtain ⟨s', hloop, hdone⟩ := hloops s₁ hahead
    exact ⟨s', hstart.trans hloop, hdone⟩
  · rintro rest s ⟨rfl, hend, -⟩
    exact hend
  · rintro r rest s ⟨hnil, -⟩
    cases hnil
  · rintro r rest s ⟨hnil, -⟩
    cases hnil

end SortMerge

end Grmdb
