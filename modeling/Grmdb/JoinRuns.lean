import Grmdb.HonestCursor
import Grmdb.JoinExecutors

namespace Grmdb

section NestedLoop

variable {left right : Cursor Bytes} {eval : Bytes → Option Bool} {l₀ : left.State}
  {r₀ : right.State} {rowsL rowsR : List Bytes} {AtL : List Bytes → left.State → Prop}
  {TakenL : Bytes → List Bytes → left.State → Prop} {AgainL : left.State → Prop}
  {AtR : List Bytes → right.State → Prop} {TakenR : Bytes → List Bytes → right.State → Prop}
  {AgainR : right.State → Prop} {p : Bytes × Bytes → Bool} {fuel : Nat}
  {s s' : NestedLoopState left.State right.State} {pair : Bytes × Bytes}
  {rest pairs : List (Bytes × Bytes)} {tuple : Bytes}

/-- The pairs that the loop has not come to. The left record may have been read before, and the
right input may have been started again. -/
def PairsLeft (rowsR : List Bytes) (AtL : List Bytes → left.State → Prop)
    (TakenL : Bytes → List Bytes → left.State → Prop) (AtR : List Bytes → right.State → Prop)
    (AgainR : right.State → Prop) :
    List (Bytes × Bytes) → NestedLoopState left.State right.State → Prop
  | [], s => s.isLast = true
  | pair :: rest, s => s.isLast = false ∧ rowsR ≠ [] ∧ ∃ restL restR,
    (AtL (pair.1 :: restL) s.left ∨ TakenL pair.1 restL s.left) ∧
      (AtR (pair.2 :: restR) s.right ∨ AgainR s.right ∧ rowsR = pair.2 :: restR) ∧
      rest = restR.map (Prod.mk pair.1) ++ restL ×ˢ rowsR

theorem PairsLeft.frame (h : PairsLeft rowsR AtL TakenL AtR AgainR pairs s)
    (record : Option Bytes) (isEnd : Bool) :
    PairsLeft rowsR AtL TakenL AtR AgainR pairs { s with record := record, isEnd := isEnd } := by
  cases pairs with
  | nil => exact h
  | cons pair rest => exact h

/-- A round that gets through has read the next pair. -/
theorem nestedLoopRound_honest (hL : left.Honest l₀ rowsL AtL TakenL AgainL)
    (hR : right.Honest r₀ rowsR AtR TakenR AgainR)
    (h : PairsLeft rowsR AtL TakenL AtR AgainR (pair :: rest) s)
    (hround : nestedLoopRound left right s = some (tuple, s')) :
    tuple = joinPairRow pair ∧ PairsLeft rowsR AtL TakenL AtR AgainR rest s' ∧
      s'.isEnd = (if rest = [] then true else s.isEnd) ∧ s'.record = s.record := by
  obtain ⟨hlast, hne, restL, restR, hl, hr, rfl⟩ := h
  obtain ⟨⟨x, l⟩, hreadL, hround⟩ := Option.bind_eq_some_iff.mp hround
  obtain ⟨⟨y, r⟩, hreadR, hround⟩ := Option.bind_eq_some_iff.mp hround
  obtain ⟨r', hadvR, hround⟩ := Option.bind_eq_some_iff.mp hround
  have hleft : x = pair.1 ∧ TakenL pair.1 restL l := by
    rcases hl with hat | htaken
    · exact hL.read _ _ _ _ _ hat hreadL
    · exact hL.reread _ _ _ _ _ htaken hreadL
  have hright : y = pair.2 ∧ TakenR pair.2 restR r := by
    rcases hr with hat | ⟨hagain, hrows⟩
    · exact hR.read _ _ _ _ _ hat hreadR
    · obtain ⟨restR', hrows', htaken⟩ := hR.again _ _ _ hagain hreadR
      cases hrows.symm.trans hrows'
      exact ⟨rfl, htaken⟩
  obtain ⟨rfl, hl⟩ := hleft
  obtain ⟨rfl, hr⟩ := hright
  have hr' := hR.advance _ _ _ _ hr hadvR
  rw [hR.atEnd _ _ hr'] at hround
  cases restR with
  | cons b restR =>
    -- the right side goes on, and the left record is read once more
    cases hround
    exact ⟨rfl, ⟨hlast, hne, restL, restR, Or.inr hl, Or.inl hr', rfl⟩, by simp, rfl⟩
  | nil =>
    obtain ⟨l', hadvL, hround⟩ := Option.bind_eq_some_iff.mp hround
    obtain ⟨r'', hstart, hround⟩ := Option.map_eq_some_iff.mp hround
    have hl' := hL.advance _ _ _ _ hl hadvL
    have hr'' := hR.restart hne _ _ hr' hstart
    rw [hL.atEnd _ _ hl'] at hround
    cases restL with
    | nil =>
      cases hround
      exact ⟨rfl, rfl, by simp, rfl⟩
    | cons a restL =>
      cases hround
      obtain ⟨b, rowsR', hrows⟩ := List.exists_cons_of_ne_nil hne
      have hrest : ([] : List Bytes).map (Prod.mk pair.1) ++ (a :: restL) ×ˢ rowsR =
          (a, b) :: (rowsR'.map (Prod.mk a) ++ restL ×ˢ rowsR) := by
        rw [List.map_nil, List.nil_append, List.product_cons]
        nth_rewrite 1 [hrows]
        rfl
      rw [hrest]
      exact ⟨rfl, ⟨hlast, hne, restL, rowsR', Or.inl hl', Or.inr ⟨hr'', hrows⟩, rfl⟩, by simp, rfl⟩

/-- A loop that gets through stops at the first pair that is selected, or behind the last one. -/
theorem nestedLoop_honest (hL : left.Honest l₀ rowsL AtL TakenL AgainL)
    (hR : right.Honest r₀ rowsR AtR TakenR AgainR)
    (hp : ∀ pair b, eval (joinPairRow pair) = some b → b = p pair)
    (h : PairsLeft rowsR AtL TakenL AtR AgainR pairs s) (hend : s.isEnd = pairs.isEmpty)
    (hloop : nestedLoop left right eval fuel s = some s') :
    (pairs.filter p = [] ∧ s'.isLast = true ∧ s'.isEnd = true ∧ s'.record = s.record) ∨
      ∃ pair rest, pairs.filter p = pair :: rest.filter p ∧ s'.isEnd = false ∧
        s'.record = some (joinPairRow pair) ∧ PairsLeft rowsR AtL TakenL AtR AgainR rest s' := by
  induction fuel generalizing s pairs with
  | zero =>
    cases pairs with
    | nil =>
      have hlast : s.isLast = true := h
      rw [nestedLoop, if_pos hlast] at hloop
      cases hloop
      exact Or.inl ⟨rfl, h, hend, rfl⟩
    | cons pair rest => simp [nestedLoop, h.1] at hloop
  | succ fuel ih =>
    cases pairs with
    | nil =>
      have hlast : s.isLast = true := h
      rw [nestedLoop, if_pos hlast] at hloop
      cases hloop
      exact Or.inl ⟨rfl, h, hend, rfl⟩
    | cons pair rest =>
      rw [nestedLoop, if_neg (by simp [h.1])] at hloop
      obtain ⟨⟨tuple, s₁⟩, hround, hloop⟩ := Option.bind_eq_some_iff.mp hloop
      obtain ⟨ok, hok, hloop⟩ := Option.bind_eq_some_iff.mp hloop
      obtain ⟨rfl, hleft, hend₁, hrecord⟩ := nestedLoopRound_honest hL hR h hround
      have hsel := hp pair ok hok
      cases ok with
      | true =>
        cases hloop
        refine Or.inr ⟨pair, rest, by rw [List.filter_cons, if_pos hsel.symm], ?_, rfl,
          hleft.frame _ _⟩
        cases rest with
        | nil =>
          have hlast : s₁.isLast = true := hleft
          simp [hlast]
        | cons pair' rest => simpa [hleft.1, hend] using hend₁
      | false =>
        have hskip : (pair :: rest).filter p = rest.filter p := by
          rw [List.filter_cons, if_neg (by simp [← hsel])]
        have hend₁' : s₁.isEnd = rest.isEmpty := by
          rw [hend₁, hend]
          cases rest with
          | nil => rfl
          | cons pair' rest => rfl
        rw [hskip, ← hrecord]
        exact ih hleft hend₁' hloop

/-- The records that the join has not delivered. -/
def JoinAt (p : Bytes × Bytes → Bool) (rowsR : List Bytes) (AtL : List Bytes → left.State → Prop)
    (TakenL : Bytes → List Bytes → left.State → Prop) (AtR : List Bytes → right.State → Prop)
    (AgainR : right.State → Prop) :
    List Bytes → NestedLoopState left.State right.State → Prop
  | [], s => s.isEnd = true ∧ s.isLast = true ∧ s.record = none
  | row :: rows, s => s.isEnd = false ∧ s.record = some row ∧
    ∃ pairs, PairsLeft rowsR AtL TakenL AtR AgainR pairs s ∧ rows = (pairs.filter p).map joinPairRow

/-- The record has been moved out. -/
def JoinTaken (p : Bytes × Bytes → Bool) (rowsR : List Bytes)
    (AtL : List Bytes → left.State → Prop) (TakenL : Bytes → List Bytes → left.State → Prop)
    (AtR : List Bytes → right.State → Prop) (AgainR : right.State → Prop) (_ : Bytes)
    (rows : List Bytes) (s : NestedLoopState left.State right.State) : Prop :=
  s.isEnd = false ∧ s.record = none ∧
    ∃ pairs, PairsLeft rowsR AtL TakenL AtR AgainR pairs s ∧ rows = (pairs.filter p).map joinPairRow

/-- The loop brings the join to its next record. -/
theorem nestedLoop_joinAt (hL : left.Honest l₀ rowsL AtL TakenL AgainL)
    (hR : right.Honest r₀ rowsR AtR TakenR AgainR)
    (hp : ∀ pair b, eval (joinPairRow pair) = some b → b = p pair)
    (h : PairsLeft rowsR AtL TakenL AtR AgainR pairs s) (hend : s.isEnd = pairs.isEmpty)
    (hrecord : s.record = none) (hloop : nestedLoop left right eval fuel s = some s') :
    JoinAt p rowsR AtL TakenL AtR AgainR ((pairs.filter p).map joinPairRow) s' := by
  rcases nestedLoop_honest hL hR hp h hend hloop with
    ⟨hnil, hlast, hend', hrecord'⟩ | ⟨pair, rest, hfilter, hend', hrecord', hleft⟩
  · rw [hnil]
    exact ⟨hend', hlast, hrecord'.trans hrecord⟩
  · rw [hfilter]
    exact ⟨hend', hrecord', rest, hleft, rfl⟩

theorem JoinTaken.advance {row : Bytes} {rows : List Bytes}
    (hL : left.Honest l₀ rowsL AtL TakenL AgainL) (hR : right.Honest r₀ rowsR AtR TakenR AgainR)
    (hp : ∀ pair b, eval (joinPairRow pair) = some b → b = p pair)
    (h : JoinTaken p rowsR AtL TakenL AtR AgainR row rows s)
    (hloop : nestedLoop left right eval fuel (if s.isLast then { s with isEnd := true } else s) =
      some s') : JoinAt p rowsR AtL TakenL AtR AgainR rows s' := by
  obtain ⟨hend, hrecord, pairs, hleft, rfl⟩ := h
  cases pairs with
  | nil =>
    have hlast : s.isLast = true := hleft
    rw [if_pos hlast] at hloop
    exact nestedLoop_joinAt hL hR hp (hleft.frame s.record true) rfl hrecord hloop
  | cons pair rest =>
    rw [if_neg (by simp [hleft.1])] at hloop
    exact nestedLoop_joinAt hL hR hp hleft hend hrecord hloop

/-- A nested-loop join over inputs that may fail fails or delivers the pairs that satisfy its
conditions. Its record is gone once it is read, and so it is after a new start. -/
theorem nestedLoopCursor_honest (hL : left.Honest l₀ rowsL AtL TakenL AgainL)
    (hR : right.Honest r₀ rowsR AtR TakenR AgainR)
    (hp : ∀ pair b, eval (joinPairRow pair) = some b → b = p pair) :
    (nestedLoopCursor left right eval fuel).Honest ⟨l₀, r₀, false, false, none⟩
      (((rowsL ×ˢ rowsR).filter p).map joinPairRow) (JoinAt p rowsR AtL TakenL AtR AgainR)
      (JoinTaken p rowsR AtL TakenL AtR AgainR) fun s => s.record = none := by
  constructor
  · intro s hs
    obtain ⟨l, hstartL, hs⟩ := Option.bind_eq_some_iff.mp hs
    obtain ⟨r, hstartR, hs⟩ := Option.bind_eq_some_iff.mp hs
    have hl := hL.start _ hstartL
    have hr := hR.start _ hstartR
    rw [hL.atEnd _ _ hl, hR.atEnd _ _ hr] at hs
    cases rowsL with
    | nil =>
      cases hs
      exact ⟨rfl, rfl, rfl⟩
    | cons a rowsL =>
      cases rowsR with
      | nil =>
        rw [List.product_nil]
        cases hs
        exact ⟨rfl, rfl, rfl⟩
      | cons b rowsR =>
        refine @nestedLoop_joinAt left right eval l₀ r₀ _ _ AtL TakenL AgainL AtR TakenR AgainR p
          fuel _ s _ hL hR hp ?_ ?_ ?_ hs
        · exact ⟨rfl, by simp, rowsL, rowsR, Or.inl hl, Or.inl hr, rfl⟩
        · rfl
        · rfl
  · intro rows s hs
    cases rows with
    | nil => exact hs.1
    | cons row rows => exact hs.1
  · intro row rows s x s' hs hread
    obtain ⟨hend, hrecord, pairs, hleft, hrows⟩ := hs
    obtain ⟨tuple, htuple, heq⟩ := Option.map_eq_some_iff.mp hread
    cases heq
    exact ⟨Option.some.inj (htuple.symm.trans hrecord), hend, rfl, pairs, hleft.frame _ _, hrows⟩
  · intro row rows s x s' hs hread
    obtain ⟨tuple, htuple, -⟩ := Option.map_eq_some_iff.mp hread
    cases htuple.symm.trans hs.2.1
  · intro row rows s s' hs hadvance
    exact JoinTaken.advance hL hR hp hs hadvance
  · intro _ s s' hs hstart
    obtain ⟨l, -, hstart⟩ := Option.bind_eq_some_iff.mp hstart
    obtain ⟨r, -, hstart⟩ := Option.bind_eq_some_iff.mp hstart
    split at hstart
    next =>
      cases hstart
      exact hs.2.2
    next =>
      have hlast := hs.2.1
      cases fuel with
      | zero =>
        rw [nestedLoop, if_pos hlast] at hstart
        cases hstart
        exact hs.2.2
      | succ fuel =>
        rw [nestedLoop, if_pos hlast] at hstart
        cases hstart
        exact hs.2.2
  · intro s x s' hs hread
    obtain ⟨tuple, htuple, -⟩ := Option.map_eq_some_iff.mp hread
    cases htuple.symm.trans hs

end NestedLoop

end Grmdb
