import Grmdb.TreeRoot

namespace PagedTree

open Tiling

variable {π κ : Type}

def linksOf {ρ : Type} (pages : π → Option (PNode π κ ρ)) : π → Option (π × π) := fun p =>
  (pages p).bind PNode.links

variable [LinearOrder κ]

/-- Where the range behind `b` starts: after the last key comes the first. -/
def around (b : Bound κ) : Bound κ := if b = ⊤ then ⊥ else b

@[simp] theorem around_at (k : κ) : around (Bound.at k) = Bound.at k := by
  simp [around, Bound.at_lt_top.ne]

/-- The leaves `ls` in key order are the circular list that `links`, the previous and the next
leaf of each leaf, describes. -/
structure LeafChain (links : π → Option (π × π)) (g : Labels π κ) (first last : π)
    (ls : List π) : Prop where
  leaves : ∀ {p}, p ∈ ls ↔ ∃ l, links p = some l
  tiles : Tiles g.lo g.hi ⊥ ls ⊤
  next : ∀ {p a b}, links p = some (a, b) →
    g.lo b = around (g.hi p) ∧ ∃ b', links b = some (p, b')
  first_mem : first ∈ ls
  first_lo : g.lo first = ⊥
  last_mem : last ∈ ls
  last_hi : g.hi last = ⊤

variable {links : π → Option (π × π)} {g g' : Labels π κ} {first last p q a b : π} {ls : List π}

theorem LeafChain.relabel (h : LeafChain links g first last ls)
    (hlo : ∀ x ∈ ls, g'.lo x = g.lo x) (hhi : ∀ x ∈ ls, g'.hi x = g.hi x) :
    LeafChain links g' first last ls := by
  refine ⟨h.leaves, h.tiles.congr hlo hhi, ?_, h.first_mem, ?_, h.last_mem, ?_⟩
  · intro p a b hp
    obtain ⟨start, b', hb⟩ := h.next hp
    rw [hlo b (h.leaves.mpr ⟨_, hb⟩), hhi p (h.leaves.mpr ⟨_, hp⟩)]
    exact ⟨start, b', hb⟩
  · rw [hlo _ h.first_mem, h.first_lo]
  · rw [hhi _ h.last_mem, h.last_hi]

/-- The leaf behind `p` in key order is the one `p` names as next. -/
theorem LeafChain.next_eq {front back : List π}
    (h : LeafChain links g first last (front ++ p :: q :: back)) :
    ∃ a b, links p = some (a, q) ∧ links q = some (p, b) := by
  obtain ⟨⟨a, x⟩, hp⟩ := h.leaves.mp (show p ∈ front ++ p :: q :: back by simp)
  obtain ⟨start, b, hx⟩ := h.next hp
  obtain ⟨m, -, -, -, loq, ltq, rest⟩ := tiles_append.mp h.tiles
  have notTop : g.hi p ≠ ⊤ := (ltq.trans_le rest.le).ne
  rw [around, if_neg notTop, ← loq] at start
  have same : x = q := h.tiles.lo_inj (h.leaves.mpr ⟨_, hx⟩) (by simp) start
  subst same
  exact ⟨a, b, hp, hx⟩

/-- A leaf whose range starts where the one of `p` ends stands right behind `p`. -/
theorem LeafChain.adjacent (h : LeafChain links g first last ls) (hp : p ∈ ls) (hq : q ∈ ls)
    (hmid : g.hi p = g.lo q) : ∃ front back, ls = front ++ p :: q :: back := by
  have hlt := (h.tiles.mem_bounds hq).2.1.trans_le (h.tiles.mem_bounds hq).2.2
  obtain ⟨front, back, rfl⟩ := List.append_of_mem hp
  obtain ⟨m, -, -, -, rest⟩ := tiles_append.mp h.tiles
  cases back with
  | nil =>
    rw [tiles_nil, hmid] at rest
    exact absurd hlt rest.not_lt
  | cons y back =>
    have same : y = q := h.tiles.lo_inj (by simp) hq (rest.1.trans hmid)
    subst same
    exact ⟨front, back, rfl⟩

theorem LeafChain.head_eq {back : List π} (h : LeafChain links g first last (p :: back)) :
    first = p :=
  h.tiles.lo_inj h.first_mem (by simp) (h.first_lo.trans h.tiles.1.symm)

theorem LeafChain.last_eq {front : List π} (h : LeafChain links g first last (front ++ [p])) :
    last = p := by
  rcases List.mem_append.mp h.last_mem with hm | hm
  · obtain ⟨m, left, start, step, -⟩ := tiles_append.mp h.tiles
    have top := (left.mem_bounds hm).2.2
    rw [h.last_hi, top_le_iff] at top
    rw [top] at step
    exact absurd step not_top_lt
  · exact List.mem_singleton.mp hm

variable [DecidableEq π]

def setPrev (links : π → Option (π × π)) (b q : π) : π → Option (π × π) := fun x =>
  if x = b then (links x).map fun l => (q, l.2) else links x

/-- The new leaf `q` is linked in behind `p`. -/
theorem LeafChain.cut {front back : List π} {sep : κ}
    (h : LeafChain links g first last (front ++ p :: back)) (hp : links p = some (a, b))
    (hq : links q = none) (hlo : g.lo p < Bound.at sep) (hhi : Bound.at sep < g.hi p) :
    LeafChain
      (setPrev (Function.update (Function.update links p (some (a, q))) q (some (p, b))) b q)
      (g.cut p q sep) first (if p = last then q else last) (front ++ p :: q :: back) := by
  have present : ∀ {x l}, links x = some l → x ≠ q := by
    rintro x l hx rfl
    rw [hq] at hx
    cases hx
  have member : ∀ {x}, x ∈ front ++ p :: back → x ≠ q := by
    intro x hx
    obtain ⟨l, hl⟩ := h.leaves.mp hx
    exact present hl
  have hpq := present hp
  obtain ⟨startb, b₂, hb⟩ := h.next hp
  have hbq := present hb
  have right : setPrev (Function.update (Function.update links p (some (a, q))) q (some (p, b)))
      b q q = some (p, b) := by
    simp [setPrev, hbq.symm]
  have some_iff : ∀ x, (∃ l, setPrev (Function.update (Function.update links p (some (a, q))) q
      (some (p, b))) b q x = some l) ↔ x = q ∨ ∃ l, links x = some l := by
    intro x
    simp only [setPrev, ← Option.isSome_iff_exists]
    by_cases hxq : x = q
    · simp [hxq, hbq.symm]
    · by_cases hxp : x = p
      · subst hxp
        simp only [Function.update_of_ne hxq, Function.update_self, hp]
        split <;> simp
      · simp only [Function.update_of_ne hxq, Function.update_of_ne hxp, hxq, false_or]
        split <;> simp
  refine ⟨?_, h.tiles.cut (fun hm => member hm rfl) hlo hhi, ?_, ?_, ?_, ?_, ?_⟩
  · intro x
    rw [some_iff, ← h.leaves]
    simp only [List.mem_append, List.mem_cons]
    tauto
  · intro x a' b' hx
    by_cases hxq : x = q
    · subst hxq
      rw [right] at hx
      cases Option.some.inj hx
      refine ⟨by simp [Labels.cut, hbq, hpq.symm, startb], ?_⟩
      by_cases hbp : b = p
      · subst hbp
        exact ⟨x, by simp [setPrev, hpq]⟩
      · exact ⟨b₂, by simp [setPrev, hbq, hbp, hb]⟩
    · by_cases hxp : x = p
      · subst hxp
        have hb' : b' = q := by
          simp only [setPrev, Function.update_of_ne hxq, Function.update_self] at hx
          split at hx <;> simp at hx <;> exact hx.2.symm
        subst hb'
        exact ⟨by simp [Labels.cut], b, right⟩
      · have hx' : ∃ a₀, links x = some (a₀, b') := by
          simp only [setPrev, Function.update_of_ne hxq, Function.update_of_ne hxp] at hx
          split at hx
          · obtain ⟨l, hl, e⟩ := Option.map_eq_some_iff.mp hx
            cases e
            exact ⟨l.1, hl⟩
          · exact ⟨a', hx⟩
        obtain ⟨a₀, hx'⟩ := hx'
        obtain ⟨start, b₃, hb'⟩ := h.next hx'
        have hb'q := present hb'
        have hb'b : b' ≠ b := by
          rintro rfl
          cases Option.some.inj (hb'.symm.trans hb)
          exact hxp rfl
        refine ⟨by simp [Labels.cut, hb'q, hxp, hxq, start], ?_⟩
        by_cases hb'p : b' = p
        · subst hb'p
          cases Option.some.inj (hb'.symm.trans hp)
          exact ⟨q, by simp [setPrev, hb'q, hb'b]⟩
        · exact ⟨b₃, by simp [setPrev, hb'q, hb'b, hb'p, hb']⟩
  · have := h.first_mem
    simp only [List.mem_append, List.mem_cons] at this ⊢
    tauto
  · simp [Labels.cut, member h.first_mem, h.first_lo]
  · split
    · simp
    · have := h.last_mem
      simp only [List.mem_append, List.mem_cons] at this ⊢
      tauto
  · split
    · next hl =>
      subst hl
      simp [Labels.cut, hpq.symm, h.last_hi]
    · next hl => simp [Labels.cut, Ne.symm hl, member h.last_mem, h.last_hi]

/-- The leaf `q` is taken out of the list, its range goes to `p` before it. -/
theorem LeafChain.join {front back : List π}
    (h : LeafChain links g first last (front ++ p :: q :: back)) (hp : links p = some (a, q))
    (hq : links q = some (p, b)) :
    LeafChain
      (Function.update (setPrev (Function.update links p (some (a, b))) b p) q none)
      (g.join p q) first (if q = last then p else last) (front ++ p :: back) := by
  have nodup := List.nodup_append.mp h.tiles.nodup
  have hpq : p ≠ q := by
    have := nodup.2.1
    simp only [List.nodup_cons, List.mem_cons, not_or] at this
    exact this.1.1
  have hqfront : ∀ x ∈ front, x ≠ q := fun x hx => nodup.2.2 x hx q (by simp)
  have hqback : q ∉ back := (List.nodup_cons.mp (List.nodup_cons.mp nodup.2.1).2).1
  obtain ⟨startb, b₂, hb⟩ := h.next hq
  have hbq : b ≠ q := by
    rintro rfl
    cases Option.some.inj (hb.symm.trans hq)
    exact hpq rfl
  have some_iff : ∀ x, (∃ l, Function.update (setPrev (Function.update links p (some (a, b))) b p)
      q none x = some l) ↔ x ≠ q ∧ ∃ l, links x = some l := by
    intro x
    simp only [← Option.isSome_iff_exists]
    by_cases hxq : x = q
    · simp [hxq]
    · simp only [Function.update_of_ne hxq, setPrev, ne_eq, hxq, not_false_eq_true, true_and]
      by_cases hxp : x = p
      · subst hxp
        simp only [Function.update_self, hp]
        split <;> simp
      · simp only [Function.update_of_ne hxp]
        split <;> simp
  refine ⟨?_, h.tiles.join, ?_, ?_, h.first_lo, ?_, ?_⟩
  · intro x
    rw [some_iff, ← h.leaves]
    simp only [List.mem_append, List.mem_cons]
    constructor
    · rintro (hx | rfl | hx)
      · exact ⟨hqfront x hx, .inl hx⟩
      · exact ⟨hpq, .inr (.inl rfl)⟩
      · exact ⟨fun e => hqback (e ▸ hx), .inr (.inr (.inr hx))⟩
    · rintro ⟨hxq, hx⟩
      tauto
  · intro x a' b' hx
    by_cases hxq : x = q
    · subst hxq
      rw [Function.update_self] at hx
      cases hx
    rw [Function.update_of_ne hxq] at hx
    by_cases hxp : x = p
    · subst hxp
      have hb' : b' = b := by
        simp only [setPrev, Function.update_self] at hx
        split at hx <;> simp at hx <;> exact hx.2.symm
      subst hb'
      refine ⟨by simp [Labels.join, startb], ?_⟩
      rw [Function.update_of_ne hbq]
      by_cases hbp : b' = x
      · subst hbp
        exact ⟨b', by simp [setPrev]⟩
      · exact ⟨b₂, by simp [setPrev, hbp, hb]⟩
    · have hx' : ∃ a₀, links x = some (a₀, b') := by
        simp only [setPrev, Function.update_of_ne hxp] at hx
        split at hx
        · obtain ⟨l, hl, e⟩ := Option.map_eq_some_iff.mp hx
          cases e
          exact ⟨l.1, hl⟩
        · exact ⟨a', hx⟩
      obtain ⟨a₀, hx'⟩ := hx'
      obtain ⟨start, b₃, hb'⟩ := h.next hx'
      have hb'q : b' ≠ q := by
        rintro rfl
        cases Option.some.inj (hb'.symm.trans hq)
        exact hxp rfl
      have hb'b : b' ≠ b := by
        rintro rfl
        cases Option.some.inj (hb'.symm.trans hb)
        exact hxq rfl
      refine ⟨by simp [Labels.join, hxp, start], ?_⟩
      rw [Function.update_of_ne hb'q]
      by_cases hb'p : b' = p
      · subst hb'p
        cases Option.some.inj (hb'.symm.trans hp)
        exact ⟨b, by simp [setPrev, hb'b]⟩
      · exact ⟨b₃, by simp [setPrev, hb'b, hb'p, hb']⟩
  · have hfq : first ≠ q := by
      rintro rfl
      obtain ⟨m, -, start, step, next, -⟩ := tiles_append.mp h.tiles
      rw [h.first_lo] at next
      rw [← next] at step
      exact absurd step not_lt_bot
    have := h.first_mem
    simp only [List.mem_append, List.mem_cons] at this ⊢
    tauto
  · split
    · simp
    · next hl =>
      have := h.last_mem
      simp only [List.mem_append, List.mem_cons] at this ⊢
      have hl' : last ≠ q := fun e => hl e.symm
      tauto
  · split
    · next hl =>
      subst hl
      simp [Labels.join, h.last_hi]
    · next hl =>
      by_cases hlp : last = p
      · subst hlp
        obtain ⟨m, -, -, -, loq, ltq, rest⟩ := tiles_append.mp h.tiles
        have := ltq.trans_le rest.le
        rw [h.last_hi] at this
        exact absurd this (lt_irrefl _)
      · simp [Labels.join, hlp, h.last_hi]

/-- Only the border between the neighbours `p` and `q` moves. -/
theorem LeafChain.shift {front back : List π} {sep : κ}
    (h : LeafChain links g first last (front ++ p :: q :: back))
    (hlo : g.lo p < Bound.at sep) (hhi : Bound.at sep < g.hi q) :
    LeafChain links ((g.join p q).cut p q sep) first last (front ++ p :: q :: back) := by
  obtain ⟨a, b, hp, hq⟩ := h.next_eq
  have hpq : p ≠ q := by
    have := (List.nodup_append.mp h.tiles.nodup).2.1
    simp only [List.nodup_cons, List.mem_cons, not_or] at this
    exact this.1.1
  have joined := h.join hp hq
  have hqnone : Function.update (setPrev (Function.update links p (some (a, b))) b p) q none q =
      none := by simp
  have hjlo : (g.join p q).lo p < Bound.at sep := hlo
  have hjhi : Bound.at sep < (g.join p q).hi p := by simpa [Labels.join] using hhi
  have bottom : g.lo q ≠ ⊥ := by
    obtain ⟨m, -, -, step, next, -⟩ := tiles_append.mp h.tiles
    rw [next]
    exact (bot_le.trans_lt step).ne'
  refine ⟨h.leaves, ?_, ?_, h.first_mem, ?_, h.last_mem, ?_⟩
  · refine joined.tiles.cut ?_ hjlo hjhi
    intro hm
    obtain ⟨l, hl⟩ := joined.leaves.mp hm
    rw [hqnone] at hl
    cases hl
  · intro x a' b' hx
    obtain ⟨start, b₃, hb'⟩ := h.next hx
    refine ⟨?_, b₃, hb'⟩
    by_cases hxp : x = p
    · subst hxp
      cases Option.some.inj (hx.symm.trans hp)
      simp [Labels.cut]
    · have hb'q : b' ≠ q := by
        rintro rfl
        cases Option.some.inj (hb'.symm.trans hq)
        exact hxp rfl
      by_cases hxq : x = q
      · subst hxq
        simp [Labels.cut, Labels.join, hb'q, hpq.symm, start]
      · simp [Labels.cut, Labels.join, hb'q, hxp, hxq, start]
  · have hfq : first ≠ q := by
      rintro rfl
      exact bottom h.first_lo
    simp [Labels.cut, Labels.join, hfq, h.first_lo]
  · have hlp : last ≠ p := by
      rintro rfl
      obtain ⟨m, -, -, -, loq, ltq, rest⟩ := tiles_append.mp h.tiles
      have := ltq.trans_le rest.le
      rw [h.last_hi] at this
      exact absurd this (lt_irrefl _)
    by_cases hlq : last = q
    · subst hlq
      simp [Labels.cut, Labels.join, hlp, h.last_hi]
    · simp [Labels.cut, Labels.join, hlp, hlq, h.last_hi]

end PagedTree
