import Grmdb.IndexNode

namespace Grmdb.IxNode

variable {κ : Type} (L : IxLayout κ) {n : IxNode κ} {front back : List (κ × Rid)} {e : κ × Rid}

theorem slot_eq (h : n.entries = front ++ e :: back) : n.slot L front.length = e := by
  simp [slot, h]

theorem getKey_eq (h : n.entries = front ++ e :: back) : n.getKey L front.length = e.1 := by
  rw [getKey, slot_eq L h]

theorem getRid_eq (h : n.entries = front ++ e :: back) : n.getRid L front.length = e.2 := by
  rw [getRid, slot_eq L h]

theorem valueAt_eq (h : n.entries = front ++ e :: back) :
    n.valueAt L front.length = e.2.pageNo := by
  rw [valueAt, getRid_eq L h]

theorem erasePair_entries (h : n.entries = front ++ e :: back) :
    (n.erasePair front.length).entries = front ++ back := by
  simp only [erasePair, h]
  rw [List.eraseIdx_append_of_length_le (le_refl _)]
  simp

theorem getKey_zero (h : n.entries = e :: back) : n.getKey L 0 = e.1 := by
  simp [getKey, slot, h]

theorem getRid_zero (h : n.entries = e :: back) : n.getRid L 0 = e.2 := by
  simp [getRid, slot, h]

theorem valueAt_zero (h : n.entries = e :: back) : n.valueAt L 0 = e.2.pageNo := by
  rw [valueAt, getRid_zero L h]

theorem erasePair_zero (h : n.entries = e :: back) : (n.erasePair 0).entries = back := by
  simp [erasePair, h]

theorem modify_append_cons (f : κ × Rid → κ × Rid) :
    (front ++ e :: back).modify front.length f = front ++ f e :: back := by
  induction front with
  | nil => simp
  | cons x front ih => simp [ih]

theorem insertIdx_append (x : κ × Rid) :
    (front ++ back).insertIdx front.length x = front ++ x :: back := by
  induction front with
  | nil => simp
  | cons y front ih => simp [ih]

theorem insertAt_eq (h : n.entries = front ++ back) (key : κ) (value : Rid) :
    n.insertAt front.length key value =
      { n with entries := front ++ (key, value) :: back, dead := n.dead.tail } := by
  simp [insertAt, h, insertIdx_append]

theorem setKey_entries (h : n.entries = front ++ e :: back) (key : κ) :
    (n.setKey front.length key).entries = front ++ (key, e.2) :: back := by
  simp [setKey, h, modify_append_cons]

/-- The last pair of a node is still in its slot after it has been erased. -/
theorem slot_erasePair_last (h : n.entries = front ++ [e]) :
    (n.erasePair front.length).slot L front.length = e := by
  have entries := erasePair_entries h
  simp only [List.append_nil] at entries
  simp only [slot, entries]
  simp [erasePair, h]

theorem blit_take {slots xs : List (κ × Rid)} {pos : Nat} (h : pos ≤ slots.length) :
    (blit L slots pos xs).take (pos + xs.length) = slots.take pos ++ xs := by
  have pad : pos - slots.length = 0 := by omega
  have len : (slots.take pos ++ xs).length = pos + xs.length := by simp [h]
  simp only [blit, pad, List.replicate_zero, List.append_nil]
  rw [← len, List.take_left]

theorem blit_take_below {slots xs : List (κ × Rid)} {pos k : Nat} (hk : k ≤ slots.length)
    (hp : k ≤ pos) : (blit L slots pos xs).take k = slots.take k := by
  simp only [blit, List.append_assoc]
  rw [List.take_append_of_le_length (by simp; omega), List.take_take, Nat.min_eq_left hp,
    List.take_append_of_le_length hk]

theorem insertPairs_end (pairs : List (κ × Rid)) :
    (n.insertPairs L n.size pairs).entries = n.entries ++ pairs := by
  have short : n.entries.length ≤ (n.entries ++ n.dead).length := by simp
  have keep : (blit L (n.entries ++ n.dead) (n.entries.length + n.entries.length)
      (n.entries.drop n.size)).take n.entries.length = _ :=
    blit_take_below L short (Nat.le_add_right _ _)
  have long : n.size ≤ (blit L (n.entries ++ n.dead) (n.size + n.size)
      (n.entries.drop n.size)).length := by
    have := congrArg List.length keep
    simp only [List.length_take, List.length_append] at this
    simp only [size] at this ⊢
    omega
  simp only [insertPairs]
  rw [blit_take L long]
  simp only [size] at keep ⊢
  rw [keep]
  simp

theorem insertPairs_one {first pair : κ × Rid} {rest : List (κ × Rid)}
    (h : n.entries = first :: rest) :
    (n.insertPairs L 1 [pair]).entries = first :: pair :: rest := by
  cases rest with
  | nil => simp [insertPairs, blit, size, h]
  | cons second rest =>
    simp only [insertPairs, blit, size, h, List.length_cons, List.length_nil, List.cons_append,
      List.drop_succ_cons, List.drop_zero, List.length_append]
    simp

theorem findChild_eq (h : n.entries = front ++ e :: back)
    (before : ∀ x ∈ front, x.2.pageNo ≠ e.2.pageNo) : n.findChild e.2.pageNo = front.length := by
  simp only [findChild, h]
  rw [List.findIdx_append, List.findIdx_eq_length_of_false]
  · simp [List.findIdx_cons]
  · intro x hx
    simpa using before x hx

variable [LinearOrder κ]

theorem lowerBoundLoop_eq {key : Nat → κ} {target : κ} {pos fuel l r : Nat} (hlr : l ≤ r)
    (hl : l ≤ pos) (hr : pos ≤ r + 1) (enough : r - l ≤ fuel)
    (below : ∀ i, l ≤ i → i < pos → key i < target)
    (above : ∀ i, pos ≤ i → i ≤ r → target ≤ key i) :
    lowerBoundLoop key target fuel l r = min pos r := by
  induction fuel generalizing l r with
  | zero =>
    have : l = r := by omega
    subst this
    simp only [lowerBoundLoop]
    omega
  | succ fuel ih =>
    simp only [lowerBoundLoop]
    split
    · next hlt =>
      split
      · next hm =>
        have hpos : (l + r) / 2 < pos := by
          by_contra hge
          exact absurd (above _ (by omega) (by omega)) (not_le.mpr hm)
        exact ih (by omega) (by omega) hr (by omega) (fun i hi => below i (by omega)) above
      · next hm =>
        have hpos : pos ≤ (l + r) / 2 := by
          by_contra hlt
          exact hm (below _ (by omega) (by omega))
        rw [ih (by omega) hl (by omega) (by omega) below
          (fun i hi hi' => above i hi (by omega))]
        omega
    · next hge => omega

/-- `lower_bound` on the live keys, cut into those below the target and the others. -/
theorem lowerBound_eq {target : κ} (h : n.entries = front ++ back)
    (hfront : n.firstKey ≤ front.length) (hsize : n.firstKey < n.size)
    (below : ∀ x ∈ front.drop n.firstKey, x.1 < target) (above : ∀ x ∈ back, target ≤ x.1) :
    n.lowerBound L target = if back = [] then none else some front.length := by
  have len : n.size = front.length + back.length := by simp [size, h]
  have keyBelow : ∀ i, n.firstKey ≤ i → i < front.length → n.getKey L i < target := by
    intro i hi hlt
    have hslot : n.getKey L i = front[i].1 := by
      simp [getKey, slot, h, List.getElem?_append_left hlt, List.getElem?_eq_getElem hlt]
    rw [hslot]
    refine below _ (List.mem_drop_iff_getElem.mpr ⟨i - n.firstKey, by omega, ?_⟩)
    congr 1
    omega
  have keyAbove : ∀ i, front.length ≤ i → i ≤ n.size - 1 → i < n.size →
      target ≤ n.getKey L i := by
    intro i hi _ hlt
    have hback : i - front.length < back.length := by omega
    have hslot : n.getKey L i = back[i - front.length].1 := by
      simp [getKey, slot, h, List.getElem?_append_right hi, List.getElem?_append_left hback,
        List.getElem?_eq_getElem hback]
    rw [hslot]
    exact above _ (List.getElem_mem hback)
  have loop : lowerBoundLoop (n.getKey L) target n.size n.firstKey (n.size - 1) =
      min front.length (n.size - 1) :=
    lowerBoundLoop_eq (by omega) hfront (by omega) (by omega) keyBelow
      (fun i hi hi' => keyAbove i hi hi' (by omega))
  simp only [lowerBound, loop]
  split_ifs with hlt hnil hnil
  · rfl
  · have hpos : 0 < back.length := List.length_pos_iff.mpr hnil
    rw [Nat.min_eq_left (by omega)] at hlt
    exact absurd (keyAbove _ le_rfl (by omega) (by omega)) (not_le.mpr hlt)
  · subst hnil
    simp only [List.length_nil, Nat.add_zero] at len
    rw [Nat.min_eq_right (by omega)] at hlt
    exact absurd (keyBelow (n.size - 1) (by omega) (by omega)) hlt
  · have hpos : 0 < back.length := List.length_pos_iff.mpr hnil
    rw [Nat.min_eq_left (by omega)]

theorem upperBoundLoop_eq {key : Nat → κ} {target : κ} {pos fuel l r : Nat} (hlr : l ≤ r)
    (hl : l ≤ pos) (hr : pos ≤ r + 1) (enough : r - l ≤ fuel)
    (below : ∀ i, l ≤ i → i < pos → key i ≤ target)
    (above : ∀ i, pos ≤ i → i ≤ r → target < key i) :
    upperBoundLoop key target fuel l r = min pos r := by
  induction fuel generalizing l r with
  | zero =>
    have : l = r := by omega
    subst this
    simp only [upperBoundLoop]
    omega
  | succ fuel ih =>
    simp only [upperBoundLoop]
    split
    · next hlt =>
      split
      · next hm =>
        have hpos : (l + r) / 2 < pos := by
          by_contra hge
          exact absurd (above _ (by omega) (by omega)) (not_lt.mpr hm)
        exact ih (by omega) (by omega) hr (by omega) (fun i hi => below i (by omega)) above
      · next hm =>
        have hpos : pos ≤ (l + r) / 2 := by
          by_contra hlt
          exact hm (below _ (by omega) (by omega))
        rw [ih (by omega) hl (by omega) (by omega) below
          (fun i hi hi' => above i hi (by omega))]
        omega
    · next hge => omega

/-- `upper_bound` of a leaf, cut into the keys not above the target and the others. -/
theorem upperBound_eq {target : κ} (hn : n.isLeaf = true) (h : n.entries = front ++ back)
    (hsize : n.entries ≠ []) (below : ∀ x ∈ front, x.1 ≤ target)
    (above : ∀ x ∈ back, target < x.1) :
    n.upperBound L target = if back = [] then none else some front.length := by
  have first : n.firstKey = 0 := by simp [firstKey, hn]
  have len : n.size = front.length + back.length := by simp [size, h]
  have pos : 0 < n.size := List.length_pos_iff.mpr hsize
  have keyBelow : ∀ i, i < front.length → n.getKey L i ≤ target := by
    intro i hlt
    have hslot : n.getKey L i = front[i].1 := by
      simp [getKey, slot, h, List.getElem?_append_left hlt, List.getElem?_eq_getElem hlt]
    rw [hslot]
    exact below _ (List.getElem_mem hlt)
  have keyAbove : ∀ i, front.length ≤ i → i < n.size → target < n.getKey L i := by
    intro i hi hlt
    have hback : i - front.length < back.length := by omega
    have hslot : n.getKey L i = back[i - front.length].1 := by
      simp [getKey, slot, h, List.getElem?_append_right hi, List.getElem?_append_left hback,
        List.getElem?_eq_getElem hback]
    rw [hslot]
    exact above _ (List.getElem_mem hback)
  have loop : upperBoundLoop (n.getKey L) target n.size n.firstKey (n.size - 1) =
      min front.length (n.size - 1) :=
    upperBoundLoop_eq (by omega) (by omega) (by omega) (by omega) (fun i _ => keyBelow i)
      (fun i hi hi' => keyAbove i hi (by omega))
  simp only [upperBound, loop]
  cases back with
  | nil =>
    simp only [List.length_nil, Nat.add_zero] at len
    rw [Nat.min_eq_right (by omega), if_neg (not_lt.mpr (keyBelow _ (by omega))), if_pos rfl]
  | cons x back =>
    simp only [List.length_cons] at len
    rw [Nat.min_eq_left (by omega), if_pos (keyAbove _ le_rfl (by omega)), if_neg (by simp)]

/-- `insert` puts a key that no live slot holds between the smaller and the greater ones. -/
theorem insert_eq {key : κ} {value : Rid} (h : n.entries = front ++ back)
    (hfront : n.firstKey ≤ front.length) (hsize : n.firstKey < n.size)
    (below : ∀ x ∈ front.drop n.firstKey, x.1 < key) (above : ∀ x ∈ back, key < x.1) :
    n.insert L key value =
      some { n with entries := front ++ (key, value) :: back, dead := n.dead.tail } := by
  have bound := lowerBound_eq L h hfront hsize below (fun x hx => (above x hx).le)
  rw [insert, if_neg (by omega), bound, ← insertAt_eq h]
  cases back with
  | nil => simp [size, h]
  | cons x back =>
    have hne : x.1 ≠ key := (above x (by simp)).ne'
    simp only [reduceCtorEq, if_false, getKey_eq L h, if_neg hne]

/-- `insert` of a key above every live one. -/
theorem insert_last {key : κ} {value : Rid} (hsize : n.firstKey < n.size)
    (below : ∀ x ∈ n.entries.drop n.firstKey, x.1 < key) :
    n.insert L key value =
      some { n with entries := n.entries ++ [(key, value)], dead := n.dead.tail } := by
  have h : n.entries = n.entries ++ [] := by simp
  exact insert_eq L h hsize.le hsize below (by simp)

/-- `insert` into a leaf of a key below every live one. -/
theorem insert_first {key : κ} {value : Rid} (hn : n.isLeaf = true) (hsize : 0 < n.size)
    (above : ∀ x ∈ n.entries, key < x.1) :
    n.insert L key value =
      some { n with entries := (key, value) :: n.entries, dead := n.dead.tail } := by
  have hfirst : n.firstKey = 0 := by simp [firstKey, hn]
  have h : n.entries = [] ++ n.entries := by simp
  exact insert_eq L h (by simp [hfirst]) (by omega) (by simp) above

theorem insert_exists {key : κ} {value : Rid} (h : n.entries = front ++ e :: back)
    (hfront : n.firstKey ≤ front.length) (below : ∀ x ∈ front.drop n.firstKey, x.1 < key)
    (here : e.1 = key) (above : ∀ x ∈ back, key ≤ x.1) : n.insert L key value = none := by
  have hsize : n.firstKey < n.size := by
    simp only [size, h, List.length_append, List.length_cons]
    omega
  have bound := lowerBound_eq L h hfront hsize below (by
    intro x hx
    rcases List.mem_cons.mp hx with rfl | hx
    · exact here.ge
    · exact above x hx)
  rw [insert, if_neg (by omega), bound]
  simp [getKey_eq L h, here]

/-- On an inner node with a single child `lower_bound` compares with the dead slot 1. -/
theorem insert_single {key : κ} {value : Rid} (h : n.entries = [e]) (hn : n.isLeaf = false) :
    n.insert L key value =
      if n.getKey L 1 = key then none
      else some { n with entries := [e, (key, value)], dead := n.dead.tail } := by
  have hsize : n.size = 1 := by simp [size, h]
  have loop : lowerBoundLoop (n.getKey L) key 1 1 0 = 1 := by simp [lowerBoundLoop]
  simp only [insert, lowerBound, firstKey, hn, hsize, Bool.false_eq_true, if_false, loop,
    Nat.sub_self, one_ne_zero]
  have at1 : n.insertAt 1 key value =
      { n with entries := [e, (key, value)], dead := n.dead.tail } := by
    simp [insertAt, h]
  by_cases hlt : n.getKey L 1 < key
  · simp [hlt, hlt.ne, at1, hn]
  · simp [hlt, at1, hn]

/-- `internal_lookup` follows the last child whose separator is not above the key. -/
theorem internalLookup_eq {key : κ} (hn : n.isLeaf = false) (h : n.entries = front ++ e :: back)
    (hsize : 2 ≤ n.size) (below : ∀ x ∈ (front ++ [e]).tail, x.1 ≤ key)
    (sorted : (n.entries.tail.map Prod.fst).Pairwise (· < ·))
    (above : ∀ x ∈ back, key < x.1) : n.internalLookup L key = e.2.pageNo := by
  have first : n.firstKey = 1 := by simp [firstKey, hn]
  have whole : n.entries = (front ++ [e]) ++ back := by simp [h]
  by_cases hit : front ≠ [] ∧ e.1 = key
  · obtain ⟨hf, rfl⟩ := hit
    have hlen : 1 ≤ front.length := List.length_pos_iff.mpr hf
    have strict : ∀ x ∈ front.drop 1, x.1 < e.1 := by
      intro x hx
      rw [h, List.tail_append_of_ne_nil hf, List.map_append, List.pairwise_append] at sorted
      exact sorted.2.2 x.1 (List.mem_map_of_mem (by simpa using hx)) e.1 (by simp)
    have bound := lowerBound_eq L h (first ▸ hlen) (by omega) (by rw [first]; exact strict) (by
      intro x hx
      rcases List.mem_cons.mp hx with rfl | hx
      · exact le_rfl
      · exact (above x hx).le)
    simp [internalLookup, bound, getKey_eq L h, valueAt_eq L h]
  · have strict : ∀ x ∈ (front ++ [e]).drop n.firstKey, x.1 < key := by
      intro x hx
      rw [first, List.drop_one] at hx
      refine (below x hx).lt_of_ne fun heq => ?_
      cases front with
      | nil => simp at hx
      | cons y front =>
        simp only [List.cons_append, List.tail_cons, List.mem_append, List.mem_singleton] at hx
        rcases hx with hx | rfl
        · have lt : x.1 < e.1 := by
            rw [h] at sorted
            simp only [List.cons_append, List.tail_cons, List.map_append,
              List.pairwise_append] at sorted
            exact sorted.2.2 x.1 (List.mem_map_of_mem hx) e.1 (by simp)
          have := below e (by simp)
          exact absurd (heq ▸ lt) (not_lt.mpr this)
        · exact hit ⟨by simp, heq⟩
    have bound := lowerBound_eq L whole (by simp [first]) (by omega) strict
      (fun x hx => (above x hx).le)
    cases back with
    | nil =>
      have last : n.size - 1 = front.length := by simp [size, h]
      simp [internalLookup, bound, last, valueAt_eq L h]
    | cons y back =>
      have hne : n.getKey L (front.length + 1) ≠ key := by
        have := getKey_eq L whole
        simp only [List.length_append, List.length_singleton] at this
        rw [this]
        exact (above y (by simp)).ne'
      simp [internalLookup, bound, hne, valueAt_eq L h]

end Grmdb.IxNode
