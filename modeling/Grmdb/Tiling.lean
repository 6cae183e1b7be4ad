import Mathlib

namespace Tiling

/-- A key, or one of the two ends of the key space. -/
abbrev Bound (κ : Type) := WithBot (WithTop κ)

def Bound.at {κ : Type} (k : κ) : Bound κ := ((k : WithTop κ) : WithBot (WithTop κ))

section Tiles

variable {π β : Type} [LinearOrder β] {lo hi lo' hi' : π → β} {a b : β} {ps qs : List π} {p q : π}

/-- The ranges `[lo p, hi p)` of `ps`, none of them empty, cover `[a, b)` from left to right. -/
def Tiles (lo hi : π → β) : β → List π → β → Prop
  | a, [], b => a = b
  | a, p :: ps, b => lo p = a ∧ a < hi p ∧ Tiles lo hi (hi p) ps b

@[simp] theorem tiles_nil : Tiles lo hi a [] b ↔ a = b := Iff.rfl

theorem tiles_cons :
    Tiles lo hi a (p :: ps) b ↔ lo p = a ∧ a < hi p ∧ Tiles lo hi (hi p) ps b := Iff.rfl

theorem tiles_append :
    Tiles lo hi a (ps ++ qs) b ↔ ∃ m, Tiles lo hi a ps m ∧ Tiles lo hi m qs b := by
  induction ps generalizing a with
  | nil => simp
  | cons p ps ih =>
    simp only [List.cons_append, tiles_cons, ih]
    constructor
    · rintro ⟨hlo, hlt, m, left, right⟩
      exact ⟨m, ⟨hlo, hlt, left⟩, right⟩
    · rintro ⟨m, ⟨hlo, hlt, left⟩, right⟩
      exact ⟨hlo, hlt, m, left, right⟩

theorem Tiles.congr (h : Tiles lo hi a ps b) (hlo : ∀ p ∈ ps, lo' p = lo p)
    (hhi : ∀ p ∈ ps, hi' p = hi p) : Tiles lo' hi' a ps b := by
  induction ps generalizing a with
  | nil => exact h
  | cons p ps ih =>
    obtain ⟨start, step, rest⟩ := h
    have next := ih rest (fun q hq => hlo q (by simp [hq])) (fun q hq => hhi q (by simp [hq]))
    refine ⟨by rw [hlo p (by simp), start], by rwa [hhi p (by simp)], ?_⟩
    rwa [hhi p (by simp)]

theorem Tiles.le (h : Tiles lo hi a ps b) : a ≤ b := by
  induction ps generalizing a with
  | nil => exact h.le
  | cons p ps ih => exact h.2.1.le.trans (ih h.2.2)

theorem Tiles.lt (h : Tiles lo hi a ps b) (hne : ps ≠ []) : a < b := by
  cases ps with
  | nil => exact absurd rfl hne
  | cons p ps => exact h.2.1.trans_le h.2.2.le

theorem Tiles.mem_bounds (h : Tiles lo hi a ps b) (hp : p ∈ ps) :
    a ≤ lo p ∧ lo p < hi p ∧ hi p ≤ b := by
  obtain ⟨front, back, rfl⟩ := List.append_of_mem hp
  obtain ⟨m, left, start, step, rest⟩ := tiles_append.mp h
  rw [start]
  exact ⟨left.le, step, rest.le⟩

/-- Every point of a tiled range lies in one of the tiles, after the ones below it. -/
theorem Tiles.locate {x : β} (h : Tiles lo hi a ps b) (ha : a ≤ x) (hb : x < b) :
    ∃ front p back, ps = front ++ p :: back ∧ lo p ≤ x ∧ x < hi p := by
  induction ps generalizing a with
  | nil => exact absurd hb (h ▸ ha).not_gt
  | cons p ps ih =>
    rcases lt_or_ge x (hi p) with inside | beyond
    · exact ⟨[], p, ps, rfl, h.1.trans_le ha, inside⟩
    · obtain ⟨front, q, back, rfl, hq⟩ := ih h.2.2 beyond
      exact ⟨p :: front, q, back, rfl, hq⟩

theorem Tiles.front_le (h : Tiles lo hi a (ps ++ p :: qs) b) (hq : q ∈ ps) : hi q ≤ lo p := by
  obtain ⟨m, left, start, -⟩ := tiles_append.mp h
  rw [start]
  exact (left.mem_bounds hq).2.2

theorem Tiles.le_back (h : Tiles lo hi a (ps ++ p :: qs) b) (hq : q ∈ qs) : hi p ≤ lo q := by
  obtain ⟨m, -, -, -, right⟩ := tiles_append.mp h
  exact (right.mem_bounds hq).1

theorem Tiles.pairwise (h : Tiles lo hi a ps b) : ps.Pairwise fun p q => lo p < lo q := by
  induction ps generalizing a with
  | nil => simp
  | cons p ps ih =>
    refine List.pairwise_cons.mpr ⟨fun q hq => ?_, ih h.2.2⟩
    rw [h.1]
    exact h.2.1.trans_le (h.2.2.mem_bounds hq).1

/-- Two tiles of one tiling that share a point are the same. -/
theorem Tiles.unique {x : β} (h : Tiles lo hi a ps b) (hp : p ∈ ps) (hq : q ∈ ps)
    (px : lo p ≤ x) (xp : x < hi p) (qx : lo q ≤ x) (xq : x < hi q) : p = q := by
  obtain ⟨front, back, rfl⟩ := List.append_of_mem hp
  rcases List.mem_append.mp hq with hq | hq
  · exact absurd (xq.trans_le ((h.front_le hq).trans px)) (lt_irrefl x)
  · rcases List.mem_cons.mp hq with rfl | hq
    · rfl
    · exact absurd (xp.trans_le ((h.le_back hq).trans qx)) (lt_irrefl x)

theorem Tiles.lo_inj (h : Tiles lo hi a ps b) (hp : p ∈ ps) (hq : q ∈ ps)
    (same : lo p = lo q) : p = q :=
  h.unique hp hq le_rfl (h.mem_bounds hp).2.1 same.ge (same ▸ (h.mem_bounds hq).2.1)

theorem Tiles.nodup (h : Tiles lo hi a ps b) : ps.Nodup :=
  h.pairwise.imp fun hlt e => absurd (e ▸ hlt) (lt_irrefl _)

variable [DecidableEq π]

/-- Cutting the tile `p` at `m` puts the new tile `q` right behind it. -/
theorem Tiles.cut {m : β} (h : Tiles lo hi a (ps ++ p :: qs) b) (hq : q ∉ ps ++ p :: qs)
    (left : lo p < m) (right : m < hi p) :
    Tiles (Function.update lo q m) (Function.update (Function.update hi q (hi p)) p m)
      a (ps ++ p :: q :: qs) b := by
  have nodup := List.nodup_append.mp h.nodup
  have notFront : ∀ x ∈ ps, x ≠ p := fun x hx => nodup.2.2 x hx p (by simp)
  have notBack : ∀ x ∈ qs, x ≠ p := fun x hx e => (List.nodup_cons.mp nodup.2.1).1 (e ▸ hx)
  have fresh : ∀ x ∈ ps ++ p :: qs, x ≠ q := fun x hx e => hq (e ▸ hx)
  have ne : q ≠ p := (fresh p (by simp)).symm
  obtain ⟨c, front, start, step, back⟩ := tiles_append.mp h
  refine tiles_append.mpr ⟨c, front.congr ?_ ?_, ?_, ?_, ?_⟩
  · intro x hx
    simp [fresh x (by simp [hx])]
  · intro x hx
    simp [fresh x (by simp [hx]), notFront x hx]
  · simp [ne.symm, start]
  · simpa [← start] using left
  · refine ⟨by simp, by simpa [ne] using right, ?_⟩
    rw [Function.update_of_ne ne, Function.update_self]
    refine back.congr ?_ ?_
    · intro x hx
      simp [fresh x (by simp [hx])]
    · intro x hx
      simp [fresh x (by simp [hx]), notBack x hx]

/-- Joining the tile `q` to the tile `p` before it. -/
theorem Tiles.join (h : Tiles lo hi a (ps ++ p :: q :: qs) b) :
    Tiles lo (Function.update hi p (hi q)) a (ps ++ p :: qs) b := by
  have nodup := List.nodup_append.mp h.nodup
  have notFront : ∀ x ∈ ps, x ≠ p := fun x hx => nodup.2.2 x hx p (by simp)
  have notBack : ∀ x ∈ qs, x ≠ p := by
    intro x hx e
    exact (List.nodup_cons.mp nodup.2.1).1 (e ▸ List.mem_cons_of_mem q hx)
  obtain ⟨c, front, start, step, next, stepNext, back⟩ := tiles_append.mp h
  refine tiles_append.mpr ⟨c, front.congr (fun _ _ => rfl) ?_, start, ?_, ?_⟩
  · intro x hx
    simp [notFront x hx]
  · simpa using step.trans stepNext
  · rw [Function.update_self]
    refine back.congr (fun _ _ => rfl) ?_
    intro x hx
    simp [notBack x hx]

end Tiles

section Within

@[simp] theorem Bound.at_inj {κ : Type} {j k : κ} : Bound.at j = Bound.at k ↔ j = k := by
  simp [Bound.at]

variable {κ : Type} [LinearOrder κ] {a b m : Bound κ} {k : κ} {ks ls : List κ}

@[simp] theorem Bound.at_lt_at {j : κ} : Bound.at j < Bound.at k ↔ j < k := by
  simp [Bound.at]

@[simp] theorem Bound.at_le_at {j : κ} : Bound.at j ≤ Bound.at k ↔ j ≤ k := by
  simp [Bound.at]

theorem Bound.at_lt_top : Bound.at k < (⊤ : Bound κ) := by
  exact WithBot.coe_lt_coe.mpr (WithTop.coe_lt_top k)

/-- The keys `ks` ascend strictly and lie in `[a, b)`. -/
structure Within (a : Bound κ) (ks : List κ) (b : Bound κ) : Prop where
  sorted : ks.Pairwise (· < ·)
  ge : ∀ k ∈ ks, a ≤ Bound.at k
  lt : ∀ k ∈ ks, Bound.at k < b

theorem Within.sublist (h : Within a ks b) (sub : ls.Sublist ks) : Within a ls b :=
  ⟨h.sorted.sublist sub, fun k hk => h.ge k (sub.subset hk), fun k hk => h.lt k (sub.subset hk)⟩

theorem Within.append (left : Within a ks m) (right : Within m ls b) (ham : a ≤ m) (hmb : m ≤ b) :
    Within a (ks ++ ls) b := by
  refine ⟨List.pairwise_append.mpr ⟨left.sorted, right.sorted, fun j hj k hk => ?_⟩, ?_, ?_⟩
  · exact Bound.at_lt_at.mp ((left.lt j hj).trans_le (right.ge k hk))
  · intro k hk
    rcases List.mem_append.mp hk with hk | hk
    · exact left.ge k hk
    · exact ham.trans (right.ge k hk)
  · intro k hk
    rcases List.mem_append.mp hk with hk | hk
    · exact (left.lt k hk).trans_le hmb
    · exact right.lt k hk

/-- A list of keys cut in front of `k`. -/
theorem Within.cut (h : Within a (ks ++ k :: ls) b) :
    Within a ks (Bound.at k) ∧ Within (Bound.at k) (k :: ls) b := by
  obtain ⟨front, back, across⟩ := List.pairwise_append.mp h.sorted
  refine ⟨⟨front, fun j hj => h.ge j (by simp [hj]), fun j hj => ?_⟩,
    back, fun j hj => ?_, fun j hj => h.lt j (by simp [List.mem_cons.mp hj])⟩
  · exact Bound.at_lt_at.mpr (across j hj k (by simp))
  · rcases List.mem_cons.mp hj with rfl | hj
    · exact le_rfl
    · exact Bound.at_le_at.mpr ((List.pairwise_cons.mp back).1 j hj).le

theorem Within.insert (h : Within a (ks ++ ls) b) (below : ∀ j ∈ ks, j < k)
    (above : ∀ j ∈ ls, k < j) (ha : a ≤ Bound.at k) (hb : Bound.at k < b) :
    Within a (ks ++ k :: ls) b := by
  obtain ⟨front, back, across⟩ := List.pairwise_append.mp h.sorted
  refine ⟨?_, fun j hj => ?_, fun j hj => ?_⟩
  · refine List.pairwise_append.mpr
      ⟨front, List.pairwise_cons.mpr ⟨above, back⟩, fun i hi j hj => ?_⟩
    rcases List.mem_cons.mp hj with rfl | hj
    · exact below i hi
    · exact across i hi j hj
  · simp only [List.mem_append, List.mem_cons] at hj
    rcases hj with hj | rfl | hj
    · exact h.ge j (by simp [hj])
    · exact ha
    · exact h.ge j (by simp [hj])
  · simp only [List.mem_append, List.mem_cons] at hj
    rcases hj with hj | rfl | hj
    · exact h.lt j (by simp [hj])
    · exact hb
    · exact h.lt j (by simp [hj])

/-- A sorted list splits at any key into what is below it and what is not. -/
theorem Within.split (h : Within a ks b) (k : κ) :
    ∃ front back, ks = front ++ back ∧ (∀ j ∈ front, j < k) ∧ ∀ j ∈ back, k ≤ j := by
  induction ks generalizing a with
  | nil => exact ⟨[], [], rfl, by simp, by simp⟩
  | cons i ks ih =>
    rcases lt_or_ge i k with low | high
    · obtain ⟨front, back, rfl, hf, hb⟩ := ih (h.sublist (List.sublist_cons_self i ks))
      exact ⟨i :: front, back, rfl, by simpa [low] using hf, hb⟩
    · refine ⟨[], i :: ks, rfl, by simp, fun j hj => ?_⟩
      rcases List.mem_cons.mp hj with rfl | hj
      · exact high
      · exact high.trans ((List.pairwise_cons.mp h.sorted).1 j hj).le

theorem Within.splitLe (h : Within a ks b) (k : κ) :
    ∃ front back, ks = front ++ back ∧ (∀ j ∈ front, j ≤ k) ∧ ∀ j ∈ back, k < j := by
  obtain ⟨front, back, rfl, hf, hb⟩ := h.split k
  cases back with
  | nil => exact ⟨front, [], rfl, fun j hj => (hf j hj).le, by simp⟩
  | cons i back =>
    have hsorted := (List.pairwise_append.mp h.sorted).2.1
    rcases (hb i List.mem_cons_self).eq_or_lt with rfl | hlt
    · refine ⟨front ++ [k], back, by simp, fun j hj => ?_, (List.pairwise_cons.mp hsorted).1⟩
      rcases List.mem_append.mp hj with hj | hj
      · exact (hf j hj).le
      · exact (List.mem_singleton.mp hj).le
    · refine ⟨front, i :: back, rfl, fun j hj => (hf j hj).le, fun j hj => ?_⟩
      rcases List.mem_cons.mp hj with rfl | hj
      · exact hlt
      · exact hlt.trans ((List.pairwise_cons.mp hsorted).1 j hj)

end Within

end Tiling
