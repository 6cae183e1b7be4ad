import Grmdb.TreeJoin

namespace PagedTree

open Tiling

variable {π κ ρ : Type} [DecidableEq π] [LinearOrder κ] {root : π}
  {pages : π → Option (PNode π κ ρ)} {g : Labels π κ} {p q par pp : π} {o o' : Option κ}
  {front back : List (Option κ × π)} {n n₁ n₂ : PNode π κ ρ}

/-- The children of two neighbours are dealt out anew between them. -/
def shiftPages (pages : π → Option (PNode π κ ρ)) (p q par : π) (m₁ m₂ up : PNode π κ ρ) :
    π → Option (PNode π κ ρ) := fun x =>
  if x = p then some m₁ else if x = q then some m₂ else if x = par then some up
  else if x ∈ m₁.kids then (pages x).map (PNode.withParent p)
  else if x ∈ m₂.kids then (pages x).map (PNode.withParent q) else pages x

theorem shiftPages_eq {m₁ m₂ up up₀ : PNode π κ ρ} (h : TreeShape root pages g)
    (hp : pages p = some n₁) (hpq : p ≠ q) (hparp : par ≠ p) (hparq : par ≠ q)
    (hkids : n.kids = n₁.kids ++ n₂.kids) (hkids' : n.kids = m₁.kids ++ m₂.kids)
    (hnodup : n.kids.Nodup) :
    cutPages (joinPages pages p q par n₂.kids n up₀) p q par m₁ m₂ up =
      shiftPages pages p q par m₁ m₂ up := by
  funext x
  by_cases hxp : x = p
  · rw [hxp, cutPages_left]
    simp [shiftPages]
  by_cases hxq : x = q
  · rw [hxq, cutPages_right hpq.symm]
    simp [shiftPages, hpq.symm]
  by_cases hxpar : x = par
  · rw [hxpar, cutPages_parent hparp hparq]
    simp [shiftPages, hparp, hparq]
  simp only [shiftPages, hxp, hxq, hxpar, if_false]
  rw [hkids'] at hnodup
  have hapart := (List.nodup_append.mp hnodup).2.2
  have hmem : x ∈ n₁.kids ∨ x ∈ n₂.kids ↔ x ∈ m₁.kids ∨ x ∈ m₂.kids := by
    rw [← List.mem_append, ← List.mem_append, ← hkids, ← hkids']
  by_cases hx₂ : x ∈ m₂.kids
  · have hx₁ : x ∉ m₁.kids := fun hx₁ => hapart x hx₁ x hx₂ rfl
    rw [cutPages_moved hxp hxq hxpar hx₂, if_neg hx₁, if_pos hx₂]
    by_cases hk : x ∈ n₂.kids
    · rw [joinPages_moved hxp hxq hxpar hk]
      cases pages x <;> simp
    · rw [joinPages_other hxp hxq hxpar hk]
  · rw [cutPages_other hxp hxq hxpar hx₂, if_neg hx₂]
    by_cases hk : x ∈ n₂.kids
    · have hx₁ : x ∈ m₁.kids := (hmem.mp (.inr hk)).resolve_right hx₂
      rw [joinPages_moved hxp hxq hxpar hk, if_pos hx₁]
    · rw [joinPages_other hxp hxq hxpar hk]
      by_cases hx₁ : x ∈ m₁.kids
      · obtain ⟨m, hm, hparent⟩ := h.down hp ((hmem.mpr (.inl hx₁)).resolve_right hk)
        rw [if_pos hx₁, hm, Option.map_some, PNode.withParent_self m hparent]
      · rw [if_neg hx₁]

theorem TreeShape.shift {m₁ m₂ : PNode π κ ρ} {sep : κ} (h : TreeShape root pages g)
    (hp : pages p = some n₁) (hq : pages q = some n₂)
    (hpar : pages par = some (.inner pp (front ++ (o, p) :: (o', q) :: back)))
    (hkids : n.kids = n₁.kids ++ n₂.kids) (hn : n.parent = par) (hfits : Fits (g.join p q) p n)
    (hkids' : n.kids = m₁.kids ++ m₂.kids) (hm₁ : m₁.parent = par) (hm₂ : m₂.parent = par)
    (hlo : g.lo p < Bound.at sep) (hhi : Bound.at sep < g.hi q)
    (fits₁ : Fits ((g.join p q).cut p q sep) p m₁) (fits₂ : Fits ((g.join p q).cut p q sep) q m₂) :
    TreeShape root
      (shiftPages pages p q par m₁ m₂ (.inner pp (front ++ (o, p) :: (some sep, q) :: back)))
      ((g.join p q).cut p q sep) := by
  have pkid : p ∈ (PNode.inner pp (front ++ (o, p) :: (o', q) :: back) : PNode π κ ρ).kids := by
    simp [PNode.kids]
  have qkid : q ∈ (PNode.inner pp (front ++ (o, p) :: (o', q) :: back) : PNode π κ ρ).kids := by
    simp [PNode.kids]
  have hparp : par ≠ p := (h.kid_ne hpar pkid).symm
  have hparq : par ≠ q := (h.kid_ne hpar qkid).symm
  have hpq : p ≠ q := by
    have hnodup := (h.fits hpar).kids_nodup
    simp only [PNode.kids, List.map_append, List.map_cons] at hnodup
    have hpq := (List.nodup_append.mp hnodup).2.1
    simp only [List.nodup_cons, List.mem_cons, not_or] at hpq
    exact hpq.1.1
  have joined := h.join hp hq hpar hkids hn hfits
  have hnil : ∀ m, joinPages pages p q par n₂.kids n (.inner pp (front ++ (o, p) :: back)) root =
      some m → m.parent ≠ q := by
    intro m hm heq
    obtain ⟨m₀, hm₀, absent⟩ := h.rootAt
    have hparent : m.parent = m₀.parent := by
      rcases joinPages_cases hm with ⟨hr, -⟩ | ⟨-, -, hr, rfl⟩ | ⟨-, -, -, m', hm', hcase⟩
      · exact absurd hr.symm (h.kid_ne_root hpar pkid)
      · rw [hr, hpar] at hm₀
        cases Option.some.inj hm₀
        rfl
      · cases Option.some.inj (hm'.symm.trans hm₀)
        rcases hcase with ⟨hk, -⟩ | ⟨-, rfl⟩
        · exact absurd rfl (h.kid_ne_root hq hk)
        · rfl
    rw [← hparent, heq, hq] at absent
    cases absent
  have cut := joined.cut joinPages_left (joinPages_parent hparp hparq) (joinPages_right hpq.symm)
    hnil hkids' hm₁ hm₂ hlo (by simpa [Labels.join] using hhi) fits₁ fits₂
  rwa [shiftPages_eq h hp hpq hparp hparq hkids hkids' hfits.kids_nodup] at cut

theorem stores_shiftPages {m₁ m₂ u up : PNode π κ ρ} {k : κ} {r : ρ} (h : TreeShape root pages g)
    (hp : pages p = some n₁) (hq : pages q = some n₂) (hpar : pages par = some u)
    (hpq : p ≠ q) (hparp : par ≠ p) (hparq : par ≠ q) (hu : u.entries = [])
    (hup : up.entries = []) (hkids : n.kids = n₁.kids ++ n₂.kids)
    (hkids' : n.kids = m₁.kids ++ m₂.kids) (hnodup : n.kids.Nodup)
    (hentries : n.entries = n₁.entries ++ n₂.entries)
    (hentries' : n.entries = m₁.entries ++ m₂.entries) :
    Stores (shiftPages pages p q par m₁ m₂ up) k r ↔ Stores pages k r := by
  have hcut : Stores (cutPages (joinPages pages p q par n₂.kids n up) p q par m₁ m₂ up) k r ↔
      Stores (joinPages pages p q par n₂.kids n up) k r :=
    stores_cutPages joinPages_left (joinPages_right hpq.symm) (joinPages_parent hparp hparq) hup
      hup hparp hentries'
  rw [shiftPages_eq h hp hpq hparp hparq hkids hkids' hnodup] at hcut
  rw [hcut]
  exact stores_joinPages hp hq hpar hu hup hparp hentries

end PagedTree
