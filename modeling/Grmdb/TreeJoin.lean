import Grmdb.TreeCut

namespace PagedTree

open Tiling

variable {π κ ρ : Type} [DecidableEq π]

/-- Page `p` takes over the range of its right neighbour `q`. -/
def Labels.join (g : Labels π κ) (p q : π) : Labels π κ :=
  { g with hi := Function.update g.hi p (g.hi q) }

theorem Labels.join_sameAt {g : Labels π κ} {p q x : π} (hp : x ≠ p) :
    g.SameAt (g.join p q) x := by
  simp [SameAt, join, hp]

/-- The node of `q`, whose children are `moved`, is joined to the one of `p`. -/
def joinPages (pages : π → Option (PNode π κ ρ)) (p q par : π) (moved : List π)
    (n up : PNode π κ ρ) : π → Option (PNode π κ ρ) := fun x =>
  if x = p then some n else if x = q then none else if x = par then some up
  else if x ∈ moved then (pages x).map (PNode.withParent p) else pages x

section Join

variable {pages : π → Option (PNode π κ ρ)} {p q par x : π} {moved : List π}
  {n up n' : PNode π κ ρ}

theorem joinPages_cases (hx : joinPages pages p q par moved n up x = some n') :
    x = p ∧ n' = n ∨ x ≠ p ∧ x ≠ q ∧ x = par ∧ n' = up ∨
      x ≠ p ∧ x ≠ q ∧ x ≠ par ∧ ∃ m, pages x = some m ∧
        (x ∈ moved ∧ n' = m.withParent p ∨ x ∉ moved ∧ n' = m) := by
  unfold joinPages at hx
  split at hx
  · next hp => exact .inl ⟨hp, (Option.some.inj hx).symm⟩
  split at hx
  · cases hx
  split at hx
  · next hp hq hpar => exact .inr (.inl ⟨hp, hq, hpar, (Option.some.inj hx).symm⟩)
  next hp hq hpar =>
  refine .inr (.inr ⟨hp, hq, hpar, ?_⟩)
  split at hx
  · next hk =>
    obtain ⟨m, hm, rfl⟩ := Option.map_eq_some_iff.mp hx
    exact ⟨m, hm, .inl ⟨hk, rfl⟩⟩
  · next hk => exact ⟨n', hx, .inr ⟨hk, rfl⟩⟩

theorem joinPages_left : joinPages pages p q par moved n up p = some n := by simp [joinPages]

theorem joinPages_right (hqp : q ≠ p) : joinPages pages p q par moved n up q = none := by
  simp [joinPages, hqp]

theorem joinPages_parent (hp : par ≠ p) (hq : par ≠ q) :
    joinPages pages p q par moved n up par = some up := by
  simp [joinPages, hp, hq]

theorem joinPages_moved (hp : x ≠ p) (hq : x ≠ q) (hpar : x ≠ par) (hk : x ∈ moved) :
    joinPages pages p q par moved n up x = (pages x).map (PNode.withParent p) := by
  simp [joinPages, hp, hq, hpar, hk]

theorem joinPages_other (hp : x ≠ p) (hq : x ≠ q) (hpar : x ≠ par) (hk : x ∉ moved) :
    joinPages pages p q par moved n up x = pages x := by
  simp [joinPages, hp, hq, hpar, hk]

end Join

section StoresJoin

variable {pages : π → Option (PNode π κ ρ)} {p q par : π} {n n₁ n₂ u up : PNode π κ ρ} {k : κ} {r : ρ}

theorem stores_joinPages {moved : List π} (hp : pages p = some n₁) (hq : pages q = some n₂)
    (hpar : pages par = some u) (hu : u.entries = []) (hup : up.entries = []) (hpp : par ≠ p)
    (hentries : n.entries = n₁.entries ++ n₂.entries) :
    Stores (joinPages pages p q par moved n up) k r ↔ Stores pages k r := by
  constructor
  · rintro ⟨x, m, hx, hm⟩
    rcases joinPages_cases hx with ⟨rfl, rfl⟩ | ⟨-, -, rfl, rfl⟩ | ⟨hxp, hxq, hxpar, m', hm', hcase⟩
    · rw [hentries] at hm
      rcases List.mem_append.mp hm with hm | hm
      · exact ⟨x, n₁, hp, hm⟩
      · exact ⟨q, n₂, hq, hm⟩
    · simp [hup] at hm
    · refine ⟨x, m', hm', ?_⟩
      rcases hcase with ⟨-, rfl⟩ | ⟨-, rfl⟩ <;> simpa using hm
  · rintro ⟨x, m, hx, hm⟩
    by_cases hxp : x = p
    · subst hxp
      cases Option.some.inj (hx.symm.trans hp)
      exact ⟨x, n, joinPages_left, by simp [hentries, hm]⟩
    by_cases hxq : x = q
    · subst hxq
      cases Option.some.inj (hx.symm.trans hq)
      exact ⟨p, n, joinPages_left, by simp [hentries, hm]⟩
    have hxpar : x ≠ par := by
      rintro rfl
      cases Option.some.inj (hx.symm.trans hpar)
      simp [hu] at hm
    by_cases hk : x ∈ moved
    · refine ⟨x, m.withParent p, ?_, by simpa using hm⟩
      rw [joinPages_moved hxp hxq hxpar hk, hx]
      rfl
    · exact ⟨x, m, by rw [joinPages_other hxp hxq hxpar hk, hx], hm⟩

end StoresJoin

omit [DecidableEq π] in
/-- Neighbours below one parent touch at the separator of the right one. -/
theorem Fits.neighbours [LinearOrder κ] {g : Labels π κ} {par pp p q : π} {o : Option κ} {sep : κ}
    {front back : List (Option κ × π)}
    (h : Fits g par (.inner pp (front ++ (o, p) :: (some sep, q) :: back) : PNode π κ ρ)) :
    g.height p = g.height q ∧ g.lo p < Bound.at sep ∧ g.hi p = Bound.at sep ∧
      g.lo q = Bound.at sep ∧ Bound.at sep < g.hi q := by
  obtain ⟨htiles, hkids⟩ := h
  have hp := (hkids (o, p) (by simp)).1
  have hq := hkids (some sep, q) (by simp)
  have hsep : g.lo q = Bound.at sep := hq.2 sep rfl
  rw [List.map_append, List.map_cons, List.map_cons] at htiles
  obtain ⟨m, -, hlo, hlt, hlo', hlt', -⟩ := tiles_append.mp htiles
  simp only at hp hq hlo hlt hlo' hlt'
  have hmid : g.hi p = Bound.at sep := hlo'.symm.trans hsep
  have hheight : g.height p = g.height q := by omega
  refine ⟨hheight, ?_, hmid, hsep, hmid ▸ hlt'⟩
  rw [hlo, ← hmid]
  exact hlt

section FitsJoin

variable [LinearOrder κ] {g : Labels π κ} {p q par₁ par₂ a₁ b₁ a₂ b₂ c : π} {sep : κ}

theorem Fits.joinLeaf {es₁ es₂ : List (κ × ρ)} (hlo : g.lo p < Bound.at sep)
    (hmid : g.hi p = Bound.at sep) (hsep : g.lo q = Bound.at sep) (hhi : Bound.at sep < g.hi q)
    (h₁ : Fits g p (.leaf par₁ a₁ b₁ es₁)) (h₂ : Fits g q (.leaf par₂ a₂ b₂ es₂)) :
    ∀ par a b, Fits (g.join p q) p (.leaf par a b (es₁ ++ es₂)) := by
  obtain ⟨hheight, hleft⟩ := h₁
  obtain ⟨-, hright⟩ := h₂
  rw [hmid] at hleft
  rw [hsep] at hright
  refine fun _ _ _ => ⟨hheight, ?_⟩
  rw [List.map_append]
  simpa [Labels.join] using hleft.append hright hlo.le hhi.le

theorem Fits.joinInner {cs₁ cs₂ : List (Option κ × π)} {o : Option κ}
    (hheight : g.height p = g.height q) (hmid : g.hi p = Bound.at sep)
    (hsep : g.lo q = Bound.at sep) (h₁ : Fits g p (.inner par₁ cs₁ : PNode π κ ρ))
    (h₂ : Fits g q (.inner par₂ ((o, c) :: cs₂) : PNode π κ ρ))
    (hp₁ : p ∉ cs₁.map Prod.snd) (hp₂ : p ∉ c :: cs₂.map Prod.snd) :
    ∀ par, Fits (g.join p q) p (.inner par (cs₁ ++ (some sep, c) :: cs₂) : PNode π κ ρ) := by
  obtain ⟨hleft, hkids₁⟩ := h₁
  obtain ⟨hright, hkids₂⟩ := h₂
  rw [List.map_cons] at hright
  rw [hmid] at hleft
  rw [hsep] at hright
  have hsame : ∀ x ∈ cs₁.map Prod.snd ++ c :: cs₂.map Prod.snd, g.SameAt (g.join p q) x := by
    intro x hx
    refine Labels.join_sameAt ?_
    rintro rfl
    exact (List.mem_append.mp hx).elim hp₁ hp₂
  have htiles := (tiles_append.mpr ⟨_, hleft, hright⟩).congr (fun x hx => (hsame x hx).2.1)
    (fun x hx => (hsame x hx).2.2)
  refine fun _ => ⟨?_, fun e he => ?_⟩
  · rw [List.map_append, List.map_cons]
    simpa [Labels.join] using htiles
  · have hx : e.2 ∈ cs₁.map Prod.snd ++ c :: cs₂.map Prod.snd := by
      have := List.mem_map_of_mem (f := Prod.snd) he
      rwa [List.map_append, List.map_cons] at this
    obtain ⟨hh, hl, -⟩ := hsame e.2 hx
    rw [hh, hl]
    simp only [Labels.join]
    rcases List.mem_append.mp he with he | he
    · exact hkids₁ e he
    · rcases List.mem_cons.mp he with rfl | he
      · have hc := hkids₂ (o, c) (by simp)
        refine ⟨hheight ▸ hc.1, ?_⟩
        intro k hk
        cases Option.some.inj hk
        exact hright.1
      · rw [hheight]
        exact hkids₂ e (by simp [he])

end FitsJoin

section TreeShape

variable [LinearOrder κ] {root : π} {pages : π → Option (PNode π κ ρ)} {g : Labels π κ}
  {p q par pp : π} {o o' : Option κ} {front back : List (Option κ × π)} {n n₁ n₂ : PNode π κ ρ}

theorem TreeShape.join (h : TreeShape root pages g) (hp : pages p = some n₁)
    (hq : pages q = some n₂)
    (hpar : pages par = some (.inner pp (front ++ (o, p) :: (o', q) :: back)))
    (hkids : n.kids = n₁.kids ++ n₂.kids) (hn : n.parent = par) (fits : Fits (g.join p q) p n) :
    TreeShape root
      (joinPages pages p q par n₂.kids n (.inner pp (front ++ (o, p) :: back))) (g.join p q) := by
  have pkid : p ∈ (PNode.inner pp (front ++ (o, p) :: (o', q) :: back) : PNode π κ ρ).kids := by
    simp [PNode.kids]
  have qkid : q ∈ (PNode.inner pp (front ++ (o, p) :: (o', q) :: back) : PNode π κ ρ).kids := by
    simp [PNode.kids]
  have parNodup : (front.map Prod.snd ++ p :: q :: back.map Prod.snd).Nodup := by
    simpa [PNode.kids] using (h.fits hpar).kids_nodup
  have hpq : p ≠ q := by
    have := (List.nodup_append.mp parNodup).2.1
    simp only [List.nodup_cons, List.mem_cons, not_or] at this
    exact this.1.1
  have hparp : par ≠ p := (h.kid_ne hpar pkid).symm
  have hparq : par ≠ q := (h.kid_ne hpar qkid).symm
  have hp₁ : n₁.parent = par := h.kid_parent hpar pkid hp
  have hp₂ : n₂.parent = par := h.kid_parent hpar qkid hq
  have pHeight := (h.fits hpar).kid_height pkid
  have qHeight := (h.fits hpar).kid_height qkid
  have lower : ∀ c, c ∈ n₁.kids ∨ c ∈ n₂.kids → g.height c + 1 = g.height p := by
    rintro c (hc | hc)
    · exact (h.fits hp).kid_height hc
    · have := (h.fits hq).kid_height hc
      omega
  have lowerNe : ∀ c, c ∈ n₁.kids ∨ c ∈ n₂.kids → c ≠ p ∧ c ≠ q ∧ c ≠ par := by
    intro c hc
    have := lower c hc
    refine ⟨?_, ?_, ?_⟩ <;> rintro rfl <;> omega
  have outside : ∀ {x m}, pages x = some m → x ≠ par → ∀ c ∈ m.kids, c ≠ p ∧ c ≠ q := by
    intro x m hx hxpar c hc
    constructor <;> rintro rfl
    · exact hxpar ((h.kid_parent hx hc hp).symm.trans hp₁)
    · exact hxpar ((h.kid_parent hx hc hq).symm.trans hp₂)
  have otherKid : ∀ {x m c m'}, x ≠ q → pages x = some m → c ∈ m.kids → pages c = some m' →
      c ∉ n₂.kids := by
    intro x m c m' hxq hx hc hm' hk
    exact hxq ((h.kid_parent hx hc hm').symm.trans (h.kid_parent hq hk hm'))
  have oldKids : ∀ c, c ∈ (PNode.inner pp (front ++ (o, p) :: back) : PNode π κ ρ).kids ↔
      c ≠ q ∧ c ∈ (PNode.inner pp (front ++ (o, p) :: (o', q) :: back) : PNode π κ ρ).kids := by
    intro c
    have cut := List.nodup_append.mp parNodup
    have hback := (List.nodup_cons.mp (List.nodup_cons.mp cut.2.1).2).1
    have hfront : q ∉ front.map Prod.snd := fun hm => cut.2.2 q hm q (by simp) rfl
    have stay : c ∈ front.map Prod.snd ∨ c = p ∨ c ∈ back.map Prod.snd → c ≠ q := by
      rintro hc rfl
      tauto
    simp only [PNode.kids, List.map_append, List.map_cons, List.mem_append, List.mem_cons]
    tauto
  refine ⟨?_, ?_, ?_, ?_, ?_, ?_⟩
  · intro x n' hx
    rcases joinPages_cases hx with ⟨rfl, rfl⟩ | ⟨hxp, -, rfl, rfl⟩ |
      ⟨hxp, hxq, hxpar, m, hm, hcase⟩
    · exact fits
    · have old := h.fits hpar
      refine ⟨?_, fun e he => ?_⟩
      · have tiles := old.tiles
        rw [List.map_append, List.map_cons, List.map_cons] at tiles
        simpa [Labels.join, hxp] using tiles.join
      · have he : e ∈ front ++ (o, p) :: (o', q) :: back := by
          simp only [List.mem_append, List.mem_cons] at he ⊢
          tauto
        exact old.2 e he
    · have kidsSame : ∀ c ∈ m.kids, g.SameAt (g.join p q) c := fun c hc =>
        Labels.join_sameAt (outside hm hxpar c hc).1
      have stays := (h.fits hm).congr (Labels.join_sameAt hxp) kidsSame
      rcases hcase with ⟨-, rfl⟩ | ⟨-, rfl⟩
      · exact fits_withParent.mpr stays
      · exact stays
  · intro x n' c hx hc
    rcases joinPages_cases hx with ⟨rfl, rfl⟩ | ⟨hxp, hxq, rfl, rfl⟩ |
      ⟨hxp, hxq, hxpar, m, hm, hcase⟩
    · rw [hkids] at hc
      obtain ⟨hcp, hcq, hcpar⟩ := lowerNe c (List.mem_append.mp hc)
      by_cases hk : c ∈ n₂.kids
      · obtain ⟨m, hm, -⟩ := h.down hq hk
        rw [joinPages_moved hcp hcq hcpar hk, hm]
        exact ⟨m.withParent x, rfl, by simp⟩
      · rw [joinPages_other hcp hcq hcpar hk]
        exact h.down hp ((List.mem_append.mp hc).resolve_right hk)
    · obtain ⟨hcq, hc⟩ := (oldKids c).mp hc
      by_cases hcp : c = p
      · subst hcp
        exact ⟨n, joinPages_left, hn⟩
      · obtain ⟨m, hm, parent⟩ := h.down hpar hc
        rw [joinPages_other hcp hcq (h.kid_ne hpar hc) (otherKid hxq hpar hc hm)]
        exact ⟨m, hm, parent⟩
    · have hc : c ∈ m.kids := by rcases hcase with ⟨-, rfl⟩ | ⟨-, rfl⟩ <;> simpa using hc
      obtain ⟨m', hm', parent⟩ := h.down hm hc
      obtain ⟨hcp, hcq⟩ := outside hm hxpar c hc
      by_cases hcpar : c = par
      · subst hcpar
        cases Option.some.inj (hm'.symm.trans hpar)
        exact ⟨_, joinPages_parent hparp hparq, parent⟩
      · rw [joinPages_other hcp hcq hcpar (otherKid hxq hm hc hm')]
        exact ⟨m', hm', parent⟩
  · intro x n' hx hroot
    rcases joinPages_cases hx with ⟨rfl, rfl⟩ | ⟨hxp, hxq, rfl, rfl⟩ |
      ⟨hxp, hxq, hxpar, m, hm, hcase⟩
    · rw [hn]
      exact ⟨_, joinPages_parent hparp hparq, (oldKids x).mpr ⟨hpq, pkid⟩⟩
    · obtain ⟨m, hm, hk⟩ := h.up hpar hroot
      have above := (h.fits hm).kid_height hk
      simp only [PNode.parent] at hm above ⊢
      have hpp : pp ≠ p := by
        rintro rfl
        omega
      have hpq' : pp ≠ q := by
        rintro rfl
        omega
      have hpx : pp ≠ x := by
        rintro rfl
        omega
      have hmoved : pp ∉ n₂.kids := by
        intro hmem
        have := lower pp (.inr hmem)
        omega
      rw [joinPages_other hpp hpq' hpx hmoved]
      exact ⟨m, hm, hk⟩
    · rcases hcase with ⟨hk, rfl⟩ | ⟨hk, rfl⟩
      · rw [PNode.parent_withParent]
        exact ⟨n, joinPages_left, by simp [hkids, hk]⟩
      · obtain ⟨m, hm', hmem⟩ := h.up hm hroot
        by_cases hyp : n'.parent = p
        · rw [hyp] at hm' ⊢
          cases Option.some.inj (hm'.symm.trans hp)
          exact ⟨n, joinPages_left, by simp [hkids, hmem]⟩
        by_cases hyq : n'.parent = q
        · rw [hyq] at hm'
          cases Option.some.inj (hm'.symm.trans hq)
          exact absurd hmem hk
        by_cases hypar : n'.parent = par
        · rw [hypar] at hm' ⊢
          cases Option.some.inj (hm'.symm.trans hpar)
          exact ⟨_, joinPages_parent hparp hparq, (oldKids x).mpr ⟨hxq, hmem⟩⟩
        by_cases hymoved : n'.parent ∈ n₂.kids
        · rw [joinPages_moved hyp hyq hypar hymoved, hm']
          exact ⟨_, rfl, by simpa using hmem⟩
        · rw [joinPages_other hyp hyq hypar hymoved]
          exact ⟨m, hm', hmem⟩
  · obtain ⟨m, hm, absent⟩ := h.rootAt
    have hrootp : root ≠ p := (h.kid_ne_root hpar pkid).symm
    have hrootq : root ≠ q := (h.kid_ne_root hpar qkid).symm
    have gone : joinPages pages p q par n₂.kids n
        (.inner pp (front ++ (o, p) :: back)) m.parent = none := by
      have hmp : m.parent ≠ p := fun e => by simp [e, hp] at absent
      have hmq : m.parent ≠ q := fun e => by simp [e, hq] at absent
      have hmpar : m.parent ≠ par := fun e => by simp [e, hpar] at absent
      rw [joinPages_other hmp hmq hmpar, absent]
      intro hk
      obtain ⟨m', hm', -⟩ := h.down hq hk
      rw [absent] at hm'
      cases hm'
    by_cases hrootpar : root = par
    · subst hrootpar
      cases Option.some.inj (hm.symm.trans hpar)
      exact ⟨_, joinPages_parent hparp hparq, gone⟩
    · refine ⟨m, ?_, gone⟩
      rw [joinPages_other hrootp hrootq hrootpar, hm]
      intro hk
      exact h.kid_ne_root hq hk rfl
  · exact h.rootLo
  · have hrootp : root ≠ p := (h.kid_ne_root hpar pkid).symm
    simpa [Labels.join, hrootp] using h.rootHi

/-- A node may be replaced by one that fits, with the same parent and the same children. -/
theorem TreeShape.replace (h : TreeShape root pages g) (hp : pages p = some n₁)
    (hparent : n.parent = n₁.parent) (hkids : n.kids = n₁.kids) (fits : Fits g p n) :
    TreeShape root (Function.update pages p (some n)) g := by
  have kept : ∀ {x m}, pages x = some m → ∃ m', Function.update pages p (some n) x = some m' ∧
      m'.parent = m.parent ∧ m'.kids = m.kids := by
    intro x m hx
    by_cases hxp : x = p
    · subst hxp
      cases Option.some.inj (hx.symm.trans hp)
      exact ⟨n, by simp, hparent, hkids⟩
    · exact ⟨m, by rw [Function.update_of_ne hxp, hx], rfl, rfl⟩
  have old : ∀ {x m'}, Function.update pages p (some n) x = some m' → ∃ m, pages x = some m ∧
      m'.parent = m.parent ∧ m'.kids = m.kids := by
    intro x m' hx
    by_cases hxp : x = p
    · subst hxp
      cases Option.some.inj ((Function.update_self x (some n) pages).symm.trans hx)
      exact ⟨n₁, hp, hparent, hkids⟩
    · exact ⟨m', by rwa [Function.update_of_ne hxp] at hx, rfl, rfl⟩
  refine ⟨?_, ?_, ?_, ?_, h.rootLo, h.rootHi⟩
  · intro x m' hx
    by_cases hxp : x = p
    · subst hxp
      cases Option.some.inj ((Function.update_self x (some n) pages).symm.trans hx)
      exact fits
    · exact h.fits (by rwa [Function.update_of_ne hxp] at hx)
  · intro x m' c hx hc
    obtain ⟨m, hm, -, kids⟩ := old hx
    obtain ⟨mc, hmc, parent⟩ := h.down hm (kids ▸ hc)
    obtain ⟨mc', hmc', parent', -⟩ := kept hmc
    exact ⟨mc', hmc', parent'.trans parent⟩
  · intro x m' hx hroot
    obtain ⟨m, hm, parent, -⟩ := old hx
    obtain ⟨mu, hmu, hk⟩ := h.up hm hroot
    obtain ⟨mu', hmu', -, kids'⟩ := kept hmu
    exact ⟨mu', parent ▸ hmu', kids' ▸ hk⟩
  · obtain ⟨m, hm, absent⟩ := h.rootAt
    obtain ⟨m', hm', parent, -⟩ := kept hm
    refine ⟨m', hm', ?_⟩
    rw [parent, Function.update_of_ne]
    · exact absent
    · intro e
      rw [e, hp] at absent
      cases absent

end TreeShape

end PagedTree
