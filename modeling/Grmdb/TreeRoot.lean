import Grmdb.TreeShift

namespace PagedTree

open Tiling

variable {π κ ρ : Type} [DecidableEq π]

/-- Page `r` covers all keys, one level above `p`. -/
def Labels.wrap (g : Labels π κ) (p r : π) : Labels π κ where
  height := Function.update g.height r (g.height p + 1)
  lo := Function.update g.lo r ⊥
  hi := Function.update g.hi r ⊤

theorem Labels.wrap_sameAt {g : Labels π κ} {p r x : π} (hr : x ≠ r) :
    g.SameAt (g.wrap p r) x := by
  simp [SameAt, wrap, hr]

variable [LinearOrder κ] {root r nil c par : π} {pages : π → Option (PNode π κ ρ)}
  {g : Labels π κ} {n m : PNode π κ ρ} {o : Option κ}

/-- A new root above the old one, with the old one as its only child. -/
theorem TreeShape.wrap (h : TreeShape root pages g) (hn : pages root = some n)
    (hr : pages r = none) (hnil : pages nil = none) (hnr : nil ≠ r) :
    TreeShape r (Function.update (Function.update pages root (some (n.withParent r))) r
      (some (.inner nil [(none, root)]))) (g.wrap root r) := by
  have present : ∀ {x m}, pages x = some m → x ≠ r := by
    rintro x m hx rfl
    rw [hr] at hx
    cases hx
  have hrr := present hn
  have value : ∀ {x m}, pages x = some m → ∃ m', Function.update (Function.update pages root
      (some (n.withParent r))) r (some (.inner nil [(none, root)])) x = some m' ∧
      m'.kids = m.kids ∧ (x ≠ root → m' = m) := by
    intro x m hx
    rw [Function.update_of_ne (present hx)]
    by_cases hxr : x = root
    · subst hxr
      cases Option.some.inj (hx.symm.trans hn)
      exact ⟨n.withParent r, by simp, by simp, fun hne => absurd rfl hne⟩
    · exact ⟨m, by rw [Function.update_of_ne hxr, hx], rfl, fun _ => rfl⟩
  have old : ∀ {x m'}, Function.update (Function.update pages root (some (n.withParent r))) r
      (some (.inner nil [(none, root)])) x = some m' → x ≠ r →
      x = root ∧ m' = n.withParent r ∨ x ≠ root ∧ pages x = some m' := by
    intro x m' hx hxr
    rw [Function.update_of_ne hxr] at hx
    by_cases hroot : x = root
    · subst hroot
      rw [Function.update_self] at hx
      exact .inl ⟨rfl, (Option.some.inj hx).symm⟩
    · rw [Function.update_of_ne hroot] at hx
      exact .inr ⟨hroot, hx⟩
  have sameKids : ∀ {x m}, pages x = some m → ∀ c ∈ m.kids, g.SameAt (g.wrap root r) c := by
    intro x m hx c hc
    obtain ⟨mc, hmc, -⟩ := h.down hx hc
    exact Labels.wrap_sameAt (present hmc)
  refine ⟨?_, ?_, ?_, ?_, by simp [Labels.wrap], by simp [Labels.wrap]⟩
  · intro x m' hx
    by_cases hxr : x = r
    · subst hxr
      rw [Function.update_self] at hx
      cases Option.some.inj hx
      refine ⟨⟨?_, ?_, ?_⟩, fun e he => ?_⟩
      · simp [Labels.wrap, hrr, h.rootLo]
      · simp [Labels.wrap, hrr, h.rootHi]
      · simp [Labels.wrap, hrr, h.rootHi]
      · cases List.mem_singleton.mp he
        simp [Labels.wrap, hrr]
    · rcases old hx hxr with ⟨rfl, rfl⟩ | ⟨-, hm⟩
      · exact fits_withParent.mpr ((h.fits hn).congr (Labels.wrap_sameAt hxr) (sameKids hn))
      · exact (h.fits hm).congr (Labels.wrap_sameAt hxr) (sameKids hm)
  · intro x m' c hx hc
    by_cases hxr : x = r
    · subst hxr
      rw [Function.update_self] at hx
      cases Option.some.inj hx
      cases List.mem_singleton.mp hc
      exact ⟨n.withParent x, by rw [Function.update_of_ne hrr, Function.update_self], by simp⟩
    · have stay : ∀ {m}, pages x = some m → c ∈ m.kids → ∃ mc, Function.update
          (Function.update pages root (some (n.withParent r))) r
          (some (.inner nil [(none, root)])) c = some mc ∧ mc.parent = x := by
        intro m hm hc
        obtain ⟨mc, hmc, parent⟩ := h.down hm hc
        obtain ⟨mc', hmc', -, same⟩ := value hmc
        exact ⟨mc', hmc', same (h.kid_ne_root hm hc) ▸ parent⟩
      rcases old hx hxr with ⟨rfl, rfl⟩ | ⟨-, hm⟩
      · exact stay hn (by simpa using hc)
      · exact stay hm hc
  · intro x m' hx hxr
    rcases old hx hxr with ⟨rfl, rfl⟩ | ⟨hroot, hm⟩
    · exact ⟨.inner nil [(none, x)], by simp, by simp [PNode.kids]⟩
    · obtain ⟨mu, hmu, hk⟩ := h.up hm hroot
      obtain ⟨mu', hmu', kids, -⟩ := value hmu
      exact ⟨mu', hmu', kids ▸ hk⟩
  · refine ⟨_, Function.update_self r _ _, ?_⟩
    rw [PNode.parent, Function.update_of_ne hnr, Function.update_of_ne]
    · exact hnil
    · rintro rfl
      rw [hn] at hnil
      cases hnil

/-- The only child of the root becomes the root. -/
theorem TreeShape.unwrap (h : TreeShape root pages g)
    (hroot : pages root = some (.inner par [(o, c)])) (hm : pages c = some m)
    (hnil : pages nil = none) :
    TreeShape c (Function.update (Function.update pages c (some (m.withParent nil))) root none)
      g := by
  have hkid : c ∈ (PNode.inner par [(o, c)] : PNode π κ ρ).kids := by simp [PNode.kids]
  have hcr : c ≠ root := h.kid_ne_root hroot hkid
  have hmp : m.parent = root := h.kid_parent hroot hkid hm
  have old : ∀ {x m'}, Function.update (Function.update pages c (some (m.withParent nil))) root
      none x = some m' →
      x ≠ root ∧ (x = c ∧ m' = m.withParent nil ∨ x ≠ c ∧ pages x = some m') := by
    intro x m' hx
    by_cases hxr : x = root
    · subst hxr
      rw [Function.update_self] at hx
      cases hx
    · rw [Function.update_of_ne hxr] at hx
      refine ⟨hxr, ?_⟩
      by_cases hxc : x = c
      · subst hxc
        rw [Function.update_self] at hx
        exact .inl ⟨rfl, (Option.some.inj hx).symm⟩
      · rw [Function.update_of_ne hxc] at hx
        exact .inr ⟨hxc, hx⟩
  have tile := (h.fits hroot).tiles
  simp only [List.map_cons, List.map_nil, tiles_cons, tiles_nil] at tile
  refine ⟨?_, ?_, ?_, ?_, tile.1.trans h.rootLo, tile.2.2.trans h.rootHi⟩
  · intro x m' hx
    rcases (old hx).2 with ⟨rfl, rfl⟩ | ⟨-, hx⟩
    · exact fits_withParent.mpr (h.fits hm)
    · exact h.fits hx
  · intro x m' d hx hd
    obtain ⟨hxr, cases⟩ := old hx
    have stay : ∀ {m₀}, pages x = some m₀ → d ∈ m₀.kids → ∃ md, Function.update
        (Function.update pages c (some (m.withParent nil))) root none d = some md ∧
        md.parent = x := by
      intro m₀ hm₀ hd
      obtain ⟨md, hmd, parent⟩ := h.down hm₀ hd
      have hdc : d ≠ c := by
        rintro rfl
        exact hxr ((h.kid_parent hm₀ hd hm).symm.trans hmp)
      refine ⟨md, ?_, parent⟩
      rw [Function.update_of_ne (h.kid_ne_root hm₀ hd), Function.update_of_ne hdc, hmd]
    rcases cases with ⟨rfl, rfl⟩ | ⟨-, hx⟩
    · exact stay hm (by simpa using hd)
    · exact stay hx hd
  · intro x m' hx hxc
    obtain ⟨hxr, cases⟩ := old hx
    obtain ⟨-, hx⟩ := cases.resolve_left fun e => hxc e.1
    obtain ⟨mu, hmu, hk⟩ := h.up hx hxr
    have hpr : m'.parent ≠ root := by
      intro e
      rw [e] at hmu
      cases Option.some.inj (hmu.symm.trans hroot)
      exact hxc (List.mem_singleton.mp hk)
    rw [Function.update_of_ne hpr]
    by_cases hpc : m'.parent = c
    · rw [hpc, Function.update_self]
      rw [hpc] at hmu
      cases Option.some.inj (hmu.symm.trans hm)
      exact ⟨_, rfl, by simpa using hk⟩
    · rw [Function.update_of_ne hpc]
      exact ⟨mu, hmu, hk⟩
  · have hnilc : nil ≠ c := by
      rintro rfl
      rw [hm] at hnil
      cases hnil
    have hnilr : nil ≠ root := by
      rintro rfl
      rw [hroot] at hnil
      cases hnil
    refine ⟨m.withParent nil, by rw [Function.update_of_ne hcr, Function.update_self], ?_⟩
    rw [PNode.parent_withParent, Function.update_of_ne hnilr, Function.update_of_ne hnilc, hnil]

end PagedTree
