import Grmdb.IndexTree

namespace Grmdb

open PagedTree Tiling

variable {κ : Type} [LinearOrder κ]

/-- The fewest entries that the root may have. -/
def leastAtRoot : PNode PageNo κ Rid → Nat
  | .leaf .. => 1
  | .inner .. => 2

/-- What the operations keep of an index that is not empty. The page `full` may hold one entry more
than `btree_order`, the page `thin` one less than it needs; IX_NO_PAGE is no such page. -/
structure Indexed (L : IxLayout κ) (s : IxFile κ) (g : Labels PageNo κ) (ls : List PageNo)
    (full thin : PageNo) : Prop where
  tree : ChainedTree s.rootPage s.firstLeaf s.lastLeaf s.tree g ls
  rootParent : ∀ {v}, s.tree s.rootPage = some v → v.parent = IX_NO_PAGE
  pageNo : ∀ {p v}, s.tree p = some v → 0 ≤ p ∧ p < s.nextPageNo
  peak : s.peak ≤ L.btreeOrder + 1
  full_le : ∀ {v}, s.tree full = some v → v.size ≤ L.btreeOrder + 1
  le : ∀ {p v}, s.tree p = some v → p ≠ full → v.size ≤ L.btreeOrder
  ge : ∀ {p v}, s.tree p = some v → p ≠ thin → p ≠ s.rootPage → L.minSize ≤ v.size
  root : ∀ {v}, s.tree s.rootPage = some v → s.rootPage ≠ thin → leastAtRoot v ≤ v.size

omit [LinearOrder κ] in
theorem IxLayout.two_le_minSize (L : IxLayout κ) : 2 ≤ L.minSize := by
  have := L.order_large
  simp only [IxLayout.minSize]
  omega

omit [LinearOrder κ] in
theorem IxLayout.minSize_eq (L : IxLayout κ) : L.minSize = (L.btreeOrder + 1) / 2 - 1 := by
  have := L.order_large
  simp only [IxLayout.minSize]
  omega

namespace Indexed

variable {L : IxLayout κ} {s s' : IxFile κ} {g g' : Labels PageNo κ} {ls ls' : List PageNo}
  {full thin p q par pp : PageNo} {n : IxNode κ} {v v₁ v₂ : PNode PageNo κ Rid}
  {kids kids' : List (Option κ × PageNo)}

theorem bounded (h : Indexed L s g ls full thin) : s.Bounded (L.btreeOrder + 1) := by
  refine ⟨h.peak, fun p n hp => ?_⟩
  have ht := IxFile.tree_of_pages hp
  rw [← IxNode.view_size]
  by_cases hfull : p = full
  · subst hfull
    exact h.full_le ht
  · have := h.le ht hfull
    omega

theorem noPage (h : Indexed L s g ls full thin) : s.tree IX_NO_PAGE = none := by
  cases ht : s.tree IX_NO_PAGE with
  | none => rfl
  | some v =>
    have := (h.pageNo ht).1
    simp [IX_NO_PAGE] at this

theorem fresh (h : Indexed L s g ls full thin) (hp : s.nextPageNo ≤ p) : s.tree p = none := by
  cases ht : s.tree p with
  | none => rfl
  | some v =>
    have := (h.pageNo ht).2
    lia

theorem nextPageNo_pos (h : Indexed L s g ls full thin) : 0 < s.nextPageNo := by
  obtain ⟨v, hv, -⟩ := h.tree.shape.rootAt
  have := h.pageNo hv
  lia

/-- The root is the page without a parent. -/
theorem parent_eq_noPage (h : Indexed L s g ls full thin) (hp : s.tree p = some v) :
    v.parent = IX_NO_PAGE ↔ p = s.rootPage := by
  constructor
  · intro hv
    by_contra hne
    obtain ⟨m, hm, -⟩ := h.tree.shape.up hp hne
    rw [hv, h.noPage] at hm
    cases hm
  · rintro rfl
    exact h.rootParent hp

theorem parent_there (h : Indexed L s g ls full thin) (hp : s.pages p = some n)
    (hroot : p ≠ s.rootPage) : ∃ m, s.pages n.parent = some m := by
  obtain ⟨v, hv, -⟩ := h.tree.shape.up (IxFile.tree_of_pages hp) hroot
  rw [IxNode.view_parent] at hv
  obtain ⟨m, hm, -⟩ := IxFile.tree_eq_some.mp hv
  exact ⟨m, hm⟩

theorem height_parent (h : Indexed L s g ls full thin) (hp : s.pages p = some n)
    (hroot : p ≠ s.rootPage) : g.height n.parent = g.height p + 1 := by
  obtain ⟨v, hv, hkid⟩ := h.tree.shape.up (IxFile.tree_of_pages hp) hroot
  rw [IxNode.view_parent] at hv
  exact ((h.tree.shape.fits hv).kid_height hkid).symm

/-- The way up from a page ends at the root: there are only so many pages. -/
theorem height_le_root (h : Indexed L s g ls full thin) (hp : s.pages p = some n) :
    g.height p ≤ g.height s.rootPage := by
  obtain ⟨top, htop⟩ : ∃ top, ∀ x m, s.pages x = some m → g.height x ≤ top := by
    refine ⟨(Finset.Ico (0 : Int) s.nextPageNo).sup g.height, fun x m hx => ?_⟩
    exact Finset.le_sup (f := g.height) (Finset.mem_Ico.mpr (h.pageNo (IxFile.tree_of_pages hx)))
  induction hd : top - g.height p generalizing p n with
  | zero =>
    by_cases hroot : p = s.rootPage
    · rw [hroot]
    · obtain ⟨m, hm⟩ := h.parent_there hp hroot
      have hup := h.height_parent hp hroot
      have := htop _ m hm
      omega
  | succ d ih =>
    by_cases hroot : p = s.rootPage
    · rw [hroot]
    · obtain ⟨m, hm⟩ := h.parent_there hp hroot
      have hup := h.height_parent hp hroot
      have := ih hm (by omega)
      omega

theorem bTree (h : Indexed L s g ls full IX_NO_PAGE) : BTree s g ls := by
  have least : ∀ {p n}, s.pages p = some n → leastAtRoot n.view ≤ n.size := by
    intro p n hp
    have ht := IxFile.tree_of_pages hp
    rw [← IxNode.view_size]
    have hne : p ≠ IX_NO_PAGE := by
      rintro rfl
      rw [h.noPage] at ht
      cases ht
    by_cases hroot : p = s.rootPage
    · subst hroot
      exact h.root ht hne
    · have hge := h.ge ht hne hroot
      have := L.two_le_minSize
      have hleast : leastAtRoot n.view ≤ 2 := by cases n.view <;> simp [leastAtRoot]
      omega
  refine ⟨h.tree.shape, h.tree.chain, ?_, ?_, ?_⟩
  · intro p n hp hleaf
    have := least hp
    rw [IxNode.view_leaf hleaf] at this
    exact List.length_pos_iff.mp this
  · intro p n hp hleaf
    have := least hp
    rwa [IxNode.view_inner hleaf] at this
  · intro p n hp
    exact h.pageNo (IxFile.tree_of_pages hp)

/-- A page within its bound is no exception. -/
theorem settle (h : Indexed L s g ls full thin)
    (hsize : ∀ v, s.tree full = some v → v.size ≤ L.btreeOrder) :
    Indexed L s g ls IX_NO_PAGE thin := by
  refine ⟨h.tree, h.rootParent, h.pageNo, h.peak, ?_, ?_, h.ge, h.root⟩
  · intro v hv
    rw [h.noPage] at hv
    cases hv
  · intro p v hp _
    by_cases hfull : p = full
    · subst hfull
      exact hsize v hp
    · exact h.le hp hfull

/-- What holds of the pages after a cut at `p` with the new page `q` below the parent `par`. -/
theorem cut (h : Indexed L s g ls p thin) (hthin : thin = IX_NO_PAGE ∨ thin = par)
    (hthinRoot : thin = par → par = s.rootPage)
    (hp : s.tree p = some v) (hpar : s.tree par = some (.inner pp kids))
    (hkid : p ∈ kids.map Prod.snd) (hkids : kids'.length = kids.length + 1)
    (hsub : ∀ c ∈ v₂.kids, c ∈ v.kids) (hq : s.tree q = none)
    (hroot : s'.rootPage = s.rootPage) (hnext : s.nextPageNo ≤ s'.nextPageNo) (hq₀ : 0 ≤ q)
    (hq₁ : q < s'.nextPageNo) (hpeak : s'.peak ≤ L.btreeOrder + 1)
    (htree : ChainedTree s'.rootPage s'.firstLeaf s'.lastLeaf s'.tree g' ls')
    (hcut : ∀ x v', s'.tree x = some v' →
      ∃ v'', cutPages s.tree p q par v₁ v₂ (.inner pp kids') x = some v'' ∧
        (v' = v'' ∨ v' = v''.withPrev q))
    (h₁ : L.minSize ≤ v₁.size ∧ v₁.size ≤ L.btreeOrder)
    (h₂ : L.minSize ≤ v₂.size ∧ v₂.size ≤ L.btreeOrder) :
    Indexed L s' g' ls' par IX_NO_PAGE := by
  have hparp : par ≠ p := (h.tree.shape.kid_ne hpar hkid).symm
  have hrootp : s.rootPage ≠ p := (h.tree.shape.kid_ne_root hpar hkid).symm
  have hrootq : s.rootPage ≠ q := by
    obtain ⟨m, hm, -⟩ := h.tree.shape.rootAt
    rintro heq
    rw [heq, hq] at hm
    cases hm
  -- every page is one of the three that were written or has the size it had
  have hcases : ∀ {x v'}, s'.tree x = some v' →
      x = p ∧ v'.size = v₁.size ∨ x = q ∧ v'.size = v₂.size ∨
      x = par ∧ v'.size = kids.length + 1 ∧ v'.parent = pp ∧ leastAtRoot v' = 2 ∨
      ∃ m, s.tree x = some m ∧ x ≠ p ∧ x ≠ par ∧ v'.size = m.size ∧
        leastAtRoot v' = leastAtRoot m ∧ (x = s.rootPage → v'.parent = m.parent) := by
    intro x v' hx
    obtain ⟨v'', hx, hv'⟩ := hcut x v' hx
    have hsize : v'.size = v''.size := by rcases hv' with rfl | rfl <;> simp
    have hparent : v'.parent = v''.parent := by rcases hv' with rfl | rfl <;> simp
    have hleast : leastAtRoot v' = leastAtRoot v'' := by
      rcases hv' with rfl | rfl
      · rfl
      · cases v'' <;> rfl
    rcases cutPages_cases hx with ⟨rfl, rfl⟩ | ⟨-, rfl, rfl⟩ | ⟨-, -, rfl, rfl⟩ |
      ⟨hxp, -, hxpar, m, hm, hcase⟩
    · exact .inl ⟨rfl, hsize⟩
    · exact .inr (.inl ⟨rfl, hsize⟩)
    · exact .inr (.inr (.inl ⟨rfl, by rw [hsize, ← hkids]; rfl, hparent, hleast⟩))
    · refine .inr (.inr (.inr ⟨m, hm, hxp, hxpar, ?_, ?_, ?_⟩))
      · rcases hcase with ⟨-, rfl⟩ | ⟨-, rfl⟩ <;> simp [hsize]
      · rcases hcase with ⟨-, rfl⟩ | ⟨-, rfl⟩
        · rw [hleast]
          cases m <;> rfl
        · exact hleast
      · intro hxr
        rcases hcase with ⟨hmem, -⟩ | ⟨-, rfl⟩
        · exact absurd hxr (h.tree.shape.kid_ne_root hp (hsub x hmem))
        · exact hparent
  have hpos : 1 ≤ kids.length := by
    have := List.length_pos_of_mem hkid
    rwa [List.length_map] at this
  have hparLe := h.le hpar hparp
  simp only [PNode.size] at hparLe
  refine ⟨htree, ?_, ?_, hpeak, ?_, ?_, ?_, ?_⟩
  · intro v' hv'
    rw [hroot] at hv'
    rcases hcases hv' with ⟨hr, -⟩ | ⟨hr, -⟩ | ⟨hr, -, hparent, -⟩ | ⟨m, hm, -, -, -, -, hparent⟩
    · exact absurd hr hrootp
    · exact absurd hr hrootq
    · rw [hparent]
      rw [← hr] at hpar
      exact h.rootParent hpar
    · rw [hparent rfl]
      exact h.rootParent hm
  · intro x v' hx
    rcases hcases hx with ⟨rfl, -⟩ | ⟨rfl, -⟩ | ⟨rfl, -⟩ | ⟨m, hm, -⟩
    · have := h.pageNo hp
      lia
    · exact ⟨hq₀, hq₁⟩
    · have := h.pageNo hpar
      lia
    · have := h.pageNo hm
      lia
  · intro v' hv'
    rcases hcases hv' with ⟨hr, -⟩ | ⟨hr, hsize⟩ | ⟨-, hsize, -⟩ | ⟨m, hm, -, hne, -⟩
    · exact absurd hr hparp
    · omega
    · omega
    · exact absurd rfl hne
  · intro x v' hx hne
    rcases hcases hx with ⟨rfl, hsize⟩ | ⟨rfl, hsize⟩ | ⟨rfl, -⟩ | ⟨m, hm, hxp, -, hsize, -⟩
    · omega
    · omega
    · exact absurd rfl hne
    · have := h.le hm hxp
      omega
  · intro x v' hx _ hne
    rw [hroot] at hne
    rcases hcases hx with ⟨rfl, hsize⟩ | ⟨rfl, hsize⟩ | ⟨rfl, hsize, -⟩ |
      ⟨m, hm, hxp, hxpar, hsize, -⟩
    · omega
    · omega
    · have hnot : x ≠ thin := fun heq => hne (hthinRoot heq.symm)
      have := h.ge hpar hnot hne
      simp only [PNode.size] at this
      omega
    · have hnot : x ≠ thin := by
        rintro rfl
        rcases hthin with rfl | rfl
        · rw [h.noPage] at hm
          cases hm
        · exact hxpar rfl
      have := h.ge hm hnot hne
      omega
  · intro v' hv' _
    rw [hroot] at hv'
    rcases hcases hv' with ⟨hr, -⟩ | ⟨hr, -⟩ | ⟨-, hsize, -, hleast⟩ |
      ⟨m, hm, -, hxpar, hsize, hleast, -⟩
    · exact absurd hr hrootp
    · exact absurd hr hrootq
    · omega
    · have hnot : s.rootPage ≠ thin := by
        intro heq
        rcases hthin with hthin | hthin
        · rw [heq, hthin, h.noPage] at hm
          cases hm
        · exact hxpar (heq.trans hthin)
      have := h.root hm hnot
      omega

end Indexed

end Grmdb
