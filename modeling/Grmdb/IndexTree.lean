import Grmdb.IndexView

namespace Grmdb

open PagedTree Tiling

variable {κ : Type} [LinearOrder κ]

namespace IxFile

variable {s : IxFile κ} {g : Labels PageNo κ} {p : PageNo} {n : IxNode κ}

theorem fits_inner (h : TreeShape s.rootPage s.tree g) (hp : s.pages p = some n) (hn : n.isLeaf = false) :
    Tiles g.lo g.hi (g.lo p) (n.entries.map fun e => e.2.pageNo) (g.hi p) ∧
    (∀ e ∈ n.entries, g.height e.2.pageNo + 1 = g.height p) ∧
    ∀ e ∈ n.entries.tail, g.lo e.2.pageNo = Bound.at e.1 := by
  have hfits := h.fits (tree_of_pages hp)
  rw [IxNode.view_inner hn] at hfits
  obtain ⟨htiles, hkids⟩ := hfits
  rw [viewKids_snd] at htiles
  refine ⟨htiles, fun e he => ?_, fun e he => ?_⟩
  · have hmem : e.2.pageNo ∈ (viewKids n.entries).map Prod.snd := by
      rw [viewKids_snd]
      exact List.mem_map_of_mem he
    obtain ⟨x, hx, hxe⟩ := List.mem_map.mp hmem
    rw [← hxe]
    exact (hkids x hx).1
  · have hmem : (some e.1, e.2.pageNo) ∈ viewKids n.entries := by
      cases hes : n.entries with
      | nil => simp [hes] at he
      | cons x es =>
        rw [hes, List.tail_cons] at he
        exact List.mem_cons_of_mem _ (List.mem_map_of_mem he)
    exact (hkids _ hmem).2 e.1 rfl

theorem fits_leaf (h : TreeShape s.rootPage s.tree g) (hp : s.pages p = some n) (hn : n.isLeaf = true) :
    g.height p = 0 ∧ Within (g.lo p) (n.entries.map Prod.fst) (g.hi p) := by
  have hfits := h.fits (tree_of_pages hp)
  rw [IxNode.view_leaf hn] at hfits
  exact hfits

theorem kid_there (h : TreeShape s.rootPage s.tree g) (hp : s.pages p = some n) (hn : n.isLeaf = false)
    {e : κ × Rid} (he : e ∈ n.entries) : ∃ m, s.pages e.2.pageNo = some m := by
  have hkid : e.2.pageNo ∈ n.view.kids := by
    rw [IxNode.view_kids hn]
    exact List.mem_map_of_mem he
  obtain ⟨v, hv, -⟩ := h.down (tree_of_pages hp) hkid
  obtain ⟨m, hm, -⟩ := tree_eq_some.mp hv
  exact ⟨m, hm⟩

end IxFile

/-- The B+ tree invariant of an index that is not empty, with the labels of its pages and its
leaves in key order. -/
structure BTree (s : IxFile κ) (g : Labels PageNo κ) (ls : List PageNo) : Prop where
  shape : TreeShape s.rootPage s.tree g
  chain : LeafChain (linksOf s.tree) g s.firstLeaf s.lastLeaf ls
  leaf : ∀ {p n}, s.pages p = some n → n.isLeaf = true → n.entries ≠ []
  inner : ∀ {p n}, s.pages p = some n → n.isLeaf = false → 2 ≤ n.size
  pageNo : ∀ {p n}, s.pages p = some n → 0 ≤ p ∧ p < s.nextPageNo

namespace BTree

variable {s : IxFile κ} {g : Labels PageNo κ} {ls : List PageNo} {p : PageNo} {n : IxNode κ}

/-- `internal_lookup` goes to the child in whose range the key lies. -/
theorem internalLookup (h : BTree s g ls) (L : IxLayout κ) (hp : s.pages p = some n)
    (hn : n.isLeaf = false) {key : κ} (hlo : g.lo p ≤ Bound.at key)
    (hhi : Bound.at key < g.hi p) :
    ∃ e ∈ n.entries, n.internalLookup L key = e.2.pageNo ∧ g.lo e.2.pageNo ≤ Bound.at key ∧
      Bound.at key < g.hi e.2.pageNo := by
  obtain ⟨htiles, -, hsep⟩ := IxFile.fits_inner h.shape hp hn
  obtain ⟨front', c, back', hsplit, hclo, hchi⟩ := htiles.locate hlo hhi
  obtain ⟨front, rest, hentries, hfront, hrest⟩ := List.map_eq_append_iff.mp hsplit
  obtain ⟨e, back, rfl, rfl, hback⟩ := List.map_eq_cons_iff.mp hrest
  have hmem : e ∈ n.entries := by simp [hentries]
  refine ⟨e, hmem, ?_, hclo, hchi⟩
  rw [hsplit, ← hfront, ← hback] at htiles
  refine IxNode.internalLookup_eq L hn hentries (h.inner hp hn) ?_ ?_ ?_
  · intro x hx
    have hxtail : x ∈ n.entries.tail := by
      rw [hentries]
      cases front with
      | nil => simp at hx
      | cons y front =>
        simp only [List.cons_append, List.tail_cons, List.mem_append, List.mem_singleton] at hx ⊢
        rcases hx with hx | rfl
        · exact .inl hx
        · exact .inr List.mem_cons_self
    rw [← Bound.at_le_at, ← hsep x hxtail]
    rcases List.mem_append.mp (List.mem_of_mem_tail hx) with hx | hx
    · have hle := htiles.front_le (List.mem_map_of_mem hx)
      have hlt := (htiles.mem_bounds (List.mem_append_left _ (List.mem_map_of_mem hx))).2.1
      exact (hlt.le.trans hle).trans hclo
    · rw [List.mem_singleton.mp hx]
      exact hclo
  · have hpair : (n.entries.tail.map fun e => e.2.pageNo).Pairwise fun p q => g.lo p < g.lo q := by
      obtain ⟨htiles, -⟩ := IxFile.fits_inner h.shape hp hn
      rw [List.map_tail]
      exact htiles.pairwise.sublist (List.tail_sublist _)
    rw [List.pairwise_map] at hpair ⊢
    refine hpair.imp_of_mem fun {x y} hx hy hlt => ?_
    rwa [hsep x hx, hsep y hy, Bound.at_lt_at] at hlt
  · intro x hx
    have hxtail : x ∈ n.entries.tail := by
      rw [hentries]
      cases front with
      | nil => exact hx
      | cons y front => simp [hx]
    rw [← Bound.at_lt_at, ← hsep x hxtail]
    exact hchi.trans_le (htiles.le_back (List.mem_map_of_mem hx))

/-- The loop of `find_leaf_page` ends at the leaf in whose range the key lies. -/
theorem findLeafLoop (h : BTree s g ls) (L : IxLayout κ) {key : κ} {fuel : Nat}
    (hp : s.pages p = some n) (hfuel : g.height p < fuel) (hlo : g.lo p ≤ Bound.at key)
    (hhi : Bound.at key < g.hi p) :
    ∃ q m, IxFile.findLeafLoop L s key fuel p = some q ∧ s.pages q = some m ∧ m.isLeaf = true ∧
      g.lo q ≤ Bound.at key ∧ Bound.at key < g.hi q := by
  induction fuel generalizing p n with
  | zero => omega
  | succ fuel ih =>
    simp only [IxFile.findLeafLoop, hp, Option.bind_some]
    cases hn : n.isLeaf with
    | true => exact ⟨p, n, by simp, hp, hn, hlo, hhi⟩
    | false =>
      obtain ⟨e, he, hlook, helo, hehi⟩ := h.internalLookup L hp hn hlo hhi
      obtain ⟨m, hm⟩ := IxFile.kid_there h.shape hp hn he
      have hheight := (IxFile.fits_inner h.shape hp hn).2.1 e he
      simp only [Bool.false_eq_true, if_false, hlook]
      exact ih hm (by omega) helo hehi

/-- There is a page on every level. -/
theorem level (h : BTree s g ls) {i : Nat} (hi : i ≤ g.height s.rootPage) :
    ∃ p n, s.pages p = some n ∧ g.height p = i := by
  induction hi using Nat.decreasingInduction with
  | self =>
    obtain ⟨v, hv, -⟩ := h.shape.rootAt
    obtain ⟨n, hn, -⟩ := IxFile.tree_eq_some.mp hv
    exact ⟨_, n, hn, rfl⟩
  | of_succ i _ ih =>
    obtain ⟨p, n, hp, hheight⟩ := ih
    have hn : n.isLeaf = false := by
      cases hl : n.isLeaf with
      | false => rfl
      | true =>
        have := (IxFile.fits_leaf h.shape hp hl).1
        omega
    have hsize := h.inner hp hn
    obtain ⟨e, he⟩ := List.exists_mem_of_length_pos (show 0 < n.entries.length by
      simp only [IxNode.size] at hsize
      omega)
    obtain ⟨m, hm⟩ := IxFile.kid_there h.shape hp hn he
    have hkid := (IxFile.fits_inner h.shape hp hn).2.1 e he
    exact ⟨_, m, hm, by omega⟩

/-- So the page numbers given out bound the height of the tree. -/
theorem height_lt (h : BTree s g ls) : g.height s.rootPage < s.nextPageNo.toNat := by
  have hlevel : ∀ i ∈ Finset.range (g.height s.rootPage + 1),
      ∃ p ∈ Finset.Ico (0 : Int) s.nextPageNo, g.height p = i := by
    intro i hi
    obtain ⟨p, n, hp, hheight⟩ := h.level (Nat.lt_succ_iff.mp (Finset.mem_range.mp hi))
    exact ⟨p, Finset.mem_Ico.mpr (h.pageNo hp), hheight⟩
  have hcard := Finset.card_le_card_of_surjOn g.height
    (s := Finset.Ico (0 : Int) s.nextPageNo) (t := Finset.range (g.height s.rootPage + 1))
    (fun i hi => by
      obtain ⟨p, hp, hheight⟩ := hlevel i (Finset.mem_coe.mp hi)
      exact ⟨p, Finset.mem_coe.mpr hp, hheight⟩)
  rw [Finset.card_range, Int.card_Ico] at hcard
  simpa using hcard

theorem findLeafPage (h : BTree s g ls) (L : IxLayout κ) (key : κ) :
    ∃ p n, s.findLeafPage L key = some p ∧ s.pages p = some n ∧ n.isLeaf = true ∧
      g.lo p ≤ Bound.at key ∧ Bound.at key < g.hi p := by
  obtain ⟨v, hv, -⟩ := h.shape.rootAt
  obtain ⟨n, hn, -⟩ := IxFile.tree_eq_some.mp hv
  refine h.findLeafLoop L hn h.height_lt ?_ ?_
  · rw [h.shape.rootLo]
    exact bot_le
  · rw [h.shape.rootHi]
    exact Bound.at_lt_top

end BTree

end Grmdb
