import Grmdb.IndexMerge
import Grmdb.TreeShift

namespace Grmdb

open PagedTree Tiling

variable {κ : Type}

namespace IxFile

variable {s : IxFile κ} {p q par c x : PageNo} {n m ln rn pr : IxNode κ}

theorem write_comm (h : p ≠ q) : (s.write p n).write q m = (s.write q m).write p n := by
  simp only [write, IxFile.mk.injEq, true_and]
  exact ⟨Function.update_comm h (some n) (some m) s.pages, max_right_comm s.peak n.size m.size⟩

/-- Two neighbour leaves and their parent are written. -/
theorem tree_deal_leaf (s : IxFile κ) (pr : IxNode κ) (hpq : p ≠ q) (hparp : par ≠ p) (hparq : par ≠ q) (hln : ln.isLeaf = true)
    (hrn : rn.isLeaf = true) :
    (((s.write p ln).write q rn).write par pr).tree =
      shiftPages s.tree p q par ln.view rn.view pr.view := by
  funext x
  simp only [tree_write]
  by_cases hxp : x = p
  · subst hxp
    simp [shiftPages, hparp.symm, hpq]
  by_cases hxq : x = q
  · subst hxq
    simp [shiftPages, hparq.symm, hxp]
  by_cases hxpar : x = par
  · simp [shiftPages, hxpar, hparp, hparq]
  · simp [shiftPages, hxp, hxq, hxpar, IxNode.view_kids_leaf hln, IxNode.view_kids_leaf hrn]

/-- Two inner neighbours and their parent are written, the child `c` goes over to `x`. -/
theorem tree_deal_inner [LinearOrder κ] {g : Labels PageNo κ} {v₁ v₂ : PNode PageNo κ Rid}
    (pr : IxNode κ) (h : TreeShape s.rootPage s.tree g) (hp : s.tree p = some v₁) (hq : s.tree q = some v₂)
    (hpq : p ≠ q) (hparp : par ≠ p) (hparq : par ≠ q) (hc : s.pages c = some n)
    (hcp : c ≠ p) (hcq : c ≠ q) (hcpar : c ≠ par)
    (hx : x = p ∧ c ∈ ln.view.kids ∨ x = q ∧ c ∉ ln.view.kids ∧ c ∈ rn.view.kids)
    (hkids₁ : ∀ z ∈ ln.view.kids, z ≠ c → z ∈ v₁.kids)
    (hkids₂ : ∀ z ∈ rn.view.kids, z ≠ c → z ∈ v₂.kids) :
    ((((s.write p ln).write q rn).write c { n with parent := x }).write par pr).tree =
      shiftPages s.tree p q par ln.view rn.view pr.view := by
  have hstay : ∀ {z y v}, s.tree y = some v → z ∈ v.kids →
      (s.tree z).map (PNode.withParent y) = s.tree z := by
    intro z y v hy hz
    obtain ⟨m, hm, hparent⟩ := h.down hy hz
    rw [hm, Option.map_some, PNode.withParent_self m hparent]
  funext z
  simp only [tree_write]
  by_cases hzp : z = p
  · subst hzp
    simp [shiftPages, hparp.symm, hpq, hcp.symm]
  by_cases hzq : z = q
  · subst hzq
    simp [shiftPages, hparq.symm, hzp, hcq.symm]
  by_cases hzpar : z = par
  · simp [shiftPages, hzpar, hparp, hparq]
  rw [Function.update_of_ne hzpar]
  by_cases hzc : z = c
  · subst hzc
    rw [Function.update_self, IxNode.view_setParent]
    rcases hx with ⟨rfl, hmem⟩ | ⟨rfl, hnot, hmem⟩
    · simp [shiftPages, hzp, hzq, hzpar, hmem, tree_of_pages hc]
    · simp [shiftPages, hzp, hzq, hzpar, hnot, hmem, tree_of_pages hc]
  · rw [Function.update_of_ne hzc, Function.update_of_ne hzq, Function.update_of_ne hzp]
    simp only [shiftPages, hzp, hzq, hzpar, if_false]
    split
    · next hk => exact (hstay hp (hkids₁ z hk hzc)).symm
    · split
      · next hk => exact (hstay hq (hkids₂ z hk hzc)).symm
      · rfl

end IxFile

variable [LinearOrder κ]

namespace Indexed

variable {L : IxLayout κ} {s s' : IxFile κ} {g g' : Labels PageNo κ} {ls ls' : List PageNo}
  {thin p q par pp a b x y c d : PageNo} {v₁ v₂ m₁ m₂ : PNode PageNo κ Rid} {o o' : Option κ}
  {sep : κ} {front back cs₁ cs₂ ds₁ ds₂ : List (Option κ × PageNo)}
  {es₁ es₂ fs₁ fs₂ : List (κ × Rid)} {e : κ × Rid}

/-- What dealing the entries of two neighbours out anew does to the pages. -/
theorem shift (h : Indexed L s g ls IX_NO_PAGE thin) (hthin : thin = p ∨ thin = q)
    (hp : s.tree p = some v₁) (hq : s.tree q = some v₂)
    (hpar : s.tree par = some (.inner pp (front ++ (o, p) :: (o', q) :: back)))
    (hroot : s'.rootPage = s.rootPage) (hnext : s'.nextPageNo = s.nextPageNo)
    (hpeak : s'.peak ≤ L.btreeOrder + 1)
    (hchain : ChainedTree s'.rootPage s'.firstLeaf s'.lastLeaf s'.tree g' ls')
    (htree : s'.tree = shiftPages s.tree p q par m₁ m₂
      (.inner pp (front ++ (o, p) :: (some sep, q) :: back)))
    (hm : ∀ z, z ∈ m₁.kids ∨ z ∈ m₂.kids → z ∈ v₁.kids ∨ z ∈ v₂.kids)
    (h₁ : L.minSize ≤ m₁.size ∧ m₁.size ≤ L.btreeOrder)
    (h₂ : L.minSize ≤ m₂.size ∧ m₂.size ≤ L.btreeOrder) :
    Indexed L s' g' ls' IX_NO_PAGE IX_NO_PAGE := by
  have hpkid : p ∈ (PNode.inner pp (front ++ (o, p) :: (o', q) :: back) :
      PNode PageNo κ Rid).kids := by simp [PNode.kids]
  have hqkid : q ∈ (PNode.inner pp (front ++ (o, p) :: (o', q) :: back) :
      PNode PageNo κ Rid).kids := by simp [PNode.kids]
  have hnotRoot : ∀ z, z ∈ m₁.kids ∨ z ∈ m₂.kids → z ≠ s.rootPage := by
    intro z hz
    rcases hm z hz with hz | hz
    · exact h.tree.shape.kid_ne_root hp hz
    · exact h.tree.shape.kid_ne_root hq hz
  refine h.rebuild hroot hnext.ge hpeak hchain fun {z v'} hz => ?_
  rw [htree] at hz
  by_cases hzp : z = p
  · subst hzp
    simp only [shiftPages, if_true, Option.some.injEq] at hz
    subst hz
    exact ⟨v₁, hp, .inl h₁.2, .inl ⟨h.tree.shape.kid_ne_root hpar hpkid, h₁.1⟩⟩
  by_cases hzq : z = q
  · subst hzq
    simp only [shiftPages, hzp, if_false, if_true, Option.some.injEq] at hz
    subst hz
    exact ⟨v₂, hq, .inl h₂.2, .inl ⟨h.tree.shape.kid_ne_root hpar hqkid, h₂.1⟩⟩
  have hold : z ≠ thin := by
    rcases hthin with rfl | rfl
    · exact hzp
    · exact hzq
  by_cases hzpar : z = par
  · subst hzpar
    simp only [shiftPages, hzp, hzq, if_false, if_true, Option.some.injEq] at hz
    subst hz
    have hle := h.size_le hpar
    simp only [PNode.size, List.length_append, List.length_cons] at hle
    refine ⟨_, hpar, .inl ?_, .inr ⟨hold, .inr ?_, fun _ => ⟨rfl, rfl⟩⟩⟩
    · simpa [PNode.size] using hle
    · simp [PNode.size]
  · have hstay : ∃ m, s.tree z = some m ∧ v'.size = m.size ∧
        (z = s.rootPage → v' = m) := by
      simp only [shiftPages, hzp, hzq, hzpar, if_false] at hz
      split at hz
      · next hk =>
        obtain ⟨m, hm', rfl⟩ := Option.map_eq_some_iff.mp hz
        exact ⟨m, hm', by simp, fun heq => absurd heq (hnotRoot z (.inl hk))⟩
      split at hz
      · next hk =>
        obtain ⟨m, hm', rfl⟩ := Option.map_eq_some_iff.mp hz
        exact ⟨m, hm', by simp, fun heq => absurd heq (hnotRoot z (.inr hk))⟩
      · exact ⟨v', hz, rfl, fun _ => rfl⟩
    obtain ⟨m, hm', hsize, hsame⟩ := hstay
    have hle := h.size_le hm'
    refine ⟨m, hm', .inl (by omega), .inr ⟨hold, .inr hsize.ge, fun heq => ?_⟩⟩
    rw [hsame heq]
    exact ⟨rfl, rfl⟩

end Indexed

/-- What is left after an entry has gone over from one neighbour below `par` to the other. -/
structure Shifted (L : IxLayout κ) (s s' : IxFile κ) (par : PageNo) : Prop where
  indexed : ∃ g' ls', Indexed L s' g' ls' IX_NO_PAGE IX_NO_PAGE
  stores : ∀ k r, Stores s'.tree k r ↔ Stores s.tree k r
  parent : ∃ pr, s'.pages par = some pr ∧ pr.isLeaf = false

namespace Indexed

variable {L : IxLayout κ} {s : IxFile κ} {g : Labels PageNo κ} {ls : List PageNo}
  {thin p q par c d x : PageNo} {ln rn pr ln' rn' n : IxNode κ} {front back : List (κ × Rid)}
  {a b e : κ × Rid} {fs₁ fs₂ : List (κ × Rid)} {cs₁ cs₂ ds₁ ds₂ : List (Option κ × PageNo)}
  {o' : Option κ} {sep : κ}

theorem parent_le (h : Indexed L s g ls IX_NO_PAGE thin)
    (hpar : s.pages par = some pr) (i : Nat) (key : κ) : (pr.setKey i key).size ≤ L.btreeOrder + 1 := by
  have hle := h.size_le (IxFile.tree_of_pages hpar)
  rw [IxNode.view_size] at hle
  simp only [IxNode.size, IxNode.setKey, List.length_modify] at hle ⊢
  omega

omit [LinearOrder κ] in
theorem deal_le {v : PNode PageNo κ Rid} (hn : n.view = v) (hle : v.size ≤ L.btreeOrder) :
    n.size ≤ L.btreeOrder + 1 := by
  rw [← IxNode.view_size, hn]
  omega

/-- Two neighbour leaves, dealt out anew. -/
theorem dealLeaves (h : Indexed L s g ls IX_NO_PAGE thin) (hthin : thin = p ∨ thin = q)
    (t : Siblings s g p q par ln rn pr front back a b) (hll : ln.isLeaf = true)
    (hrl : rn.isLeaf = true) (hln' : ln'.view = .leaf par ln.prevLeaf ln.nextLeaf fs₁)
    (hrn' : rn'.view = .leaf par rn.prevLeaf rn.nextLeaf (e :: fs₂))
    (hes : ln.entries ++ rn.entries = fs₁ ++ e :: fs₂)
    (h₁ : L.minSize ≤ fs₁.length ∧ fs₁.length ≤ L.btreeOrder)
    (h₂ : L.minSize ≤ fs₂.length + 1 ∧ fs₂.length + 1 ≤ L.btreeOrder) :
    Shifted L s (((s.write p ln').write q rn').write par (pr.setKey (front.length + 1) e.1))
      par := by
  obtain ⟨o, hview, -, hset⟩ := IxNode.view_neighbours t.inner t.entries
  rw [t.leftPage, t.rightPage] at hview
  rw [t.leftPage, t.rightPage] at hset
  have htp := IxFile.tree_of_pages t.left
  have htq := IxFile.tree_of_pages t.right
  have htpar := IxFile.tree_of_pages t.parent
  rw [IxNode.view_leaf hll, t.leftParent] at htp
  rw [IxNode.view_leaf hrl, t.rightParent] at htq
  rw [hview] at htpar
  have hne : fs₁ ≠ [] := by
    have := L.two_le_minSize
    rw [← List.length_pos_iff]
    omega
  have hpeak := ((h.bounded.write (p := p) (deal_le hln' h₁.2)).write (p := q)
    (deal_le hrn' h₂.2)).write (p := par)
    (h.parent_le t.parent (front.length + 1) e.1)
  have htree := IxFile.tree_deal_leaf s (pr.setKey (front.length + 1) e.1) t.ne.1
    t.ne.2.1 t.ne.2.2 (IxNode.of_view_leaf hln').1 (IxNode.of_view_leaf hrn').1
  rw [hln', hrn', hset] at htree
  have hchain := h.tree.shiftLeaf htp htq htpar hes hne
  rw [← htree] at hchain
  refine ⟨⟨_, _, h.shift hthin htp htq htpar rfl rfl hpeak.1 hchain htree (by simp [PNode.kids]) h₁
    h₂⟩, fun k r => ?_,
    pr.setKey (front.length + 1) e.1, by simp [IxFile.write], t.inner⟩
  rw [htree]
  exact stores_shiftPages (n := .leaf par ln.prevLeaf rn.nextLeaf (ln.entries ++ rn.entries))
    h.tree.shape htp htq htpar t.ne.1 t.ne.2.1 t.ne.2.2 rfl rfl rfl rfl (by simp [PNode.kids]) rfl
    hes

/-- Two inner neighbours, dealt out anew: the separator moves through the parent, the child `c`
goes over. -/
theorem dealInners {y : κ × Rid} {rest : List (κ × Rid)} (h : Indexed L s g ls IX_NO_PAGE thin)
    (hthin : thin = p ∨ thin = q) (t : Siblings s g p q par ln rn pr front back a b)
    (hll : ln.isLeaf = false) (hrl : rn.isLeaf = false) (hrest : rn.entries = y :: rest)
    (hln' : ln'.view = .inner par ds₁) (hrn' : rn'.view = .inner par ((none, d) :: ds₂))
    (hcs : viewKids ln.entries ++ (some b.1, y.2.pageNo) :: rest.map sepKid =
      ds₁ ++ (some sep, d) :: ds₂) (hc : s.pages c = some n)
    (hx : x = p ∧ c ∈ ln'.view.kids ∨ x = q ∧ c ∉ ln'.view.kids ∧ c ∈ rn'.view.kids)
    (hkids₁ : ∀ z ∈ ln'.view.kids, z ≠ c → z ∈ ln.view.kids)
    (hkids₂ : ∀ z ∈ rn'.view.kids, z ≠ c → z ∈ rn.view.kids)
    (h₁ : L.minSize ≤ ds₁.length ∧ ds₁.length ≤ L.btreeOrder)
    (h₂ : L.minSize ≤ ds₂.length + 1 ∧ ds₂.length + 1 ≤ L.btreeOrder) :
    Shifted L s ((((s.write p ln').write q rn').write c { n with parent := x }).write par
      (pr.setKey (front.length + 1) sep)) par := by
  obtain ⟨o, hview, -, hset⟩ := IxNode.view_neighbours t.inner t.entries
  rw [t.leftPage, t.rightPage] at hview
  rw [t.leftPage, t.rightPage] at hset
  obtain ⟨hpq, hparp, hparq⟩ := t.ne
  have htp := IxFile.tree_of_pages t.left
  have htq := IxFile.tree_of_pages t.right
  have htpar := IxFile.tree_of_pages t.parent
  have hsame : ∀ z, z ∈ ln'.view.kids ∨ z ∈ rn'.view.kids → z ∈ ln.view.kids ∨ z ∈ rn.view.kids := by
    intro z hz
    have hmem := congrArg (fun cs => z ∈ cs.map Prod.snd) hcs
    simp only [hln', hrn', PNode.kids, List.map_cons] at hz
    rw [IxNode.view_kids hll, IxNode.view_kids hrl, hrest]
    simp only [List.map_append, List.map_cons, viewKids_snd, List.mem_append, eq_iff_iff] at hmem
    rw [← hmem] at hz
    simpa [sepKid] using hz
  have hchild : g.height c + 1 = g.height p := by
    have hmem : c ∈ ln'.view.kids ∨ c ∈ rn'.view.kids := by
      rcases hx with ⟨-, hk⟩ | ⟨-, -, hk⟩
      · exact .inl hk
      · exact .inr hk
    rcases hsame c hmem with hk | hk
    · exact (h.tree.shape.fits htp).kid_height hk
    · rw [t.height.1]
      exact (h.tree.shape.fits htq).kid_height hk
  obtain ⟨hheight, hup⟩ := t.height
  have hcp : c ≠ p := by
    rintro rfl
    omega
  have hcq : c ≠ q := by
    rintro rfl
    omega
  have hcpar : c ≠ par := by
    rintro rfl
    omega
  have hne : ds₁ ≠ [] := by
    have := L.two_le_minSize
    rw [← List.length_pos_iff]
    omega
  have hwritten := (h.bounded.write (p := p) (deal_le hln' h₁.2)).write (p := q)
    (deal_le hrn' h₂.2)
  have hpeak := (hwritten.write (p := c) (n := { n with parent := x })
    (h.bounded.2 c n hc)).write (p := par)
    (h.parent_le t.parent (front.length + 1) sep)
  have htree := IxFile.tree_deal_inner (pr.setKey (front.length + 1) sep) h.tree.shape htp htq
    hpq hparp hparq hc hcp hcq hcpar hx hkids₁ hkids₂
  rw [IxNode.view_inner hll, t.leftParent] at htp
  rw [IxNode.view_inner hrl, t.rightParent, hrest] at htq
  rw [hview] at htpar
  rw [hln', hrn', hset] at htree
  have hchain := h.tree.shiftInner htp htq htpar hcs hne
  rw [← htree] at hchain
  have hmoved := congrArg (List.map Prod.snd) hcs
  rw [List.map_append, List.map_append, List.map_cons, List.map_cons] at hmoved
  refine ⟨⟨_, _, h.shift hthin htp htq htpar rfl rfl hpeak.1 hchain htree ?_ h₁ h₂⟩, fun k r => ?_,
    pr.setKey (front.length + 1) sep, by simp [IxFile.write], t.inner⟩
  · intro z hz
    rw [← hln', ← hrn'] at hz
    have := hsame z hz
    rwa [IxNode.view_inner hll, IxNode.view_inner hrl, hrest] at this
  · have hnodup : ((viewKids ln.entries).map Prod.snd ++
        y.2.pageNo :: (rest.map sepKid).map Prod.snd).Nodup := by
      refine List.nodup_append.mpr ⟨(h.tree.shape.fits htp).kids_nodup,
        (h.tree.shape.fits htq).kids_nodup, fun z hz₁ z' hz₂ heq => ?_⟩
      subst heq
      obtain ⟨m, hm, hparent⟩ := h.tree.shape.down htp hz₁
      exact hpq (hparent.symm.trans (h.tree.shape.kid_parent htq hz₂ hm))
    rw [htree]
    refine stores_shiftPages
      (n := .inner par (viewKids ln.entries ++ (some b.1, y.2.pageNo) :: rest.map sepKid))
      h.tree.shape htp htq htpar hpq hparp hparq rfl rfl ?_ ?_ ?_ rfl rfl
    · simp [PNode.kids, viewKids, sepKid]
    · simpa [PNode.kids] using hmoved
    · simpa [PNode.kids] using hnodup

end Indexed

namespace Siblings

variable {L : IxLayout κ} {s : IxFile κ} {g : Labels PageNo κ} {ls : List PageNo}
  {full thin p q par : PageNo} {ln rn pr : IxNode κ} {front back : List (κ × Rid)} {a b : κ × Rid}

/-- The keys of the left leaf are below those of the right one. -/
theorem leaf_lt (t : Siblings s g p q par ln rn pr front back a b) (h : Indexed L s g ls full thin)
    (hll : ln.isLeaf = true) (hrl : rn.isLeaf = true) {x y : κ × Rid} (hx : x ∈ ln.entries)
    (hy : y ∈ rn.entries) : x.1 < y.1 := by
  have hlt := (IxFile.fits_leaf h.tree.shape t.left hll).2.lt x.1 (List.mem_map_of_mem hx)
  have hge := (IxFile.fits_leaf h.tree.shape t.right hrl).2.ge y.1 (List.mem_map_of_mem hy)
  rw [t.range.2.1] at hlt
  rw [t.range.2.2.1] at hge
  exact Bound.at_lt_at.mp (hlt.trans_le hge)

/-- The separators of the left inner node are below the one in front of the right node. -/
theorem inner_lt (t : Siblings s g p q par ln rn pr front back a b) (h : Indexed L s g ls full thin)
    (hll : ln.isLeaf = false) {x : κ × Rid} (hx : x ∈ ln.entries.tail) : x.1 < b.1 := by
  obtain ⟨htiles, -, hsep⟩ := IxFile.fits_inner h.tree.shape t.left hll
  have hmem := List.mem_map_of_mem (f := fun e : κ × Rid => e.2.pageNo) (List.mem_of_mem_tail hx)
  obtain ⟨-, hlt, hle⟩ := htiles.mem_bounds hmem
  rw [hsep x hx, t.range.2.1] at *
  exact Bound.at_lt_at.mp (hlt.trans_le hle)

/-- The children of two inner neighbours are other pages than these three. -/
theorem kid_ne {x : κ × Rid} (t : Siblings s g p q par ln rn pr front back a b)
    (h : Indexed L s g ls full thin)
    (hx : ln.isLeaf = false ∧ x ∈ ln.entries ∨ rn.isLeaf = false ∧ x ∈ rn.entries) :
    x.2.pageNo ≠ p ∧ x.2.pageNo ≠ q ∧ x.2.pageNo ≠ par := by
  obtain ⟨hheight, hup⟩ := t.height
  have hchild : g.height x.2.pageNo + 1 = g.height p := by
    rcases hx with ⟨hl, hx⟩ | ⟨hl, hx⟩
    · exact (IxFile.fits_inner h.tree.shape t.left hl).2.1 x hx
    · rw [hheight]
      exact (IxFile.fits_inner h.tree.shape t.right hl).2.1 x hx
  refine ⟨?_, ?_, ?_⟩
  all_goals
    intro heq
    rw [heq] at hchild
    omega

end Siblings

namespace IxNode

variable {n : IxNode κ} {e c : κ × Rid} {es rest : List (κ × Rid)}

omit [LinearOrder κ] in
theorem two_entries (h : 2 < n.size) : ∃ e c rest, n.entries = e :: c :: rest ∧ rest ≠ [] := by
  match hes : n.entries with
  | [] => simp [size, hes] at h
  | [e] => simp [size, hes] at h
  | [e, c] => simp [size, hes] at h
  | e :: c :: d :: rest => exact ⟨e, c, d :: rest, rfl, by simp⟩

omit [LinearOrder κ] in
theorem last_entry (h : 2 < n.size) : ∃ es e, n.entries = es ++ [e] ∧ es ≠ [] := by
  rcases List.eq_nil_or_concat n.entries with hes | ⟨es, e, hes⟩
  · simp [size, hes] at h
  · rw [List.concat_eq_append] at hes
    refine ⟨es, e, hes, ?_⟩
    rintro rfl
    simp [size, hes] at h

omit [LinearOrder κ] in
/-- The view of a leaf with other slots. -/
theorem view_leaf_slots (h : n.isLeaf = true) (es ds : List (κ × Rid)) :
    view { n with entries := es, dead := ds } = .leaf n.parent n.prevLeaf n.nextLeaf es :=
  view_leaf (n := { n with entries := es, dead := ds }) h

omit [LinearOrder κ] in
theorem view_inner_slots (h : n.isLeaf = false) (es ds : List (κ × Rid)) :
    view { n with entries := es, dead := ds } = .inner n.parent (viewKids es) :=
  view_inner (n := { n with entries := es, dead := ds }) h

omit [LinearOrder κ] in
theorem setRid_zero (h : n.entries = e :: rest) (r : Rid) :
    (n.setRid 0 r).entries = (e.1, r) :: rest := by
  simp [setRid, h]

end IxNode

namespace Indexed

variable {L : IxLayout κ} {s : IxFile κ} {g : Labels PageNo κ} {ls : List PageNo}
  {p q par : PageNo} {ln rn pr : IxNode κ} {front back : List (κ × Rid)} {a b : κ × Rid}

theorem node_le {thin x : PageNo} {n : IxNode κ} (h : Indexed L s g ls IX_NO_PAGE thin)
    (hx : s.pages x = some n) : n.size ≤ L.btreeOrder := by
  rw [← IxNode.view_size]
  exact h.size_le (IxFile.tree_of_pages hx)

/-- `redistribute` of leaves, from the right neighbour. -/
theorem fillLeafFromRight (h : Indexed L s g ls IX_NO_PAGE p)
    (t : Siblings s g p q par ln rn pr [] back a b) (hll : ln.isLeaf = true)
    (hrl : rn.isLeaf = true) (hln : ln.size + 1 = L.minSize) (hrn : L.minSize < rn.size) :
    ∃ s', IxFile.redistribute L s q p par rn ln pr 0 = some s' ∧ Shifted L s s' par := by
  have hmin := L.two_le_minSize
  have hmin' := L.minSize_eq
  obtain ⟨e, c, rest, hes, -⟩ := IxNode.two_entries (show 2 < rn.size by omega)
  have hle := h.node_le t.right
  have hfirst : ln.firstKey = 0 := by simp [IxNode.firstKey, hll]
  have hinsert : ln.insert L e.1 e.2 =
      some { ln with entries := ln.entries ++ [e], dead := ln.dead.tail } := by
    refine IxNode.insert_last L (by omega) ?_
    intro x hx
    exact t.leaf_lt h hll hrl (List.mem_of_mem_drop hx) (by simp [hes])
  have hkey₀ : rn.getKey L 0 = e.1 := IxNode.getKey_zero L hes
  have hrid₀ : rn.getRid L 0 = e.2 := IxNode.getRid_zero L hes
  have herase : (rn.erasePair 0).entries = c :: rest := IxNode.erasePair_zero hes
  have hkey : (rn.erasePair 0).getKey L 0 = c.1 := IxNode.getKey_zero L herase
  have hln' : IxNode.view { ln with entries := ln.entries ++ [e], dead := ln.dead.tail } =
      .leaf par ln.prevLeaf ln.nextLeaf (ln.entries ++ [e]) := by
    rw [IxNode.view_leaf_slots hll, t.leftParent]
  have hrn' : (rn.erasePair 0).view = .leaf par rn.prevLeaf rn.nextLeaf (c :: rest) := by
    rw [← herase, ← t.rightParent]
    exact IxNode.view_leaf_slots hrl _ _
  have hdeal : ln.entries ++ rn.entries = (ln.entries ++ [e]) ++ c :: rest := by simp [hes]
  simp only [IxNode.size, hes, List.length_cons] at hln hrn hle
  refine ⟨_, ?_, h.dealLeaves (.inl rfl) t hll hrl hln' hrn' hdeal ?_ ⟨by omega, by omega⟩⟩
  · simp only [IxFile.redistribute, hll, Bool.not_true, Bool.false_eq_true, if_false, if_true,
      hkey₀, hrid₀, hinsert, Option.map_some, hkey]
    rfl
  · simp only [List.length_append, List.length_singleton]
    omega

/-- `redistribute` of leaves, from the left neighbour. -/
theorem fillLeafFromLeft (h : Indexed L s g ls IX_NO_PAGE q)
    (t : Siblings s g p q par ln rn pr front back a b) (hll : ln.isLeaf = true)
    (hrl : rn.isLeaf = true) (hrn : rn.size + 1 = L.minSize) (hln : L.minSize < ln.size) :
    ∃ s', IxFile.redistribute L s p q par ln rn pr (front.length + 1) = some s' ∧
      Shifted L s s' par := by
  have hmin := L.two_le_minSize
  have hmin' := L.minSize_eq
  obtain ⟨es, e, hes, -⟩ := IxNode.last_entry (show 2 < ln.size by omega)
  have hle := h.node_le t.left
  have hpos : ln.size - 1 = es.length := by simp [IxNode.size, hes]
  have hinsert : rn.insert L e.1 e.2 =
      some { rn with entries := e :: rn.entries, dead := rn.dead.tail } := by
    refine IxNode.insert_first L hrl (by omega) ?_
    intro x hx
    exact t.leaf_lt h hll hrl (by simp [hes]) hx
  have herase : (ln.erasePair es.length).entries = es := by
    simpa using IxNode.erasePair_entries hes
  have hslot := IxNode.slot_erasePair_last L hes
  have hln' : (ln.erasePair es.length).view = .leaf par ln.prevLeaf ln.nextLeaf es := by
    rw [← t.leftParent, ← congrArg (PNode.leaf ln.parent ln.prevLeaf ln.nextLeaf) herase]
    exact IxNode.view_leaf_slots hll _ _
  have hrn' : IxNode.view { rn with entries := e :: rn.entries, dead := rn.dead.tail } =
      .leaf par rn.prevLeaf rn.nextLeaf (e :: rn.entries) := by
    rw [IxNode.view_leaf_slots hrl, t.rightParent]
  have hdeal : ln.entries ++ rn.entries = es ++ e :: rn.entries := by simp [hes]
  have hlen : ln.size = es.length + 1 := by simp [IxNode.size, hes]
  simp only [IxNode.size] at hrn
  refine ⟨_, ?_, h.dealLeaves (.inr rfl) t hll hrl hln' hrn' hdeal ⟨by omega, by omega⟩
    ⟨by omega, by omega⟩⟩
  simp only [IxFile.redistribute, hrl, Bool.not_true, Bool.false_eq_true, if_false,
    Nat.add_eq_zero_iff, one_ne_zero, and_false, hpos, IxNode.getKey, IxNode.getRid, hslot,
    hinsert, Option.map_some]
  rw [IxFile.write_comm t.ne.1]

/-- `redistribute` of inner nodes, from the right neighbour. On a node with one child `insert`
compares with the dead slot 1. -/
theorem fillInnerFromRight (h : Indexed L s g ls IX_NO_PAGE p)
    (t : Siblings s g p q par ln rn pr [] back a b) (hll : ln.isLeaf = false)
    (hrl : rn.isLeaf = false) (hln : ln.size + 1 = L.minSize) (hrn : L.minSize < rn.size)
    (hdead : ln.size = 1 → ln.getKey L 1 ≠ b.1) :
    ∃ s', IxFile.redistribute L s q p par rn ln pr 0 = some s' ∧ Shifted L s s' par := by
  have hmin := L.two_le_minSize
  have hmin' := L.minSize_eq
  obtain ⟨e, c, rest, hes, -⟩ := IxNode.two_entries (show 2 < rn.size by omega)
  have hle := h.node_le t.right
  have hfirst : ln.firstKey = 1 := by simp [IxNode.firstKey, hll]
  have hinsert : ln.insert L b.1 e.2 =
      some { ln with entries := ln.entries ++ [(b.1, e.2)], dead := ln.dead.tail } := by
    by_cases hone : ln.size = 1
    · obtain ⟨x, hx⟩ := List.length_eq_one_iff.mp hone
      rw [IxNode.insert_single L hx hll, if_neg (hdead hone), hx]
      rfl
    · have hsize : 1 < ln.size := by omega
      refine IxNode.insert_last L (by omega) ?_
      intro x hx
      rw [hfirst, List.drop_one] at hx
      exact t.inner_lt h hll hx
  have hrid₀ : rn.getRid L 0 = e.2 := IxNode.getRid_zero L hes
  have herase : (rn.erasePair 0).entries = c :: rest := IxNode.erasePair_zero hes
  have hkey : (rn.erasePair 0).getKey L 0 = c.1 := IxNode.getKey_zero L herase
  have hsep : pr.getKey L 1 = b.1 := t.sep_eq
  have hlne : ln.entries ≠ [] := by
    rw [← List.length_pos_iff]
    simp only [IxNode.size] at hln
    omega
  have hln' : IxNode.view { ln with entries := ln.entries ++ [(b.1, e.2)], dead := ln.dead.tail } =
      .inner par (viewKids ln.entries ++ [(some b.1, e.2.pageNo)]) := by
    rw [IxNode.view_inner_slots hll, t.leftParent, viewKids_append hlne]
    rfl
  have hvalue : IxNode.valueAt L { ln with
      entries := ln.entries ++ [(b.1, e.2)], dead := ln.dead.tail } (IxNode.size { ln with
      entries := ln.entries ++ [(b.1, e.2)], dead := ln.dead.tail } - 1) = e.2.pageNo := by
    simp [IxNode.valueAt, IxNode.getRid, IxNode.slot, IxNode.size]
  generalize ({ ln with entries := ln.entries ++ [(b.1, e.2)], dead := ln.dead.tail } : IxNode κ) =
    ln' at hinsert hln' hvalue
  have hrn' : (rn.erasePair 0).view = .inner par ((none, c.2.pageNo) :: rest.map sepKid) := by
    rw [← t.rightParent]
    refine (IxNode.view_inner_slots hrl _ _).trans ?_
    rw [show rn.entries.eraseIdx 0 = c :: rest from herase]
    rfl
  have hcs : viewKids ln.entries ++ (some b.1, e.2.pageNo) :: (c :: rest).map sepKid =
      (viewKids ln.entries ++ [(some b.1, e.2.pageNo)]) ++
        (some c.1, c.2.pageNo) :: rest.map sepKid := by simp [sepKid]
  obtain ⟨n, hn⟩ := IxFile.kid_there h.tree.shape t.right hrl (show e ∈ rn.entries by simp [hes])
  obtain ⟨hep, heq, -⟩ := t.kid_ne h (x := e) (.inr ⟨hrl, by simp [hes]⟩)
  simp only [IxNode.size, hes, List.length_cons] at hln hrn hle
  refine ⟨_, ?_, h.dealInners (.inl rfl) t hll hrl hes hln' hrn' hcs hn (.inl ⟨rfl, ?_⟩) ?_ ?_ ?_
    ⟨?_, ?_⟩⟩
  · simp only [IxFile.redistribute, hll, Bool.not_false, if_true, hsep, hrid₀, hinsert,
      Option.bind_some, hvalue, hkey]
    simp only [IxFile.setParent, IxFile.write, Function.update_of_ne hep, Function.update_of_ne heq,
      hn, Option.map_some]
    rfl
  · rw [hln']
    simp [PNode.kids]
  · intro z hz hne
    rw [hln'] at hz
    rw [IxNode.view_inner hll]
    simp only [PNode.kids, List.map_append, List.map_cons, List.map_nil, List.mem_append,
      List.mem_singleton] at hz
    exact hz.resolve_right hne
  · intro z hz _
    rw [hrn'] at hz
    rw [IxNode.view_kids hrl, hes]
    simp only [PNode.kids, List.map_cons, List.map_map] at hz
    exact List.mem_cons_of_mem _ hz
  · simp only [List.length_append, viewKids_length, List.length_singleton]
    omega
  · rw [List.length_map]
    omega
  · rw [List.length_map]
    omega

/-- `redistribute` of inner nodes, from the left neighbour. -/
theorem fillInnerFromLeft (h : Indexed L s g ls IX_NO_PAGE q)
    (t : Siblings s g p q par ln rn pr front back a b) (hll : ln.isLeaf = false)
    (hrl : rn.isLeaf = false) (hrn : rn.size + 1 = L.minSize) (hln : L.minSize < ln.size) :
    ∃ s', IxFile.redistribute L s p q par ln rn pr (front.length + 1) = some s' ∧
      Shifted L s s' par := by
  have hmin := L.two_le_minSize
  have hmin' := L.minSize_eq
  obtain ⟨es, c, hes, hne⟩ := IxNode.last_entry (show 2 < ln.size by omega)
  obtain ⟨d, rest, hrest⟩ := List.exists_cons_of_length_pos (show 0 < rn.entries.length by
    simp only [IxNode.size] at hrn
    omega)
  have hle := h.node_le t.left
  have hpos : ln.size - 1 = es.length := by simp [IxNode.size, hes]
  have hslot := IxNode.slot_erasePair_last L hes
  have hrid : ln.getRid L es.length = c.2 := IxNode.getRid_eq L hes
  have hrid₀ : rn.getRid L 0 = d.2 := IxNode.getRid_zero L hrest
  have hpairs : (rn.insertPairs L 1 [(b.1, d.2)]).entries = d :: (b.1, d.2) :: rest :=
    IxNode.insertPairs_one L hrest
  have hset := IxNode.setRid_zero hpairs c.2
  have herase : (ln.erasePair es.length).entries = es := by
    simpa using IxNode.erasePair_entries hes
  have hln' : (ln.erasePair es.length).view = .inner par (viewKids es) := by
    rw [← t.leftParent, ← congrArg (fun es => PNode.inner ln.parent (viewKids es)) herase]
    exact IxNode.view_inner_slots hll _ _
  have hrn' : ((rn.insertPairs L 1 [(b.1, d.2)]).setRid 0 c.2).view =
      .inner par ((none, c.2.pageNo) :: (some b.1, d.2.pageNo) :: rest.map sepKid) := by
    have hview : ((rn.insertPairs L 1 [(b.1, d.2)]).setRid 0 c.2).view = .inner rn.parent
        (viewKids ((rn.insertPairs L 1 [(b.1, d.2)]).setRid 0 c.2).entries) :=
      IxNode.view_inner_slots hrl _ _
    rw [hview, hset, t.rightParent]
    rfl
  have hcs : viewKids ln.entries ++ (some b.1, d.2.pageNo) :: rest.map sepKid =
      viewKids es ++ (some c.1, c.2.pageNo) :: (some b.1, d.2.pageNo) :: rest.map sepKid := by
    rw [hes, viewKids_append hne]
    simp
  obtain ⟨n, hn⟩ := IxFile.kid_there h.tree.shape t.left hll (show c ∈ ln.entries by simp [hes])
  obtain ⟨hcp, hcq, -⟩ := t.kid_ne h (x := c) (.inl ⟨hll, by simp [hes]⟩)
  have hlen : ln.size = es.length + 1 := by simp [IxNode.size, hes]
  have hnodup := (h.tree.shape.fits (IxFile.tree_of_pages t.left)).kids_nodup
  rw [IxNode.view_kids hll, hes, List.map_append] at hnodup
  refine ⟨_, ?_, h.dealInners (.inr rfl) t hll hrl hrest hln' hrn' hcs hn
    (.inr ⟨rfl, fun hmem => ?_, ?_⟩) ?_ ?_ ⟨?_, ?_⟩ ⟨?_, ?_⟩⟩
  · have hsep := t.sep_eq (L := L)
    have hvalue : ((rn.insertPairs L 1 [(b.1, d.2)]).setRid 0 c.2).valueAt L 0 = c.2.pageNo := by
      rw [IxNode.valueAt_zero L hset]
    have hkey : (ln.erasePair es.length).getKey L es.length = c.1 := by rw [IxNode.getKey, hslot]
    simp only [IxFile.redistribute, hrl, Bool.not_false, if_true, Nat.add_eq_zero_iff, one_ne_zero,
      and_false, if_false, hpos, hsep, hrid, hrid₀, hvalue, hkey]
    rw [IxFile.write_comm t.ne.1.symm]
    simp only [IxFile.setParent, IxFile.write, Function.update_of_ne hcp, Function.update_of_ne hcq,
      hn, Option.map_some]
  · rw [hln'] at hmem
    simp only [PNode.kids, viewKids_snd] at hmem
    exact (List.nodup_append.mp hnodup).2.2 _ hmem _ (by simp) rfl
  · rw [hrn']
    simp [PNode.kids]
  · intro z hz _
    rw [hln'] at hz
    rw [IxNode.view_kids hll, hes, List.map_append]
    simp only [PNode.kids, viewKids_snd] at hz
    exact List.mem_append_left _ hz
  · intro z hz hzc
    rw [hrn'] at hz
    rw [IxNode.view_kids hrl, hrest]
    simp only [PNode.kids, List.map_cons, List.map_map] at hz
    exact (List.mem_cons.mp hz).resolve_left hzc
  · rw [viewKids_length]
    omega
  · rw [viewKids_length]
    omega
  · simp only [List.length_cons, List.length_map]
    simp only [IxNode.size, hrest, List.length_cons] at hrn
    omega
  · simp only [List.length_cons, List.length_map]
    simp only [IxNode.size, hrest, List.length_cons] at hrn
    omega

end Indexed

end Grmdb
