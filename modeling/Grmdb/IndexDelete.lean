import Grmdb.IndexShift

namespace Grmdb

open PagedTree Tiling

variable {κ : Type} [LinearOrder κ]

/-- An index without entries: no page is left. -/
structure Emptied (L : IxLayout κ) (s : IxFile κ) : Prop where
  rootPage : s.rootPage = IX_NO_PAGE
  pages : ∀ p, s.pages p = none
  nextPageNo : 0 ≤ s.nextPageNo
  peak : s.peak ≤ L.btreeOrder + 1

/-- The invariant of an index between two operations. -/
def IsIndex (L : IxLayout κ) (s : IxFile κ) : Prop :=
  Emptied L s ∨ ∃ g ls, Indexed L s g ls IX_NO_PAGE IX_NO_PAGE

/-- An index without a root has no leaves between its ends. -/
def IxFile.EndsMeet {κ : Type} (s : IxFile κ) : Prop :=
  s.rootPage = IX_NO_PAGE → s.firstLeaf = s.lastLeaf

omit [LinearOrder κ] in
theorem Emptied.stores {L : IxLayout κ} {s : IxFile κ} (h : Emptied L s) {k : κ} {r : Rid} :
    ¬ Stores s.tree k r := by
  rintro ⟨p, v, hv, -⟩
  rw [IxFile.tree_eq_none.mpr (h.pages p)] at hv
  cases hv

namespace Indexed

variable {L : IxLayout κ} {s : IxFile κ} {g : Labels PageNo κ} {ls : List PageNo}
  {full thin p q par : PageNo} {n m : IxNode κ}

theorem not_empty (h : Indexed L s g ls full thin) : ¬ s.isEmpty = true := by
  intro hempty
  obtain ⟨v, hv, -⟩ := h.tree.shape.rootAt
  rw [of_decide_eq_true hempty, h.noPage] at hv
  cases hv

theorem endsMeet (h : Indexed L s g ls full thin) : s.EndsMeet :=
  fun hroot => absurd (decide_eq_true hroot) h.not_empty

/-- A page with enough entries is no exception. -/
theorem thick (h : Indexed L s g ls full p) (hp : s.pages p = some n)
    (hsize : p ≠ s.rootPage → L.minSize ≤ n.size)
    (hroot : p = s.rootPage → leastAtRoot n.view ≤ n.size) :
    Indexed L s g ls full IX_NO_PAGE := by
  have ht := IxFile.tree_of_pages hp
  refine ⟨h.tree, h.rootParent, h.pageNo, h.peak, h.full_le, h.le, fun {x v} hx _ hne => ?_,
    fun {v} hv _ => ?_⟩
  · by_cases hxp : x = p
    · subst hxp
      cases Option.some.inj (ht.symm.trans hx)
      rw [IxNode.view_size]
      exact hsize hne
    · exact h.ge hx hxp hne
  · by_cases hxp : s.rootPage = p
    · rw [hxp] at hv
      cases Option.some.inj (ht.symm.trans hv)
      rw [IxNode.view_size]
      exact hroot hxp.symm
    · exact h.root hv hxp

omit [LinearOrder κ] in
theorem leastAtRoot_le (v : PNode PageNo κ Rid) : leastAtRoot v ≤ 2 := by
  cases v <;> simp [leastAtRoot]

/-- A root that is a leaf is the only page. -/
theorem only_root (h : Indexed L s g ls full thin) (hheight : g.height s.rootPage = 0)
    (hp : s.pages p = some n) : p = s.rootPage := by
  by_contra hne
  obtain ⟨m, hm⟩ := h.parent_there hp hne
  have hup := h.height_parent hp hne
  have := h.height_le_root hm
  omega

/-- `adjust_root` of a leaf without entries. -/
theorem dropRoot (h : Indexed L s g ls full thin) (hp : s.pages s.rootPage = some n)
    (hl : n.isLeaf = true) (hzero : n.entries = []) :
    ∃ s', IxFile.adjustRoot L s s.rootPage = some s' ∧ Emptied L s' ∧ s'.EndsMeet ∧
      ∀ k r, Stores s'.tree k r ↔ Stores s.tree k r := by
  have hheight := (IxFile.fits_leaf h.tree.shape hp hl).1
  have hgone : ∀ x, Function.update s.pages s.rootPage none x = none := by
    intro x
    by_cases hx : x = s.rootPage
    · rw [hx, Function.update_self]
    · rw [Function.update_of_ne hx]
      cases hs : s.pages x with
      | none => rfl
      | some m => exact absurd (h.only_root hheight hs) hx
  have hrun : IxFile.adjustRoot L s s.rootPage = some (IxFile.release
      { s with rootPage := IX_NO_PAGE, firstLeaf := IX_NO_PAGE, lastLeaf := IX_NO_PAGE }
      s.rootPage) := by
    simp [IxFile.adjustRoot, hp, hl, IxNode.size, hzero]
  have hempty : Emptied L (IxFile.release
      { s with rootPage := IX_NO_PAGE, firstLeaf := IX_NO_PAGE, lastLeaf := IX_NO_PAGE }
      s.rootPage) := ⟨rfl, hgone, h.nextPageNo_pos.le, h.peak⟩
  refine ⟨_, hrun, hempty, fun _ => rfl, fun k r => ⟨fun hs => absurd hs hempty.stores, ?_⟩⟩
  rintro ⟨x, v, hx, hv⟩
  obtain ⟨m, hm, rfl⟩ := IxFile.tree_eq_some.mp hx
  have hroot := h.only_root hheight hm
  subst hroot
  cases Option.some.inj (hm.symm.trans hp)
  rw [IxNode.view_leaf hl, PNode.entries, hzero] at hv
  cases hv

/-- `adjust_root` of an inner node with one child, which becomes the root. -/
theorem lowerRoot {e : κ × Rid} (h : Indexed L s g ls IX_NO_PAGE s.rootPage)
    (hp : s.pages s.rootPage = some n) (hl : n.isLeaf = false) (he : n.entries = [e]) :
    ∃ s', IxFile.adjustRoot L s s.rootPage = some s' ∧
      Indexed L s' g ls IX_NO_PAGE IX_NO_PAGE ∧ ∀ k r, Stores s'.tree k r ↔ Stores s.tree k r := by
  have ht := IxFile.tree_of_pages hp
  have hvalue : n.valueAt L 0 = e.2.pageNo := IxNode.valueAt_zero L he
  obtain ⟨m, hm⟩ := IxFile.kid_there h.tree.shape hp hl (show e ∈ n.entries by simp [he])
  rw [IxNode.view_inner hl, he] at ht
  have hne : e.2.pageNo ≠ s.rootPage :=
    h.tree.shape.kid_ne_root ht (by simp [PNode.kids, viewKids])
  have hrun : IxFile.adjustRoot L s s.rootPage = some ((IxFile.write
      { s with rootPage := e.2.pageNo } e.2.pageNo { m with parent := IX_NO_PAGE }).release
      s.rootPage) := by
    simp [IxFile.adjustRoot, hp, hl, IxNode.size, he, hvalue, IxFile.setParent, hm]
  have htree : ((IxFile.write { s with rootPage := e.2.pageNo } e.2.pageNo
      { m with parent := IX_NO_PAGE }).release s.rootPage).tree = Function.update
      (Function.update s.tree e.2.pageNo (some (m.view.withParent IX_NO_PAGE))) s.rootPage
      none := by
    rw [IxFile.tree_release, IxFile.tree_write, IxNode.view_setParent]
    rfl
  have hchain := h.tree.unwrap ht (IxFile.tree_of_pages hm) h.noPage
  rw [← htree] at hchain
  have hcases : ∀ {x v}, ((IxFile.write { s with rootPage := e.2.pageNo } e.2.pageNo
      { m with parent := IX_NO_PAGE }).release s.rootPage).tree x = some v →
      x ≠ s.rootPage ∧ ∃ v', s.tree x = some v' ∧ v.size = v'.size ∧ v.entries = v'.entries ∧
        (x = e.2.pageNo → v.parent = IX_NO_PAGE) := by
    intro x v hx
    rw [htree] at hx
    by_cases hxr : x = s.rootPage
    · rw [hxr, Function.update_self] at hx
      cases hx
    rw [Function.update_of_ne hxr] at hx
    by_cases hxe : x = e.2.pageNo
    · rw [hxe, Function.update_self] at hx
      cases Option.some.inj hx
      exact ⟨hxr, m.view, hxe ▸ IxFile.tree_of_pages hm, by simp, by simp, by simp⟩
    · rw [Function.update_of_ne hxe] at hx
      exact ⟨hxr, v, hx, rfl, rfl, fun heq => absurd heq hxe⟩
  refine ⟨_, hrun, ⟨hchain, ?_, ?_, ?_, ?_, ?_, ?_, ?_⟩, fun k r => ⟨?_, ?_⟩⟩
  · intro v hv
    obtain ⟨-, -, -, -, -, hparent⟩ := hcases hv
    exact hparent rfl
  · intro x v hx
    obtain ⟨-, v', hv', -⟩ := hcases hx
    exact h.pageNo hv'
  · exact max_le h.peak (h.bounded.2 e.2.pageNo m hm)
  · intro v hv
    obtain ⟨-, v', hv', hsame, -⟩ := hcases hv
    have := h.size_le hv'
    omega
  · intro x v hx _
    obtain ⟨-, v', hv', hsame, -⟩ := hcases hx
    have := h.size_le hv'
    omega
  · intro x v hx _ _
    obtain ⟨hxr, v', hv', hsame, -⟩ := hcases hx
    rw [hsame]
    exact h.ge hv' hxr hxr
  · intro v hv _
    obtain ⟨hxr, v', hv', hsame, -⟩ := hcases hv
    have hge := h.ge hv' hxr hxr
    have hmin := L.two_le_minSize
    have hleast := leastAtRoot_le v
    omega
  · rintro ⟨x, v, hx, hv⟩
    obtain ⟨-, v', hv', -, hsame, -⟩ := hcases hx
    exact ⟨x, v', hv', hsame ▸ hv⟩
  · rintro ⟨x, v, hx, hv⟩
    have hxr : x ≠ s.rootPage := by
      rintro rfl
      rw [ht] at hx
      cases Option.some.inj hx
      cases hv
    rw [htree]
    by_cases hxe : x = e.2.pageNo
    · subst hxe
      cases Option.some.inj ((IxFile.tree_of_pages hm).symm.trans hx)
      refine ⟨e.2.pageNo, m.view.withParent IX_NO_PAGE, ?_, by simpa using hv⟩
      rw [Function.update_of_ne hxr, Function.update_self]
    · refine ⟨x, v, ?_, hv⟩
      rw [Function.update_of_ne hxr, Function.update_of_ne hxe, hx]

/-- `adjust_root`: a root with one child gives way to it, a leaf without entries goes. -/
theorem adjustRoot (h : Indexed L s g ls IX_NO_PAGE s.rootPage)
    (hp : s.pages s.rootPage = some n) (hsize : leastAtRoot n.view ≤ n.size + 1) :
    ∃ s', IxFile.adjustRoot L s s.rootPage = some s' ∧ (IsIndex L s' ∧ s'.EndsMeet) ∧
      ∀ k r, Stores s'.tree k r ↔ Stores s.tree k r := by
  by_cases hleast : leastAtRoot n.view ≤ n.size
  · refine ⟨s, ?_, ⟨.inr ⟨g, ls, h.thick hp (absurd rfl) fun _ => hleast⟩, h.endsMeet⟩,
      fun _ _ => Iff.rfl⟩
    cases hl : n.isLeaf with
    | true =>
      rw [IxNode.view_leaf hl, leastAtRoot] at hleast
      simp only [IxFile.adjustRoot, hp, Option.bind_some, hl]
      rw [if_neg (by simp), if_neg (by omega)]
    | false =>
      rw [IxNode.view_inner hl, leastAtRoot] at hleast
      simp only [IxFile.adjustRoot, hp, Option.bind_some, hl]
      rw [if_neg (by omega), if_neg (by simp)]
  · cases hl : n.isLeaf with
    | true =>
      rw [IxNode.view_leaf hl, leastAtRoot] at hleast
      obtain ⟨s', hrun, hempty, hends, hstores⟩ := h.dropRoot hp hl
        (List.length_eq_zero_iff.mp (show n.size = 0 by omega))
      exact ⟨s', hrun, ⟨.inl hempty, hends⟩, hstores⟩
    | false =>
      rw [IxNode.view_inner hl, leastAtRoot] at hleast hsize
      obtain ⟨e, he⟩ := List.length_eq_one_iff.mp (show n.size = 1 by omega)
      obtain ⟨s', hrun, hindexed, hstores⟩ := h.lowerRoot hp hl he
      exact ⟨s', hrun, ⟨.inr ⟨g, ls, hindexed⟩, hindexed.endsMeet⟩, hstores⟩

end Indexed

namespace Siblings

variable {L : IxLayout κ} {s : IxFile κ} {g : Labels PageNo κ} {ls : List PageNo}
  {full thin p q par : PageNo} {ln rn pr : IxNode κ} {front back : List (κ × Rid)} {a b : κ × Rid}

theorem findChild_left (t : Siblings s g p q par ln rn pr front back a b)
    (h : Indexed L s g ls full thin) : pr.findChild p = front.length := by
  have hnodup := (h.tree.shape.fits (IxFile.tree_of_pages t.parent)).kids_nodup
  rw [IxNode.view_kids t.inner, t.entries, List.map_append] at hnodup
  rw [← t.leftPage]
  refine IxNode.findChild_eq t.entries fun x hx heq => ?_
  exact (List.nodup_append.mp hnodup).2.2 _ (List.mem_map_of_mem hx) _ (by simp) heq

theorem findChild_right (t : Siblings s g p q par ln rn pr front back a b)
    (h : Indexed L s g ls full thin) : pr.findChild q = front.length + 1 := by
  have hnodup := (h.tree.shape.fits (IxFile.tree_of_pages t.parent)).kids_nodup
  have hes : pr.entries = (front ++ [a]) ++ b :: back := by simp [t.entries]
  rw [IxNode.view_kids t.inner, hes, List.map_append] at hnodup
  rw [← t.rightPage, IxNode.findChild_eq hes]
  · simp
  · intro x hx heq
    exact (List.nodup_append.mp hnodup).2.2 _ (List.mem_map_of_mem hx) _ (by simp) heq

theorem not_root (t : Siblings s g p q par ln rn pr front back a b)
    (h : Indexed L s g ls full thin) : p ≠ s.rootPage ∧ q ≠ s.rootPage := by
  have ht := IxFile.tree_of_pages t.parent
  constructor
  · refine h.tree.shape.kid_ne_root ht ?_
    rw [IxNode.view_kids t.inner, t.entries, ← t.leftPage]
    simp
  · refine h.tree.shape.kid_ne_root ht ?_
    rw [IxNode.view_kids t.inner, t.entries, ← t.rightPage]
    simp

theorem parent_ne (t : Siblings s g p q par ln rn pr front back a b)
    (h : Indexed L s g ls full thin) : par ≠ IX_NO_PAGE := by
  rintro rfl
  have := IxFile.tree_of_pages t.parent
  rw [h.noPage] at this
  cases this

/-- The node of the parent after a merge: its dead slots start with the separator that went. -/
theorem erased (t : Siblings s g p q par ln rn pr front back a b) (h : Indexed L s g ls full thin) :
    (pr.erasePair (front.length + 1)).size + 1 = pr.size ∧
      ((pr.erasePair (front.length + 1)).size = 1 →
        Bound.at ((pr.erasePair (front.length + 1)).getKey L 1) < g.hi par) := by
  have hes : pr.entries = (front ++ [a]) ++ b :: back := by simp [t.entries]
  have herase := IxNode.erasePair_entries hes
  have hlen : (front ++ [a]).length = front.length + 1 := by simp
  rw [hlen] at herase
  constructor
  · simp only [IxNode.size, herase, t.entries, List.length_append, List.length_cons,
      List.length_nil]
    omega
  · intro hone
    simp only [IxNode.size, herase, List.length_append, List.length_cons, List.length_nil] at hone
    have hfront : front = [] := List.length_eq_zero_iff.mp (by omega)
    have hback : back = [] := List.length_eq_zero_iff.mp (by omega)
    subst hfront hback
    have hslot := IxNode.slot_erasePair_last L (show pr.entries = [a] ++ [b] from t.entries)
    have hkey : (pr.erasePair 1).getKey L 1 = b.1 := congrArg Prod.fst hslot
    have hkid : q ∈ pr.view.kids := by
      rw [IxNode.view_kids t.inner, t.entries, ← t.rightPage]
      simp
    have hrange := (h.tree.shape.fits (IxFile.tree_of_pages t.parent)).kid_range hkid
    show Bound.at ((pr.erasePair 1).getKey L 1) < g.hi par
    rw [hkey]
    exact t.range.2.2.2.trans_le hrange.2.2

end Siblings

/-- One round of `coalesce_or_redistribute`, for the thin node `node` of page `p`. -/
def IxFile.refill (L : IxLayout κ) (s : IxFile κ) (p : PageNo) (node pr nb : IxNode κ) :
    Option (IxFile κ) :=
  let index := pr.findChild p
  let neighbor := pr.valueAt L (if index ≠ 0 then index - 1 else 1)
  if L.minSize * 2 ≤ node.size + nb.size then
    redistribute L s neighbor p node.parent nb node pr index
  else if index = 0 then coalesce L s p neighbor node.parent node nb pr 1
  else coalesce L s neighbor p node.parent nb node pr index

/-- `nb` is the neighbour that fills up the node `n` of page `p`: the one on the left, on the right
where there is none. -/
inductive Beside (s : IxFile κ) (g : Labels PageNo κ) (p : PageNo) (n pr nb : IxNode κ) : Prop where
  | right {q : PageNo} {back : List (κ × Rid)} {a b : κ × Rid}
      (t : Siblings s g p q n.parent n nb pr [] back a b)
  | left {q : PageNo} {front back : List (κ × Rid)} {a b : κ × Rid}
      (t : Siblings s g q p n.parent nb n pr front back a b)

namespace Beside

variable {L : IxLayout κ} {s : IxFile κ} {g : Labels PageNo κ} {ls : List PageNo}
  {full thin p : PageNo} {n pr nb : IxNode κ} {fuel : Nat}

theorem here (hb : Beside s g p n pr nb) : s.pages p = some n := by
  cases hb with
  | right t => exact t.left
  | left t => exact t.right

theorem parent (hb : Beside s g p n pr nb) : s.pages n.parent = some pr ∧ pr.isLeaf = false := by
  cases hb with
  | right t => exact ⟨t.parent, t.inner⟩
  | left t => exact ⟨t.parent, t.inner⟩

theorem parent_ne (hb : Beside s g p n pr nb) (h : Indexed L s g ls full thin) :
    n.parent ≠ IX_NO_PAGE := by
  cases hb with
  | right t => exact t.parent_ne h
  | left t => exact t.parent_ne h

theorem neighbour (hb : Beside s g p n pr nb) (h : Indexed L s g ls full thin) :
    ∃ q, pr.valueAt L (if pr.findChild p ≠ 0 then pr.findChild p - 1 else 1) = q ∧ q ≠ p ∧
      s.pages q = some nb ∧ g.height q = g.height p ∧ q ≠ s.rootPage := by
  cases hb with
  | @right q back a b t =>
    refine ⟨q, ?_, t.ne.1.symm, t.right, t.height.1.symm, (t.not_root h).2⟩
    rw [show pr.findChild p = 0 from t.findChild_left h, ← t.rightPage]
    exact IxNode.valueAt_eq L (show pr.entries = [a] ++ b :: back from t.entries)
  | @left q front back a b t =>
    refine ⟨q, ?_, t.ne.1, t.left, t.height.1, (t.not_root h).1⟩
    rw [t.findChild_right h, if_pos (by omega), Nat.add_sub_cancel, ← t.leftPage]
    exact IxNode.valueAt_eq L t.entries

theorem round (hb : Beside s g p n pr nb) (h : Indexed L s g ls full thin)
    (hsize : n.size < L.minSize) :
    IxFile.coalesceOrRedistribute L (fuel + 1) s p =
      (IxFile.refill L s p n pr nb).bind fun s =>
        IxFile.coalesceOrRedistribute L fuel s n.parent := by
  obtain ⟨q, hvalue, -, hq, -⟩ := hb.neighbour (L := L) h
  rw [IxFile.coalesceOrRedistribute, hb.here, Option.bind_some, if_neg (hb.parent_ne h),
    if_neg (by omega), hb.parent.1, Option.bind_some]
  dsimp only
  rw [hvalue, hq, Option.bind_some]
  simp only [IxFile.refill, hvalue]

/-- The neighbour has enough for both. -/
theorem fill (hb : Beside s g p n pr nb) (h : Indexed L s g ls IX_NO_PAGE p)
    (hsize : n.size + 1 = L.minSize) (hsum : L.minSize * 2 ≤ n.size + nb.size)
    (hdead : n.isLeaf = false → n.size = 1 → Bound.at (n.getKey L 1) < g.hi p) :
    ∃ s', IxFile.refill L s p n pr nb = some s' ∧ Shifted L s s' n.parent := by
  have hmin := L.two_le_minSize
  obtain ⟨q, hvalue, -⟩ := hb.neighbour (L := L) h
  simp only [IxFile.refill, if_pos hsum]
  cases hb with
  | right t =>
    have hkind := t.sameKind h (by omega) (by omega)
    have hfind : pr.findChild p = 0 := t.findChild_left h
    have hright : pr.valueAt L 1 = _ := (IxNode.valueAt_eq L
      (show pr.entries = [_] ++ _ :: _ from t.entries)).trans t.rightPage
    simp only [hfind, ne_eq, not_true_eq_false, if_false, hright]
    cases hl : n.isLeaf with
    | true => exact h.fillLeafFromRight t hl (hkind.symm.trans hl) hsize (by omega)
    | false =>
      refine h.fillInnerFromRight t hl (hkind.symm.trans hl) hsize (by omega) fun hone heq => ?_
      have hlt := hdead hl hone
      rw [t.range.2.1, heq] at hlt
      exact lt_irrefl _ hlt
  | left t =>
    have hkind := t.sameKind h (by omega) (by omega)
    have hfind := t.findChild_right h
    have hleft : pr.valueAt L _ = _ := (IxNode.valueAt_eq L t.entries).trans t.leftPage
    simp only [hfind, ne_eq, Nat.add_eq_zero_iff, one_ne_zero, and_false, not_false_eq_true, if_true,
      Nat.add_sub_cancel, hleft]
    cases hl : n.isLeaf with
    | true => exact h.fillLeafFromLeft t (hkind.trans hl) hl hsize (by omega)
    | false => exact h.fillInnerFromLeft t (hkind.trans hl) hl hsize (by omega)

/-- The two nodes become one. -/
theorem merge (hb : Beside s g p n pr nb) (h : Indexed L s g ls IX_NO_PAGE p)
    (hsize : n.size + 1 = L.minSize) (hsum : n.size + nb.size < L.minSize * 2) :
    ∃ s' pr', IxFile.refill L s p n pr nb = some s' ∧ Merged L s s' g n.parent pr' ∧
      pr'.isLeaf = false ∧ pr'.parent = pr.parent ∧ pr'.size + 1 = pr.size ∧
      (pr'.size = 1 → Bound.at (pr'.getKey L 1) < g.hi n.parent) := by
  have hmin := L.two_le_minSize
  obtain ⟨q, hvalue, hqp, hq, -, hqr⟩ := hb.neighbour (L := L) h
  have hnb := h.ge (IxFile.tree_of_pages hq) hqp hqr
  rw [IxNode.view_size] at hnb
  simp only [IxFile.refill, if_neg (not_le.mpr hsum)]
  cases hb with
  | right t =>
    have hfind : pr.findChild p = 0 := t.findChild_left h
    have hright : pr.valueAt L 1 = _ := (IxNode.valueAt_eq L
      (show pr.entries = [_] ++ _ :: _ from t.entries)).trans t.rightPage
    simp only [hfind, ne_eq, not_true_eq_false, if_false, if_true, hright]
    obtain ⟨s', hrun, hmerged⟩ := h.merge (.inl rfl) t (by omega) (by omega) hsum
    obtain ⟨hone, hkey⟩ := t.erased h
    exact ⟨s', _, hrun, hmerged, t.inner, rfl, hone, hkey⟩
  | left t =>
    have hfind := t.findChild_right h
    have hleft : pr.valueAt L _ = _ := (IxNode.valueAt_eq L t.entries).trans t.leftPage
    simp only [hfind, ne_eq, Nat.add_eq_zero_iff, one_ne_zero, and_false, not_false_eq_true, if_true,
      if_false, Nat.add_sub_cancel, hleft]
    obtain ⟨s', hrun, hmerged⟩ := h.merge (.inr rfl) t (by omega) (by omega) (by omega)
    obtain ⟨hone, hkey⟩ := t.erased h
    exact ⟨s', _, hrun, hmerged, t.inner, rfl, hone, hkey⟩

end Beside

namespace Indexed

variable {L : IxLayout κ} {s : IxFile κ} {g : Labels PageNo κ} {ls : List PageNo}
  {full thin p : PageNo} {n : IxNode κ} {fuel : Nat}

theorem two_le_size (h : Indexed L s g ls full thin) (hp : s.pages p = some n)
    (hl : n.isLeaf = false) (hne : p ≠ thin) : 2 ≤ n.size := by
  have ht := IxFile.tree_of_pages hp
  by_cases hr : p = s.rootPage
  · subst hr
    have := h.root ht hne
    rwa [IxNode.view_inner hl, leastAtRoot, ← IxNode.view_inner hl, IxNode.view_size] at this
  · have := h.ge ht hne hr
    rw [IxNode.view_size] at this
    exact L.two_le_minSize.trans this

theorem parent_ne_self (h : Indexed L s g ls full thin) (hp : s.pages p = some n)
    (hroot : p ≠ s.rootPage) : n.parent ≠ p := by
  have hup := h.height_parent hp hroot
  intro heq
  rw [heq] at hup
  omega

/-- A page other than the root has a neighbour. -/
theorem exists_beside (h : Indexed L s g ls full thin) (hp : s.pages p = some n)
    (hroot : p ≠ s.rootPage) (hthin : n.parent ≠ thin) : ∃ pr nb, Beside s g p n pr nb := by
  obtain ⟨pr, front, e, back, hpr, hl, hes, he⟩ := IxFile.parent_split h.tree.shape hp hroot
  rcases List.eq_nil_or_concat front with rfl | ⟨front, a, rfl⟩
  · have hsize := h.two_le_size hpr hl hthin
    cases back with
    | nil => simp [IxNode.size, hes] at hsize
    | cons b back =>
      obtain ⟨rn, hrn⟩ := IxFile.kid_there h.tree.shape hpr hl (show b ∈ pr.entries by simp [hes])
      exact ⟨pr, rn, .right (Siblings.mk' h hp hrn hpr hl hes he rfl)⟩
  · rw [List.concat_eq_append, List.append_assoc] at hes
    obtain ⟨ln, hln⟩ := IxFile.kid_there h.tree.shape hpr hl (show a ∈ pr.entries by simp [hes])
    exact ⟨pr, ln, .left (Siblings.mk' h hln hp hpr hl hes rfl he)⟩

/-- Where no page is thin the rounds end at once. -/
theorem settled (h : Indexed L s g ls full IX_NO_PAGE) (hp : s.pages p = some n)
    (hl : n.isLeaf = false) : IxFile.coalesceOrRedistribute L (fuel + 1) s p = some s := by
  have ht := IxFile.tree_of_pages hp
  have hne : p ≠ IX_NO_PAGE := by
    rintro rfl
    rw [h.noPage] at ht
    cases ht
  have hparent := h.parent_eq_noPage ht
  rw [IxNode.view_parent] at hparent
  rw [IxFile.coalesceOrRedistribute, hp, Option.bind_some]
  by_cases hroot : p = s.rootPage
  · rw [if_pos (hparent.mpr hroot)]
    subst hroot
    have hsize := h.root ht hne
    rw [IxNode.view_inner hl, leastAtRoot, ← IxNode.view_inner hl, IxNode.view_size] at hsize
    simp only [IxFile.adjustRoot, hp, Option.bind_some, hl]
    rw [if_neg (by omega), if_neg (by simp)]
  · have hge := h.ge ht hne hroot
    rw [IxNode.view_size] at hge
    rw [if_neg fun heq => hroot (hparent.mp heq), if_pos hge]

/-- All rounds of `coalesce_or_redistribute`, from the node `n` of page `p` on that may hold one
entry too few. -/
theorem coalesceUp (h : Indexed L s g ls IX_NO_PAGE p) (hp : s.pages p = some n)
    (hthin : p ≠ s.rootPage → L.minSize ≤ n.size + 1)
    (hroot : p = s.rootPage → leastAtRoot n.view ≤ n.size + 1)
    (hdead : n.isLeaf = false → n.size = 1 → Bound.at (n.getKey L 1) < g.hi p)
    (hfuel : g.height s.rootPage < g.height p + fuel) :
    ∃ s', IxFile.coalesceOrRedistribute L fuel s p = some s' ∧ (IsIndex L s' ∧ s'.EndsMeet) ∧
      ∀ k r, Stores s'.tree k r ↔ Stores s.tree k r := by
  -- one round for each level from `p` to the root
  induction fuel generalizing s g ls p n with
  | zero =>
    have := h.height_le_root hp
    omega
  | succ fuel ih =>
    have ht := IxFile.tree_of_pages hp
    have hparent := h.parent_eq_noPage ht
    rw [IxNode.view_parent] at hparent
    by_cases hr : p = s.rootPage
    · rw [IxFile.coalesceOrRedistribute, hp, Option.bind_some, if_pos (hparent.mpr hr)]
      subst hr
      exact h.adjustRoot hp (hroot rfl)
    by_cases hsize : L.minSize ≤ n.size
    · refine ⟨s, ?_, ⟨.inr ⟨g, ls, h.thick hp (fun _ => hsize) fun heq => absurd heq hr⟩,
        h.endsMeet⟩, fun _ _ => Iff.rfl⟩
      rw [IxFile.coalesceOrRedistribute, hp, Option.bind_some, if_neg fun heq => hr (hparent.mp heq),
        if_pos hsize]
    have hlow := hthin hr
    obtain ⟨pr, nb, hb⟩ := h.exists_beside hp hr (h.parent_ne_self hp hr)
    have hup := h.height_parent hp hr
    have hrank := h.height_le_root hb.parent.1
    rw [hb.round h (by omega)]
    by_cases hsum : L.minSize * 2 ≤ n.size + nb.size
    · obtain ⟨s₁, hrun, ⟨g₁, ls₁, hindexed⟩, hstores, pr₁, hpr₁, hl₁⟩ :=
        hb.fill h (by omega) hsum hdead
      obtain ⟨fuel, rfl⟩ : ∃ f, fuel = f + 1 := ⟨fuel - 1, by omega⟩
      refine ⟨s₁, ?_, ⟨.inr ⟨g₁, ls₁, hindexed⟩, hindexed.endsMeet⟩, hstores⟩
      rw [hrun, Option.bind_some]
      exact hindexed.settled hpr₁ hl₁
    · obtain ⟨s₁, pr₁, hrun, ⟨⟨g₁, ls₁, hindexed, hheight, hhi⟩, hstores, hroot₁, hpr₁, -⟩, hl₁, -,
        hsize₁, hkey₁⟩ := hb.merge h (by omega) (by omega)
      have hprt := IxFile.tree_of_pages hb.parent.1
      have hne := h.parent_ne_self hp hr
      have hthin₁ : n.parent ≠ s₁.rootPage → L.minSize ≤ pr₁.size + 1 := by
        intro hnot
        rw [hroot₁] at hnot
        have := h.ge hprt hne hnot
        rw [IxNode.view_size] at this
        omega
      have hleast₁ : leastAtRoot pr₁.view ≤ pr₁.size + 1 := by
        have := h.two_le_size hb.parent.1 hb.parent.2 hne
        have := leastAtRoot_le pr₁.view
        omega
      have hdead₁ : pr₁.size = 1 → Bound.at (pr₁.getKey L 1) < g₁.hi n.parent := by
        rw [hhi]
        exact hkey₁
      have hrank₁ : g₁.height s₁.rootPage < g₁.height n.parent + fuel := by
        rw [hroot₁, hheight]
        omega
      obtain ⟨s', hrun', hindex, hstores'⟩ :=
        ih hindexed hpr₁ hthin₁ (fun _ => hleast₁) (fun _ => hdead₁) hrank₁
      refine ⟨s', ?_, hindex, fun k r => (hstores' k r).trans (hstores k r)⟩
      rw [hrun, Option.bind_some, hrun']

end Indexed

end Grmdb
