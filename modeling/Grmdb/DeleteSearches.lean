import Grmdb.IndexEntry
import Grmdb.IndexScan

namespace Grmdb

open PagedTree Tiling

variable {κ : Type} [LinearOrder κ]

namespace IxNode

/-- The slots that the loop of `lower_bound` and the comparison behind it look at. -/
def searchedLoop (key : Nat → κ) (target : κ) : Nat → Nat → Nat → List Nat
  | 0, l, _ => [l]
  | fuel + 1, l, r =>
    if l < r then
      let m := (l + r) / 2
      m :: if key m < target then searchedLoop key target fuel (m + 1) r
        else searchedLoop key target fuel l m
    else [l]

def searched (L : IxLayout κ) (n : IxNode κ) (target : κ) : List Nat :=
  searchedLoop (n.getKey L) target n.size n.firstKey (n.size - 1)

/-- `lower_bound` stays inside the slots below `num_key`. -/
def SearchesLive (L : IxLayout κ) (n : IxNode κ) (target : κ) : Prop :=
  ∀ i ∈ n.searched L target, i < n.size

variable {L : IxLayout κ} {n : IxNode κ} {key : Nat → κ} {target : κ} {fuel l r i : Nat}

theorem le_of_mem_searchedLoop (hi : i ∈ searchedLoop key target fuel l r) : l ≤ i := by
  induction fuel generalizing l r with
  | zero => exact (List.mem_singleton.mp hi).ge
  | succ fuel ih =>
    simp only [searchedLoop] at hi
    split at hi
    · rcases List.mem_cons.mp hi with rfl | hi
      · omega
      · split at hi
        · have := ih hi
          omega
        · exact ih hi
    · exact (List.mem_singleton.mp hi).ge

theorem mem_searchedLoop_le (hlr : l ≤ r) (hi : i ∈ searchedLoop key target fuel l r) : i ≤ r := by
  induction fuel generalizing l r with
  | zero => exact (List.mem_singleton.mp hi).le.trans hlr
  | succ fuel ih =>
    simp only [searchedLoop] at hi
    split at hi
    · rcases List.mem_cons.mp hi with rfl | hi
      · omega
      · split at hi
        · exact ih (by omega) hi
        · have := ih (by omega) hi
          omega
    · exact (List.mem_singleton.mp hi).le.trans hlr

theorem lowerBoundLoop_searched :
    lowerBoundLoop key target fuel l r ∈ searchedLoop key target fuel l r := by
  induction fuel generalizing l r with
  | zero => exact List.mem_singleton.mpr rfl
  | succ fuel ih =>
    simp only [lowerBoundLoop, searchedLoop]
    split
    · refine List.mem_cons_of_mem _ ?_
      split
      · exact ih
      · exact ih
    · exact List.mem_singleton.mpr rfl

/-- A search stays inside when there is a key that it may compare with. -/
theorem searchesLive_iff : n.SearchesLive L target ↔ n.firstKey < n.size := by
  constructor
  · intro h
    have hlive := h _ lowerBoundLoop_searched
    exact (le_of_mem_searchedLoop lowerBoundLoop_searched).trans_lt hlive
  · intro h i hi
    have := mem_searchedLoop_le (by omega) hi
    omega

/-- The search of `insert`: a node without entries needs none. -/
def insertSearches (n : IxNode κ) (key : κ) : List (IxNode κ × κ) :=
  if n.size = 0 then [] else [(n, key)]

end IxNode

namespace IxFile

/-- The searches of `redistribute`. -/
def redistributeSearches (L : IxLayout κ) (nb nd pr : IxNode κ) (index : Nat) :
    List (IxNode κ × κ) :=
  if !nd.isLeaf then
    if index = 0 then nd.insertSearches (pr.getKey L 1) else []
  else
    if index = 0 then nd.insertSearches (nb.getKey L 0)
    else nd.insertSearches (nb.getKey L (nb.size - 1))

/-- The searches of `coalesce_or_redistribute`. -/
def coalesceSearches (L : IxLayout κ) : Nat → IxFile κ → PageNo → List (IxNode κ × κ)
  | 0, _, _ => []
  | fuel + 1, s, p =>
    match s.pages p with
    | none => []
    | some node =>
      if node.parent = IX_NO_PAGE then []
      else if L.minSize ≤ node.size then []
      else
        match s.pages node.parent with
        | none => []
        | some pr =>
          let index := pr.findChild p
          match s.pages (pr.valueAt L (if index ≠ 0 then index - 1 else 1)) with
          | none => []
          | some nb =>
            (if L.minSize * 2 ≤ node.size + nb.size then redistributeSearches L nb node pr index
              else []) ++
              match refill L s p node pr nb with
              | none => []
              | some s => coalesceSearches L fuel s node.parent

/-- The searches of `find_leaf_page`. -/
def findLeafSearches (L : IxLayout κ) (s : IxFile κ) (key : κ) :
    Nat → PageNo → List (IxNode κ × κ)
  | 0, _ => []
  | fuel + 1, p =>
    match s.pages p with
    | none => []
    | some node =>
      if node.isLeaf then []
      else (node, key) :: findLeafSearches L s key fuel (node.internalLookup L key)

/-- The searches of `delete_entry`. -/
def deleteSearches (L : IxLayout κ) (s : IxFile κ) (key : κ) : List (IxNode κ × κ) :=
  findLeafSearches L s key s.nextPageNo.toNat s.rootPage ++
    match findLeafPage L s key with
    | none => []
    | some p =>
      match s.pages p with
      | none => []
      | some leaf =>
        (leaf, key) ::
          match leaf.lowerBound L key with
          | none => []
          | some pos =>
            if leaf.getKey L pos = key then
              coalesceSearches L s.nextPageNo.toNat (s.write p (leaf.erasePair pos)) p
            else []

/-- Whether taking one of `size + 1` entries out of page `p` leads, through merges below, to an
inner node with one child that takes over an entry from its right neighbour. -/
def refillsDead (L : IxLayout κ) (s : IxFile κ) : Nat → PageNo → Nat → Bool
  | 0, _, _ => false
  | fuel + 1, p, size =>
    match s.pages p with
    | none => false
    | some node =>
      if node.parent = IX_NO_PAGE then false
      else if L.minSize ≤ size then false
      else
        match s.pages node.parent with
        | none => false
        | some pr =>
          let index := pr.findChild p
          match s.pages (pr.valueAt L (if index ≠ 0 then index - 1 else 1)) with
          | none => false
          | some nb =>
            if L.minSize * 2 ≤ size + nb.size then
              !node.isLeaf && decide (index = 0) && decide (size = 1)
            else refillsDead L s fuel node.parent (pr.size - 1)

/-- `delete_entry` takes out the key, or nothing where it is absent, and no search on the way
leaves the slots below `num_key`. Slot -1 is one of those that `none` stands for. -/
def DeletesExactly (L : IxLayout κ) (s : IxFile κ) (key : κ) : Prop :=
  ∃ s', deleteEntry L s key = some s' ∧
    (∀ k r, Stores s'.tree k r ↔ Stores s.tree k r ∧ k ≠ key) ∧
    ∀ x ∈ deleteSearches L s key, x.1.SearchesLive L x.2

/-- The leaf for the key holds a key that is not smaller, and no inner node with one child is
refilled from the right. -/
def DeleteFits (L : IxLayout κ) (s : IxFile κ) (key : κ) : Prop :=
  ∃ p leaf, findLeafPage L s key = some p ∧ s.pages p = some leaf ∧
    (∃ e ∈ leaf.entries, key ≤ e.1) ∧
    ((∃ e ∈ leaf.entries, e.1 = key) →
      refillsDead L s s.nextPageNo.toNat p (leaf.size - 1) = false)

end IxFile

namespace Beside

variable {L : IxLayout κ} {s s' : IxFile κ} {g : Labels PageNo κ} {ls : List PageNo}
  {full thin p : PageNo} {n pr nb : IxNode κ} {fuel size : Nat}

theorem searches_round (hb : Beside s g p n pr nb) (h : Indexed L s g ls full thin)
    (hsize : n.size < L.minSize) (hrun : IxFile.refill L s p n pr nb = some s') :
    IxFile.coalesceSearches L (fuel + 1) s p =
      (if L.minSize * 2 ≤ n.size + nb.size then
        IxFile.redistributeSearches L nb n pr (pr.findChild p) else []) ++
      IxFile.coalesceSearches L fuel s' n.parent := by
  obtain ⟨q, hvalue, -, hq, -⟩ := hb.neighbour (L := L) h
  simp only [IxFile.coalesceSearches, hb.here, if_neg (hb.parent_ne h),
    if_neg (not_le.mpr hsize), hb.parent.1, hvalue, hq, hrun]

theorem refillsDead_round (hb : Beside s g p n pr nb) (h : Indexed L s g ls full thin)
    (hsize : size < L.minSize) :
    IxFile.refillsDead L s (fuel + 1) p size =
      if L.minSize * 2 ≤ size + nb.size then
        !n.isLeaf && decide (pr.findChild p = 0) && decide (size = 1)
      else IxFile.refillsDead L s fuel n.parent (pr.size - 1) := by
  obtain ⟨q, hvalue, -, hq, -⟩ := hb.neighbour (L := L) h
  simp only [IxFile.refillsDead, hb.here, if_neg (hb.parent_ne h), if_neg (not_le.mpr hsize),
    hb.parent.1, hvalue, hq]

/-- The insertion of `redistribute` compares with a live key unless it goes into an inner node with
one child. -/
theorem redistributeSearches_live (hpos : 0 < n.size) :
    (∀ x ∈ IxFile.redistributeSearches L nb n pr (pr.findChild p), x.1.SearchesLive L x.2) ↔
      (!n.isLeaf && decide (pr.findChild p = 0) && decide (n.size = 1)) = false := by
  have hinsert : ∀ key, (∀ x ∈ n.insertSearches key, x.1.SearchesLive L x.2) ↔
      n.firstKey < n.size := by
    intro key
    rw [IxNode.insertSearches, if_neg (by omega), ← @IxNode.searchesLive_iff κ _ L n key]
    simp
  cases hl : n.isLeaf with
  | true =>
    have hfirst : n.firstKey = 0 := by simp [IxNode.firstKey, hl]
    simp only [IxFile.redistributeSearches, hl, Bool.not_true, Bool.false_eq_true, if_false,
      Bool.false_and, iff_true]
    split
    · exact (hinsert _).mpr (by omega)
    · exact (hinsert _).mpr (by omega)
  | false =>
    have hfirst : n.firstKey = 1 := by simp [IxNode.firstKey, hl]
    simp only [IxFile.redistributeSearches, hl, Bool.not_false, if_true, Bool.true_and]
    split
    next hzero =>
      rw [hinsert, hfirst]
      simp only [hzero, decide_true, Bool.true_and, decide_eq_false_iff_not]
      omega
    next hzero => simp [hzero]

end Beside

namespace Indexed

variable {L : IxLayout κ} {s s' : IxFile κ} {g : Labels PageNo κ} {ls : List PageNo}
  {full thin p : PageNo} {n n' : IxNode κ} {fuel f size : Nat}

/-- `refillsDead` looks at the pages from the height of `p` on. -/
theorem refillsDead_congr (h : Indexed L s g ls full thin) (hp : s.pages p = some n)
    (hp' : s'.pages p = some n') (hparent : n'.parent = n.parent) (hleaf : n'.isLeaf = n.isLeaf)
    (hthin : g.height thin ≤ g.height p)
    (hsame : ∀ {x m}, s.pages x = some m → g.height p ≤ g.height x → x ≠ p → s'.pages x = some m) :
    IxFile.refillsDead L s' f p size = IxFile.refillsDead L s f p size := by
  induction f generalizing p n n' size with
  | zero => rfl
  | succ f ih =>
    have ht := IxFile.tree_of_pages hp
    have hroot := h.parent_eq_noPage ht
    rw [IxNode.view_parent] at hroot
    by_cases hr : p = s.rootPage
    · simp only [IxFile.refillsDead, hp, hp', hparent, hroot.mpr hr, if_true]
    by_cases hsize : L.minSize ≤ size
    · simp only [IxFile.refillsDead, hp, hp', if_pos hsize]
      split <;> split <;> rfl
    have hup := h.height_parent hp hr
    have hne : n.parent ≠ thin := by
      intro heq
      rw [heq] at hup
      omega
    obtain ⟨pr, nb, hb⟩ := h.exists_beside hp hr hne
    obtain ⟨q, hvalue, hqp, hq, hqh, -⟩ := hb.neighbour (L := L) h
    have hpr : s'.pages n.parent = some pr :=
      hsame hb.parent.1 (by omega) (h.parent_ne_self hp hr)
    have hq' : s'.pages q = some nb := hsame hq (by omega) hqp
    rw [hb.refillsDead_round h (by omega)]
    simp only [IxFile.refillsDead, hp', hparent, hleaf, if_neg (hb.parent_ne h), if_neg hsize, hpr,
      hvalue, hq']
    split
    · rfl
    · refine ih hb.parent.1 hpr rfl rfl (by omega) fun hx hlt hxne => hsame hx (by omega) ?_
      rintro rfl
      omega

/-- Where no page is thin there is nothing to search for. -/
theorem settled_searches (h : Indexed L s g ls full IX_NO_PAGE) (hp : s.pages p = some n) :
    IxFile.coalesceSearches L fuel s p = [] := by
  cases fuel with
  | zero => rfl
  | succ fuel =>
    have ht := IxFile.tree_of_pages hp
    have hne : p ≠ IX_NO_PAGE := by
      rintro rfl
      rw [h.noPage] at ht
      cases ht
    simp only [IxFile.coalesceSearches, hp]
    split
    · rfl
    next hparent =>
      have hr : p ≠ s.rootPage := by
        intro heq
        have := (h.parent_eq_noPage ht).mpr heq
        rw [IxNode.view_parent] at this
        exact hparent this
      have hge := h.ge ht hne hr
      rw [IxNode.view_size] at hge
      rw [if_pos hge]

/-- All rounds of `coalesce_or_redistribute` search inside the live slots unless an inner node with
one child is refilled from the right. -/
theorem coalesceSearches_live (h : Indexed L s g ls IX_NO_PAGE p) (hp : s.pages p = some n)
    (hthin : p ≠ s.rootPage → L.minSize ≤ n.size + 1)
    (hdead : n.isLeaf = false → n.size = 1 → Bound.at (n.getKey L 1) < g.hi p)
    (hfuel : g.height s.rootPage < g.height p + fuel) (hf : g.height s.rootPage < g.height p + f) :
    (∀ x ∈ IxFile.coalesceSearches L fuel s p, x.1.SearchesLive L x.2) ↔
      IxFile.refillsDead L s f p n.size = false := by
  -- one round for each level from `p` to the root
  induction fuel generalizing s g ls p n f with
  | zero =>
    have := h.height_le_root hp
    omega
  | succ fuel ih =>
    have hmin := L.two_le_minSize
    have hrank₀ := h.height_le_root hp
    obtain ⟨f, rfl⟩ : ∃ f', f = f' + 1 := ⟨f - 1, by omega⟩
    have ht := IxFile.tree_of_pages hp
    have hparent := h.parent_eq_noPage ht
    rw [IxNode.view_parent] at hparent
    by_cases hr : p = s.rootPage
    · simp [IxFile.coalesceSearches, IxFile.refillsDead, hp, hparent.mpr hr]
    by_cases hsize : L.minSize ≤ n.size
    · simp [IxFile.coalesceSearches, IxFile.refillsDead, hp, hsize]
    have hlow := hthin hr
    have hne := h.parent_ne_self hp hr
    obtain ⟨pr, nb, hb⟩ := h.exists_beside hp hr hne
    have hup := h.height_parent hp hr
    have hrank := h.height_le_root hb.parent.1
    rw [hb.refillsDead_round h (by omega)]
    by_cases hsum : L.minSize * 2 ≤ n.size + nb.size
    · obtain ⟨s₁, hrun, ⟨g₁, ls₁, hindexed⟩, -, pr₁, hpr₁, -⟩ := hb.fill h (by omega) hsum hdead
      rw [hb.searches_round h (by omega) hrun, if_pos hsum, if_pos hsum,
        hindexed.settled_searches hpr₁, List.append_nil]
      exact Beside.redistributeSearches_live (by omega)
    · obtain ⟨s₁, pr₁, hrun, ⟨⟨g₁, ls₁, hindexed, hheight, hhi⟩, -, hroot₁, hpr₁, habove⟩, hl₁,
        hparent₁, hsize₁, hkey₁⟩ := hb.merge h (by omega) (by omega)
      have hprt := IxFile.tree_of_pages hb.parent.1
      have hthin₁ : n.parent ≠ s₁.rootPage → L.minSize ≤ pr₁.size + 1 := by
        intro hnot
        rw [hroot₁] at hnot
        have := h.ge hprt hne hnot
        rw [IxNode.view_size] at this
        omega
      have hdead₁ : pr₁.size = 1 → Bound.at (pr₁.getKey L 1) < g₁.hi n.parent := by
        rw [hhi]
        exact hkey₁
      have hnext := ih (f := f) hindexed hpr₁ hthin₁ (fun _ => hdead₁)
        (by rw [hroot₁, hheight]; omega) (by rw [hroot₁, hheight]; omega)
      have hcongr : IxFile.refillsDead L s₁ f n.parent pr₁.size =
          IxFile.refillsDead L s f n.parent (pr.size - 1) := by
        rw [show pr.size - 1 = pr₁.size by omega]
        exact h.refillsDead_congr hb.parent.1 hpr₁ hparent₁ (hl₁.trans hb.parent.2.symm) (by omega)
          habove
      rw [hb.searches_round h (by omega) hrun, if_neg hsum, if_neg hsum, List.nil_append, hnext,
        hcongr]

end Indexed

/-- The searches of `find_leaf_page` meet inner nodes, which have two children. -/
theorem BTree.findLeafSearches_live {L : IxLayout κ} {s : IxFile κ} {g : Labels PageNo κ}
    {ls : List PageNo} {key : κ} {fuel : Nat} {p : PageNo} (h : BTree s g ls) :
    ∀ x ∈ IxFile.findLeafSearches L s key fuel p, x.1.SearchesLive L x.2 := by
  induction fuel generalizing p with
  | zero => simp [IxFile.findLeafSearches]
  | succ fuel ih =>
    intro x hx
    simp only [IxFile.findLeafSearches] at hx
    split at hx
    · cases hx
    next n hp =>
      split at hx
      · cases hx
      next hl =>
        rcases List.mem_cons.mp hx with rfl | hx
        · have hl' : n.isLeaf = false := by simpa using hl
          rw [IxNode.searchesLive_iff, IxNode.firstKey, if_neg hl]
          exact h.inner hp hl'
        · exact ih x hx

namespace LeafCut

variable {L : IxLayout κ} {s : IxFile κ} {g : Labels PageNo κ} {ls : List PageNo} {key : κ}
  {p : PageNo} {n : IxNode κ} {front rest : List (κ × Rid)} {e : κ × Rid}

/-- Before the entries are dealt with, `delete_entry` searches live slots only. -/
theorem deleteSearches_live (c : LeafCut L s g key p n front (e :: rest))
    (h : Indexed L s g ls IX_NO_PAGE IX_NO_PAGE) :
    (∀ x ∈ IxFile.deleteSearches L s key, x.1.SearchesLive L x.2) ↔
      (e.1 = key → IxFile.refillsDead L s s.nextPageNo.toNat p (n.size - 1) = false) := by
  have hbound := c.lowerBound h
  rw [if_neg (List.cons_ne_nil e rest)] at hbound
  have hkey : n.getKey L front.length = e.1 := IxNode.getKey_eq L c.entries
  have hleaf : n.SearchesLive L key := by
    rw [IxNode.searchesLive_iff, IxNode.firstKey, if_pos c.isLeaf]
    exact c.size_pos h
  have hpath : ∀ x ∈ IxFile.findLeafSearches L s key s.nextPageNo.toNat s.rootPage,
      x.1.SearchesLive L x.2 := h.bTree.findLeafSearches_live
  have hrank : g.height s.rootPage < g.height p + s.nextPageNo.toNat := by
    rw [c.height h, Nat.zero_add]
    exact h.bTree.height_lt
  simp only [IxFile.deleteSearches, c.find, c.page, hbound, hkey, List.forall_mem_append,
    List.forall_mem_cons]
  by_cases he : e.1 = key
  · obtain ⟨hthin, hsize⟩ := h.thinned c
    have hwritten : (s.write p (n.erasePair front.length)).pages p =
        some (n.erasePair front.length) := by simp [IxFile.write]
    have hsame : ∀ {x m}, (s.write p (n.erasePair front.length)).pages x = some m →
        g.height p ≤ g.height x → x ≠ p → s.pages x = some m := by
      intro x m hx _ hxp
      simpa [IxFile.write, hxp] using hx
    have hcongr : IxFile.refillsDead L s s.nextPageNo.toNat p (n.erasePair front.length).size =
        IxFile.refillsDead L (s.write p (n.erasePair front.length)) s.nextPageNo.toNat p
          (n.erasePair front.length).size :=
      hthin.refillsDead_congr hwritten c.page rfl rfl le_rfl hsame
    have hinner : (n.erasePair front.length).isLeaf = false →
        (n.erasePair front.length).size = 1 →
        Bound.at ((n.erasePair front.length).getKey L 1) < g.hi p := by
      intro hl
      rw [show (n.erasePair front.length).isLeaf = true from c.isLeaf] at hl
      cases hl
    have hlive := hthin.coalesceSearches_live hwritten hsize.2 hinner hrank hrank
    rw [if_pos he, hlive, ← hcongr, show n.size - 1 = (n.erasePair front.length).size by omega]
    exact ⟨fun hx _ => hx.2.2, fun hx => ⟨hpath, hleaf, hx he⟩⟩
  · rw [if_neg he]
    exact ⟨fun _ heq => absurd heq he, fun _ => ⟨hpath, hleaf, by simp⟩⟩

end LeafCut

/-- `delete_entry` does what it should when the leaf for the key holds a key that is not smaller. On
the way up only an inner node left with one child, refilled from the right, searches a dead slot. -/
theorem deleteEntry_exact_iff {L : IxLayout κ} {s : IxFile κ} (h : IsIndex L s) (key : κ) :
    s.DeletesExactly L key ↔ s.DeleteFits L key := by
  rcases h with h | ⟨g, ls, h⟩
  · simp [IxFile.DeletesExactly, IxFile.DeleteFits, h.deleteEntry, h.findLeafPage]
  obtain ⟨p, n, front, back, c⟩ := h.exists_leafCut key
  have hfits : s.DeleteFits L key ↔ (∃ e ∈ n.entries, key ≤ e.1) ∧
      ((∃ e ∈ n.entries, e.1 = key) →
        IxFile.refillsDead L s s.nextPageNo.toNat p (n.size - 1) = false) := by
    constructor
    · rintro ⟨p', n', hfind, hp', hge, hdead⟩
      cases Option.some.inj (hfind.symm.trans c.find)
      cases Option.some.inj (hp'.symm.trans c.page)
      exact ⟨hge, hdead⟩
    · rintro ⟨hge, hdead⟩
      exact ⟨p, n, c.find, c.page, hge, hdead⟩
  rw [hfits]
  cases back with
  | nil =>
    rw [IxFile.DeletesExactly, h.deleteEntry_below c]
    constructor
    · rintro ⟨s', hrun, -⟩
      cases hrun
    · rintro ⟨⟨e, he, hle⟩, -⟩
      rw [c.entries, List.append_nil] at he
      exact absurd (c.below e he) (not_lt.mpr hle)
  | cons e rest =>
    have hmem : e ∈ n.entries := by simp [c.entries]
    have hkey : (∃ x ∈ n.entries, x.1 = key) ↔ e.1 = key := by
      refine ⟨?_, fun he => ⟨e, hmem, he⟩⟩
      rintro ⟨x, hx, rfl⟩
      rw [c.entries] at hx
      rcases List.mem_append.mp hx with hx | hx
      · exact absurd (c.below x hx) (lt_irrefl _)
      · rcases List.mem_cons.mp hx with rfl | hx
        · rfl
        · exact absurd (c.above_tail h hx) (not_lt.mpr (c.above e List.mem_cons_self))
    have hlive := c.deleteSearches_live h
    rw [hkey, ← hlive]
    constructor
    · rintro ⟨s', -, -, hx⟩
      exact ⟨⟨e, hmem, c.above e List.mem_cons_self⟩, hx⟩
    · rintro ⟨-, hx⟩
      by_cases he : e.1 = key
      · obtain ⟨s', hrun, -, hstores⟩ := h.deleteEntry_found c he
        exact ⟨s', hrun, hstores, hx⟩
      · have hrun := h.deleteEntry_absent c he
        exact ⟨s, hrun, (h.deleteEntry hrun).2, hx⟩

omit [LinearOrder κ] in
theorem IxFile.create_emptied (L : IxLayout κ) : Emptied L (IxFile.create κ) :=
  ⟨rfl, fun _ => rfl, show (0 : Int) ≤ 3 by decide, Nat.zero_le _⟩

/-- Calls of `insert_entry` that all return. -/
def IxFile.insertAll (L : IxLayout κ) (s : IxFile κ) : List (κ × Rid) → Option (IxFile κ)
  | [] => some s
  | e :: es =>
    match insertEntry L s e.1 e.2 with
    | .returned s' => insertAll L s' es
    | _ => none

/-- What an `insert_entry` that returns does. -/
theorem IsIndex.insertEntry {L : IxLayout κ} {s s' : IxFile κ} {key : κ} {value : Rid}
    (h : IsIndex L s) (hrun : IxFile.insertEntry L s key value = .returned s') :
    IsIndex L s' ∧ ∀ k r, Stores s'.tree k r ↔ Stores s.tree k r ∨ k = key ∧ r = value := by
  rcases h with h | ⟨g, ls, h⟩
  · obtain ⟨s₁, g₁, ls₁, hrun₁, hindexed, hstores⟩ := h.insertEntry key value
    cases hrun.symm.trans hrun₁
    refine ⟨.inr ⟨g₁, ls₁, hindexed⟩, fun k r => ?_⟩
    rw [hstores]
    exact ⟨.inr, fun hs => hs.resolve_left h.stores⟩
  · obtain ⟨p, n, front, back, c⟩ := h.exists_leafCut key
    by_cases hfound : ∃ e rest, back = e :: rest ∧ e.1 = key
    · obtain ⟨e, rest, rfl, he⟩ := hfound
      rw [h.insertEntry_found c he] at hrun
      cases hrun
    · have hnone : ∀ x ∈ back, key < x.1 := fun x hx => c.above_lt h hfound hx
      obtain ⟨hthrows, hreturns⟩ := h.insertEntry_absent value c hnone
      by_cases hz : IxFile.sentUp L s s.nextPageNo.toNat p key = some L.zeroKey
      · obtain ⟨s₁, hrun₁⟩ := hthrows hz
        cases hrun.symm.trans hrun₁
      · obtain ⟨s₁, g₁, ls₁, hrun₁, hindexed, hstores⟩ := hreturns hz
        cases hrun.symm.trans hrun₁
        exact ⟨.inr ⟨g₁, ls₁, hindexed⟩, hstores⟩

/-- What calls that all return have built and stored. -/
theorem IsIndex.insertAll {L : IxLayout κ} {s s' : IxFile κ} {es : List (κ × Rid)}
    (h : IsIndex L s) (hrun : s.insertAll L es = some s') :
    IsIndex L s' ∧ ∀ k r, Stores s'.tree k r ↔ Stores s.tree k r ∨ (k, r) ∈ es := by
  induction es generalizing s with
  | nil =>
    cases hrun
    exact ⟨h, by simp⟩
  | cons e es ih =>
    simp only [IxFile.insertAll] at hrun
    split at hrun
    next s₁ hone =>
      obtain ⟨hindex, hone⟩ := h.insertEntry hone
      obtain ⟨hlast, hstores⟩ := ih hindex hrun
      refine ⟨hlast, fun k r => ?_⟩
      rw [hstores, hone, List.mem_cons, or_assoc]
      simp only [Prod.ext_iff]
    · cases hrun

/-- An INT column of value `b - 256` or `b`, by the byte `sign`, and a CHAR column of zeros. -/
def wideKey (b sign : UInt8) : IxKey [.int, .char 508] :=
  ⟨[b, sign, sign, sign] ++ List.replicate 508 0, by
    rw [List.length_append, List.length_replicate]
    rfl⟩

/-- Six entries fit into a leaf. -/
def wideLayout : IxLayout (IxKey [.int, .char 508]) :=
  IxLayout.ofCols [.int, .char 508] (by decide)

/-- Nine keys in two leaves under a root. -/
def spreadEntries : List (IxKey [.int, .char 508] × Rid) :=
  [(wideKey 5 0, ⟨1, 0⟩), (wideKey 9 0, ⟨1, 1⟩), (wideKey 1 0, ⟨1, 2⟩), (wideKey 12 0, ⟨1, 3⟩),
    (wideKey 7 0, ⟨1, 4⟩), (wideKey 3 0, ⟨1, 5⟩), (wideKey 15 0, ⟨2, 0⟩), (wideKey 11 0, ⟨2, 1⟩),
    (wideKey 14 0, ⟨2, 2⟩)]

/-- A key that is in its leaf with others is deleted as it should be. -/
theorem deleteEntry_exact_iff_spread :
    ∃ s root, IxFile.insertAll wideLayout (IxFile.create _) spreadEntries = some s ∧
      IsIndex wideLayout s ∧ s.pages s.rootPage = some root ∧ root.isLeaf = false ∧
      s.DeleteFits wideLayout (wideKey 9 0) ∧ s.DeletesExactly wideLayout (wideKey 9 0) := by
  have hrun : ((IxFile.insertAll wideLayout (IxFile.create _) spreadEntries).any fun s =>
      (s.pages s.rootPage).any (fun root => !root.isLeaf) &&
        (IxFile.findLeafPage wideLayout s (wideKey 9 0)).any fun p =>
          (s.pages p).any fun leaf => decide ((∃ e ∈ leaf.entries, wideKey 9 0 ≤ e.1) ∧
            IxFile.refillsDead wideLayout s s.nextPageNo.toNat p (leaf.size - 1) = false)) =
      true := by decide +kernel
  obtain ⟨s, hs, hrun⟩ := (Option.any_eq_true _ _).mp hrun
  obtain ⟨hroot, hrun⟩ := Bool.and_eq_true_iff.mp hrun
  obtain ⟨root, hpage, hinner⟩ := (Option.any_eq_true _ _).mp hroot
  obtain ⟨p, hfind, hrun⟩ := (Option.any_eq_true _ _).mp hrun
  obtain ⟨leaf, hleaf, hrun⟩ := (Option.any_eq_true _ _).mp hrun
  obtain ⟨hge, hdead⟩ := of_decide_eq_true hrun
  have hindex : IsIndex wideLayout s :=
    (IsIndex.insertAll (.inl (IxFile.create_emptied wideLayout)) hs).1
  have hfits : s.DeleteFits wideLayout (wideKey 9 0) := ⟨p, leaf, hfind, hleaf, hge, fun _ => hdead⟩
  exact ⟨s, root, hs, hindex, hpage, by simpa using hinner, hfits,
    (deleteEntry_exact_iff hindex (wideKey 9 0)).mpr hfits⟩

/-- The deletion of a key behind all others reads the slot in front of the keys of its leaf. -/
theorem deleteEntry_misses :
    ∃ s, IxFile.insertAll wideLayout (IxFile.create _) spreadEntries = some s ∧
      IsIndex wideLayout s ∧ ¬ s.DeletesExactly wideLayout (wideKey 20 0) := by
  obtain ⟨s, hs⟩ := Option.isSome_iff_exists.mp (show (IxFile.insertAll wideLayout
    (IxFile.create _) spreadEntries).isSome from by decide +kernel)
  have hempty := IxFile.create_emptied wideLayout
  obtain ⟨hindex, hstores⟩ := IsIndex.insertAll (.inl hempty) hs
  have hfirst : Stores s.tree (wideKey 5 0) ⟨1, 0⟩ := (hstores _ _).mpr (.inr (by simp [spreadEntries]))
  refine ⟨s, hs, hindex, ?_⟩
  rcases hindex with hnil | ⟨g, ls, h⟩
  · exact absurd hfirst hnil.stores
  obtain ⟨p, n, front, back, c⟩ := h.exists_leafCut (wideKey 20 0)
  have hlt : ∀ e ∈ spreadEntries, e.1 < wideKey 20 0 := by decide +kernel
  have hback : back = [] := by
    cases back with
    | nil => rfl
    | cons e rest =>
      have hstored : Stores s.tree e.1 e.2 := by
        refine ⟨p, n.view, IxFile.tree_of_pages c.page, ?_⟩
        rw [IxNode.view_leaf c.isLeaf, PNode.entries, c.entries]
        simp
      have hmem := ((hstores e.1 e.2).mp hstored).resolve_left hempty.stores
      exact absurd (hlt e hmem) (not_lt.mpr (c.above e List.mem_cons_self))
  subst hback
  rw [IxFile.DeletesExactly, h.deleteEntry_below c]
  rintro ⟨s', hnone, -⟩
  cases hnone

end Grmdb
