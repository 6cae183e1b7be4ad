import Grmdb.UniqueKey
import Grmdb.GapKeys

namespace Grmdb

open PagedTree Tiling

variable {κ : Type}

namespace IxFile

/-- The page `q` is `d` levels below the page `p`. -/
inductive UnderAt (s : IxFile κ) : Nat → PageNo → PageNo → Prop where
  | refl (p : PageNo) : UnderAt s 0 p p
  | child {d : Nat} {p q : PageNo} {n : IxNode κ} {e : κ × Rid} (hp : s.pages p = some n)
      (hn : n.isLeaf = false) (he : e ∈ n.entries) (h : UnderAt s d e.2.pageNo q) :
      UnderAt s (d + 1) p q

/-- `q` is the next leaf of `p`, and `p` the previous leaf of `q`. -/
def Neighbours (s : IxFile κ) (p q : PageNo) : Prop :=
  ∃ n m, s.pages p = some n ∧ s.pages q = some m ∧ n.nextLeaf = q ∧ m.prevLeaf = p

/-- The pages `ls` are all leaves, in a ring from `first_leaf` to `last_leaf` and back. -/
structure LeafRing (s : IxFile κ) (ls : List PageNo) : Prop where
  leaves : ∀ {p}, p ∈ ls ↔ ∃ n, s.pages p = some n ∧ n.isLeaf = true
  nodup : ls.Nodup
  first : ∀ p ∈ ls.head?, s.firstLeaf = p
  last : ∀ p ∈ ls.getLast?, s.lastLeaf = p
  links : (ls ++ ls.head?.toList).IsChain s.Neighbours

variable [LinearOrder κ]

/-- The pages are a B+ tree of the pairs of `m`. -/
structure IsMapTree (L : IxLayout κ) (s : IxFile κ) (m : κ → Option Rid) : Prop where
  le_order : ∀ {p n}, s.pages p = some n → n.size ≤ L.btreeOrder
  peak_le : s.peak ≤ L.btreeOrder + 1
  min_le : ∀ {p n}, s.pages p = some n → p ≠ s.rootPage →
    max 1 ((L.btreeOrder + 1) / 2 - 1) ≤ n.size
  depth : ∃ d, ∀ {p n}, s.pages p = some n → n.isLeaf = true →
    ∀ d', s.UnderAt d' s.rootPage p ↔ d' = d
  sorted : ∀ {p n}, s.pages p = some n → n.liveKeys.Pairwise (· < ·)
  range : ∀ {p n front e back}, s.pages p = some n → n.isLeaf = false →
    n.entries = front ++ e :: back → ∀ {d q m}, s.UnderAt d e.2.pageNo q → s.pages q = some m →
      ∀ k ∈ m.liveKeys, (front ≠ [] → e.1 ≤ k) ∧ ∀ e' ∈ back.head?, k < e'.1
  parent : ∀ {p n e}, s.pages p = some n → n.isLeaf = false → e ∈ n.entries →
    ∃ c, s.pages e.2.pageNo = some c ∧ c.parent = p
  leaves : ∃ ls, s.LeafRing ls ∧ ((s.pairs ls).map Prod.fst).Pairwise (· < ·) ∧
    ∀ k r, (k, r) ∈ s.pairs ls ↔ m k = some r

end IxFile

/-- The indexes that calls of `insert_entry` that return and calls of `delete_entry` for keys that
are there build, each with the map that the same insertions and deletions build. -/
inductive MapRun [LinearOrder κ] (L : IxLayout κ) : IxFile κ → (κ → Option Rid) → Prop where
  | create : MapRun L (IxFile.create κ) fun _ => none
  | insert {s s' : IxFile κ} {m : κ → Option Rid} {key : κ} {value : Rid} (h : MapRun L s m)
      (hrun : IxFile.insertEntry L s key value = .returned s') :
      MapRun L s' (Function.update m key (some value))
  | delete {s s' : IxFile κ} {m : κ → Option Rid} {key : κ} (h : MapRun L s m)
      (hkey : m key ≠ none) (hrun : IxFile.deleteEntry L s key = some s') :
      MapRun L s' (Function.update m key none)

section Levels

variable {s : IxFile κ} {d : Nat} {p q : PageNo} {n : IxNode κ} {e : κ × Rid}

theorem IxFile.UnderAt.snoc (h : s.UnderAt d p q) (hq : s.pages q = some n) (hn : n.isLeaf = false)
    (he : e ∈ n.entries) : s.UnderAt (d + 1) p e.2.pageNo := by
  induction h with
  | refl p => exact .child hq hn he (.refl _)
  | child hp hinner hmem _ ih => exact .child hp hinner hmem (ih hq)

variable [LinearOrder κ] {g : Labels PageNo κ}

/-- The level and the key range of a page below another. -/
theorem IxFile.UnderAt.label (h : s.UnderAt d p q) (hshape : TreeShape s.rootPage s.tree g) :
    g.height q + d = g.height p ∧ g.lo p ≤ g.lo q ∧ g.hi q ≤ g.hi p := by
  induction h with
  | refl p => exact ⟨rfl, le_rfl, le_rfl⟩
  | @child d p q n e hp hn he _ ih =>
    obtain ⟨htiles, hheight, -⟩ := IxFile.fits_inner hshape hp hn
    obtain ⟨hlo, -, hhi⟩ := htiles.mem_bounds (List.mem_map_of_mem he)
    have hstep := hheight e he
    exact ⟨by omega, hlo.trans ih.2.1, ih.2.2.trans hhi⟩

/-- The keys that a search compares with in a page lie in its range and ascend. -/
theorem IxFile.liveKeys_within (hshape : TreeShape s.rootPage s.tree g) (hp : s.pages p = some n) :
    Within (g.lo p) n.liveKeys (g.hi p) := by
  cases hn : n.isLeaf with
  | true =>
    have hwithin := (IxFile.fits_leaf hshape hp hn).2
    simpa [IxNode.liveKeys, IxNode.firstKey, hn] using hwithin
  | false =>
    obtain ⟨htiles, -, hsep⟩ := IxFile.fits_inner hshape hp hn
    have htail : n.liveKeys = n.entries.tail.map Prod.fst := by
      simp [IxNode.liveKeys, IxNode.firstKey, hn]
    have hkey : ∀ k ∈ n.liveKeys, ∃ c ∈ n.entries.map fun e => e.2.pageNo,
        g.lo c = Bound.at k := by
      intro k hk
      rw [htail] at hk
      obtain ⟨e, he, rfl⟩ := List.mem_map.mp hk
      exact ⟨_, List.mem_map_of_mem (List.mem_of_mem_tail he), hsep e he⟩
    refine ⟨?_, fun k hk => ?_, fun k hk => ?_⟩
    · have hpair := htiles.pairwise.sublist (List.tail_sublist _)
      rw [← List.map_tail, List.pairwise_map] at hpair
      rw [htail, List.pairwise_map]
      refine hpair.imp_of_mem fun {x y} hx hy hlt => ?_
      rwa [hsep x hx, hsep y hy, Bound.at_lt_at] at hlt
    · obtain ⟨c, hc, hlo⟩ := hkey k hk
      rw [← hlo]
      exact (htiles.mem_bounds hc).1
    · obtain ⟨c, hc, hlo⟩ := hkey k hk
      rw [← hlo]
      exact (htiles.mem_bounds hc).2.1.trans_le (htiles.mem_bounds hc).2.2

end Levels

namespace Indexed

variable [LinearOrder κ] {L : IxLayout κ} {s : IxFile κ} {g : Labels PageNo κ} {ls : List PageNo}
  {full thin p : PageNo} {n : IxNode κ}

/-- Every page is below the root, as far as its height says. -/
theorem under_root (h : Indexed L s g ls full thin) (hp : s.pages p = some n) :
    s.UnderAt (g.height s.rootPage - g.height p) s.rootPage p := by
  induction hd : g.height s.rootPage - g.height p generalizing p n with
  | zero =>
    have hroot : p = s.rootPage := by
      by_contra hne
      obtain ⟨m, hm⟩ := h.parent_there hp hne
      have hup := h.height_parent hp hne
      have hle := h.height_le_root hm
      omega
    rw [hroot]
    exact .refl _
  | succ d ih =>
    have hne : p ≠ s.rootPage := by
      rintro rfl
      omega
    obtain ⟨v, hv, hkid⟩ := h.tree.shape.up (IxFile.tree_of_pages hp) hne
    rw [IxNode.view_parent] at hv
    obtain ⟨m, hm, rfl⟩ := IxFile.tree_eq_some.mp hv
    have hup := h.height_parent hp hne
    cases hl : m.isLeaf with
    | true => simp [IxNode.view_kids_leaf hl] at hkid
    | false =>
      rw [IxNode.view_kids hl] at hkid
      obtain ⟨e, he, rfl⟩ := List.mem_map.mp hkid
      exact (ih hm (by omega)).snoc hm hl he

theorem depth (h : Indexed L s g ls full thin) (hp : s.pages p = some n) (hl : n.isLeaf = true)
    (d : Nat) : s.UnderAt d s.rootPage p ↔ d = g.height s.rootPage := by
  have hzero := (IxFile.fits_leaf h.tree.shape hp hl).1
  constructor
  · intro hbelow
    have := (hbelow.label h.tree.shape).1
    omega
  · rintro rfl
    have hbelow := h.under_root hp
    rwa [hzero, Nat.sub_zero] at hbelow

/-- The keys below a child lie between the separators around it. -/
theorem child_range {front back : List (κ × Rid)} {e : κ × Rid} {d : Nat} {q : PageNo}
    {m : IxNode κ} {k : κ} (h : Indexed L s g ls full thin) (hp : s.pages p = some n)
    (hn : n.isLeaf = false) (hes : n.entries = front ++ e :: back)
    (hbelow : s.UnderAt d e.2.pageNo q) (hq : s.pages q = some m) (hk : k ∈ m.liveKeys) :
    (front ≠ [] → e.1 ≤ k) ∧ ∀ e' ∈ back.head?, k < e'.1 := by
  obtain ⟨htiles, -, hsep⟩ := IxFile.fits_inner h.tree.shape hp hn
  obtain ⟨-, hlo, hhi⟩ := hbelow.label h.tree.shape
  have hwithin := IxFile.liveKeys_within h.tree.shape hq
  constructor
  · intro hfront
    have hmem : e ∈ n.entries.tail := by
      rw [hes, List.tail_append_of_ne_nil hfront]
      simp
    rw [← Bound.at_le_at, ← hsep e hmem]
    exact hlo.trans (hwithin.ge k hk)
  · intro e' he'
    obtain ⟨back', rfl⟩ : ∃ back', back = e' :: back' := List.head?_eq_some_iff.mp he'
    have hmem : e' ∈ n.entries.tail := by
      rw [hes]
      cases front <;> simp
    rw [hes, List.map_append, List.map_cons, List.map_cons] at htiles
    rw [← Bound.at_lt_at, ← hsep e' hmem]
    exact (hwithin.lt k hk).trans_le (hhi.trans (htiles.le_back List.mem_cons_self))

end Indexed

namespace BTree

variable {s : IxFile κ} {p q a b : PageNo}

/-- Two leaves that name each other in the chain do so in their pages. -/
theorem neighbours (hp : linksOf s.tree p = some (a, q)) (hq : linksOf s.tree q = some (p, b)) :
    s.Neighbours p q := by
  have hleaf : ∀ {x y z : PageNo}, linksOf s.tree x = some (y, z) →
      ∃ n, s.pages x = some n ∧ n.prevLeaf = y ∧ n.nextLeaf = z := by
    intro x y z hx
    obtain ⟨v, hv, hlinks⟩ := Option.bind_eq_some_iff.mp hx
    obtain ⟨n, hn, rfl⟩ := IxFile.tree_eq_some.mp hv
    refine ⟨n, hn, ?_⟩
    cases hl : n.isLeaf with
    | true => simpa [IxNode.view_leaf hl, PNode.links] using hlinks
    | false => simp [IxNode.view_inner hl, PNode.links] at hlinks
  obtain ⟨n, hn, -, hnext⟩ := hleaf hp
  obtain ⟨m, hm, hprev, -⟩ := hleaf hq
  exact ⟨n, m, hn, hm, hnext, hprev⟩

theorem leafRing [LinearOrder κ] {g : Labels PageNo κ} {ls : List PageNo} (h : BTree s g ls) : s.LeafRing ls := by
  have hchain : ls.IsChain s.Neighbours := by
    rw [List.isChain_iff_forall_rel_of_append_cons_cons]
    rintro p q front back rfl
    obtain ⟨a, b, hp, hq⟩ := h.chain.next_eq
    exact neighbours hp hq
  -- behind the last leaf the range of the first one starts again
  have hwrap : s.Neighbours s.lastLeaf s.firstLeaf := by
    obtain ⟨⟨a, b⟩, hlast⟩ := h.chain.leaves.mp h.chain.last_mem
    obtain ⟨hlo, b', hb⟩ := h.chain.next hlast
    rw [h.chain.last_hi, around, if_pos rfl, ← h.chain.first_lo] at hlo
    have heq : b = s.firstLeaf :=
      h.chain.tiles.lo_inj (h.chain.leaves.mpr ⟨_, hb⟩) h.chain.first_mem hlo
    rw [heq] at hlast hb
    exact neighbours hlast hb
  have hfirst : ∀ p ∈ ls.head?, s.firstLeaf = p := by
    intro p hp
    obtain ⟨back, rfl⟩ := List.head?_eq_some_iff.mp hp
    exact h.chain.head_eq
  have hlast : ∀ p ∈ ls.getLast?, s.lastLeaf = p := by
    intro p hp
    obtain ⟨front, rfl⟩ := List.getLast?_eq_some_iff.mp hp
    exact h.chain.last_eq
  refine ⟨h.mem_leaves, h.chain.tiles.nodup, hfirst, hlast, ?_⟩
  refine List.isChain_append.mpr ⟨hchain, ?_, fun x hx y hy => ?_⟩
  · cases ls <;> simp
  · have hy' : y ∈ ls.head? := by
      cases ls with
      | nil => simp at hy
      | cons z ls => simpa [eq_comm] using hy
    rw [← hlast x hx, ← hfirst y hy']
    exact hwrap

end BTree

section MapTree

variable [LinearOrder κ] {L : IxLayout κ} {s s' : IxFile κ} {m : κ → Option Rid}

/-- The invariant in terms of the pages and of what is stored. -/
theorem Indexed.isMapTree {g : Labels PageNo κ} {ls : List PageNo}
    (h : Indexed L s g ls IX_NO_PAGE IX_NO_PAGE)
    (hstores : ∀ k r, Stores s.tree k r ↔ m k = some r) : s.IsMapTree L m where
  le_order hp := h.node_le hp
  peak_le := h.peak
  min_le {p n} hp hne := by
    have hnot : p ≠ IX_NO_PAGE := by
      rintro rfl
      have := IxFile.tree_of_pages hp
      rw [h.noPage] at this
      cases this
    have hge := h.ge (IxFile.tree_of_pages hp) hnot hne
    rw [IxNode.view_size, IxLayout.minSize] at hge
    omega
  depth := ⟨_, fun hp hl d' => h.depth hp hl d'⟩
  sorted hp := (IxFile.liveKeys_within h.tree.shape hp).sorted
  range := by
    intro p n front e back hp hn hes d q m' hbelow hq k hk
    exact h.child_range hp hn hes hbelow hq hk
  parent {p n e} hp hn he := by
    have hkid : e.2.pageNo ∈ n.view.kids := by
      rw [IxNode.view_kids hn]
      exact List.mem_map_of_mem he
    obtain ⟨v, hv, hparent⟩ := h.tree.shape.down (IxFile.tree_of_pages hp) hkid
    obtain ⟨c, hc, rfl⟩ := IxFile.tree_eq_some.mp hv
    rw [IxNode.view_parent] at hparent
    exact ⟨c, hc, hparent⟩
  leaves := by
    refine ⟨ls, h.bTree.leafRing, h.bTree.pairs_sorted, fun k r => ?_⟩
    rw [h.bTree.mem_pairs, hstores]

theorem Emptied.isMapTree (h : Emptied L s) (hnone : ∀ k, m k = none) : s.IsMapTree L m := by
  have hpages : ∀ {p n}, s.pages p ≠ some n := by
    intro p n hp
    rw [h.pages] at hp
    cases hp
  refine ⟨fun hp => absurd hp hpages, h.peak, fun hp => absurd hp hpages,
    ⟨0, fun hp => absurd hp hpages⟩, fun hp => absurd hp hpages, fun hp => absurd hp hpages,
    fun hp => absurd hp hpages, [], ⟨?_, List.nodup_nil, by simp, by simp, by simp⟩, ?_, ?_⟩
  · intro p
    simp [h.pages]
  · simp [IxFile.pairs]
  · intro k r
    simp [IxFile.pairs, hnone]

theorem IsIndex.isMapTree (h : IsIndex L s) (hstores : ∀ k r, Stores s.tree k r ↔ m k = some r) :
    s.IsMapTree L m := by
  rcases h with h | ⟨g, ls, h⟩
  · refine h.isMapTree fun k => Option.eq_none_iff_forall_ne_some.mpr fun r hr => ?_
    exact h.stores ((hstores k r).mpr hr)
  · exact h.isMapTree hstores

/-- A call of `delete_entry` for a key that is there returns. -/
theorem IsIndex.deleteEntry_returns {key : κ} {r : Rid} (h : IsIndex L s)
    (hstored : Stores s.tree key r) : ∃ s', IxFile.deleteEntry L s key = some s' := by
  rcases h with h | ⟨g, ls, h⟩
  · exact absurd hstored h.stores
  · obtain ⟨p, n, front, back, c⟩ := h.exists_leafCut key
    obtain ⟨rest, rfl⟩ := (c.stores_iff h).mp hstored
    obtain ⟨s', hrun, -⟩ := h.deleteEntry_found c rfl
    exact ⟨s', hrun⟩

/-- What a run keeps: the index is one, and it stores the pairs of the map. -/
theorem MapRun.isIndex (h : MapRun L s m) :
    IsIndex L s ∧ ∀ k r, Stores s.tree k r ↔ m k = some r := by
  induction h with
  | create =>
    have hempty := IxFile.create_emptied L
    exact ⟨.inl hempty, fun k r => ⟨fun hs => absurd hs hempty.stores, fun hm => by cases hm⟩⟩
  | @insert s s' m key value _ hrun ih =>
    obtain ⟨hindex, hmap⟩ := ih
    obtain ⟨hindex', hstores⟩ := hindex.insertEntry hrun
    refine ⟨hindex', fun k r => ?_⟩
    rw [hstores, hmap]
    by_cases hk : k = key
    · subst hk
      have hfresh : m k = none := by
        refine Option.eq_none_iff_forall_ne_some.mpr fun r' hr' => ?_
        have hthrow := @IsIndex.insertEntry_stored κ _ L s k value r' hindex ((hmap k r').mpr hr')
        cases hrun.symm.trans hthrow
      simp [hfresh, eq_comm]
    · simp [hk]
  | @delete s s' m key _ _ hrun ih =>
    obtain ⟨hindex, hmap⟩ := ih
    obtain ⟨hindex', hstores⟩ := hindex.deleteEntry hrun
    refine ⟨hindex', fun k r => ?_⟩
    rw [hstores, hmap]
    by_cases hk : k = key
    · subst hk
      simp
    · simp [hk]

end MapTree

/-- After any such calls the pages are a B+ tree of the map, no page ever ran over its end, and the
next deletion of a key that is there returns. -/
theorem mapRun_isMapTree {cols : List IxCol} (hcols : colTotLen cols ≤ IX_MAX_COL_LEN)
    {s : IxFile (IxKey cols)} {m : IxKey cols → Option Rid}
    (h : MapRun (IxLayout.ofCols cols hcols) s m) :
    s.IsMapTree (IxLayout.ofCols cols hcols) m ∧
      IX_PAGE_HDR_SIZE + s.peak * (colTotLen cols + RID_SIZE) ≤ PAGE_SIZE ∧
      ∀ key, m key ≠ none →
        ∃ s', IxFile.deleteEntry (IxLayout.ofCols cols hcols) s key = some s' := by
  obtain ⟨hindex, hstores⟩ := h.isIndex
  have htree := hindex.isMapTree hstores
  refine ⟨htree, ?_, fun key hkey => ?_⟩
  · have hpeak : s.peak ≤ createOrder (colTotLen cols) + 1 := htree.peak_le
    have hmul := Nat.mul_le_mul_right (colTotLen cols + RID_SIZE) hpeak
    have hfits := createOrder_fits hcols
    omega
  · obtain ⟨r, hr⟩ := Option.ne_none_iff_exists'.mp hkey
    exact hindex.deleteEntry_returns ((hstores key r).mpr hr)

theorem MapRun.insertAll [LinearOrder κ] {L : IxLayout κ} {s s' : IxFile κ} {m : κ → Option Rid}
    {es : List (κ × Rid)} (h : MapRun L s m) (hrun : s.insertAll L es = some s') :
    ∃ m', MapRun L s' m' := by
  induction es generalizing s m with
  | nil =>
    cases hrun
    exact ⟨m, h⟩
  | cons e es ih =>
    simp only [IxFile.insertAll] at hrun
    split at hrun
    next s₁ hone => exact ih (h.insert hone) hrun
    · cases hrun

/-- Nine keys are inserted, which splits a leaf, and one is deleted. -/
theorem mapRun_isMapTree_spread :
    ∃ s m root, MapRun wideLayout s m ∧ s.pages s.rootPage = some root ∧ root.isLeaf = false ∧
      m (wideKey 5 0) = some ⟨1, 0⟩ ∧ m (wideKey 9 0) = none ∧
      (s.IsMapTree wideLayout m ∧
        IX_PAGE_HDR_SIZE + s.peak * (colTotLen [.int, .char 508] + RID_SIZE) ≤ PAGE_SIZE ∧
        ∀ key, m key ≠ none → ∃ s', IxFile.deleteEntry wideLayout s key = some s') := by
  have hrun : ((IxFile.insertAll wideLayout (IxFile.create _) spreadEntries).any fun s =>
      (IxFile.deleteEntry wideLayout s (wideKey 9 0)).any fun s' =>
        (s'.pages s'.rootPage).any fun root => !root.isLeaf) = true := by decide +kernel
  obtain ⟨s, hs, hrun⟩ := (Option.any_eq_true _ _).mp hrun
  obtain ⟨s', hs', hrun⟩ := (Option.any_eq_true _ _).mp hrun
  obtain ⟨root, hroot, hinner⟩ := (Option.any_eq_true _ _).mp hrun
  obtain ⟨m, hmap⟩ := MapRun.insertAll .create hs
  have hstores := (IsIndex.insertAll (.inl (IxFile.create_emptied wideLayout)) hs).2
  have there : ∀ {k r}, (k, r) ∈ spreadEntries → m k = some r := fun hmem =>
    (hmap.isIndex.2 _ _).mp ((hstores _ _).mpr (.inr hmem))
  have hfive : m (wideKey 5 0) = some ⟨1, 0⟩ := there (by simp [spreadEntries])
  have hnine : m (wideKey 9 0) = some ⟨1, 1⟩ := there (by simp [spreadEntries])
  have hdeleted := hmap.delete (by simp [hnine]) hs'
  refine ⟨s', _, root, hdeleted, hroot, by simpa using hinner, ?_, by simp,
    mapRun_isMapTree (by decide) hdeleted⟩
  have hne : wideKey 5 0 ≠ wideKey 9 0 := by decide
  exact (Function.update_of_ne hne _ _).trans hfive

/-- Seven negative keys, one more than a leaf holds. -/
def negativeEntries : List (IxKey [.int, .char 508] × Rid) :=
  [(wideKey 249 255, ⟨1, 0⟩), (wideKey 250 255, ⟨1, 1⟩), (wideKey 251 255, ⟨1, 2⟩),
    (wideKey 252 255, ⟨1, 3⟩), (wideKey 253 255, ⟨1, 4⟩), (wideKey 254 255, ⟨1, 5⟩),
    (wideKey 255 255, ⟨1, 6⟩)]

/-- Slot 0 of the new root keeps the zero key: it is greater than the separator in slot 1 and than
all keys of its child. -/
theorem mapRun_slotZero :
    ∃ s m n e c, MapRun (IxLayout.ofCols [.int, .char 508] (by decide)) s m ∧
      s.pages s.rootPage = some n ∧ n.isLeaf = false ∧ n.entries.head? = some e ∧
      s.pages e.2.pageNo = some c ∧ ¬ (n.entries.map Prod.fst).Pairwise (· < ·) ∧
      c.entries ≠ [] ∧ ∀ x ∈ c.entries, x.1 < e.1 := by
  have hrun : ((IxFile.insertAll (IxLayout.ofCols [.int, .char 508] (by decide)) (IxFile.create _)
      negativeEntries).any fun s => (s.pages s.rootPage).any fun n => n.entries.head?.any fun e =>
        (s.pages e.2.pageNo).any fun c =>
          decide (n.isLeaf = false ∧ ¬ (n.entries.map Prod.fst).Pairwise (· < ·) ∧
            c.entries ≠ [] ∧ ∀ x ∈ c.entries, x.1 < e.1)) = true := by decide +kernel
  obtain ⟨s, hfill, hrun⟩ := (Option.any_eq_true _ _).mp hrun
  obtain ⟨n, hroot, hrun⟩ := (Option.any_eq_true _ _).mp hrun
  obtain ⟨e, hhead, hrun⟩ := (Option.any_eq_true _ _).mp hrun
  obtain ⟨c, hchild, hrun⟩ := (Option.any_eq_true _ _).mp hrun
  obtain ⟨hleaf, hkeys, hne, hbelow⟩ := of_decide_eq_true hrun
  have hempty : MapRun (IxLayout.ofCols [.int, .char 508] (by decide)) (IxFile.create _)
    fun _ => none := .create
  obtain ⟨m, hmap⟩ := hempty.insertAll hfill
  exact ⟨s, m, n, e, c, hmap, hroot, hleaf, hhead, hchild, hkeys, hne, hbelow⟩

end Grmdb
