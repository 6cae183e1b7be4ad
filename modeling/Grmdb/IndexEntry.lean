import Grmdb.IndexInsert
import Grmdb.IndexDelete

namespace Grmdb

open PagedTree Tiling

variable {κ : Type} [LinearOrder κ]

/-- The leaf that `find_leaf_page` reaches, its pairs cut at the key. -/
structure LeafCut (L : IxLayout κ) (s : IxFile κ) (g : Labels PageNo κ) (key : κ) (p : PageNo)
    (n : IxNode κ) (front back : List (κ × Rid)) : Prop where
  find : s.findLeafPage L key = some p
  page : s.pages p = some n
  isLeaf : n.isLeaf = true
  lo : g.lo p ≤ Bound.at key
  hi : Bound.at key < g.hi p
  entries : n.entries = front ++ back
  below : ∀ x ∈ front, x.1 < key
  above : ∀ x ∈ back, key ≤ x.1

namespace Indexed

variable {L : IxLayout κ} {s : IxFile κ} {g : Labels PageNo κ} {ls : List PageNo}
  {full thin p q : PageNo} {n : IxNode κ} {key : κ}

theorem exists_leafCut (h : Indexed L s g ls full IX_NO_PAGE) (key : κ) :
    ∃ p n front back, LeafCut L s g key p n front back := by
  obtain ⟨p, n, hfind, hp, hl, hlo, hhi⟩ := h.bTree.findLeafPage L key
  obtain ⟨front', back', hks, hf, hb⟩ := (IxFile.fits_leaf h.tree.shape hp hl).2.split key
  obtain ⟨front, back, hes, rfl, rfl⟩ := List.map_eq_append_iff.mp hks
  refine ⟨p, n, front, back, hfind, hp, hl, hlo, hhi, hes, ?_, ?_⟩
  · intro x hx
    exact hf x.1 (List.mem_map_of_mem hx)
  · intro x hx
    exact hb x.1 (List.mem_map_of_mem hx)

/-- Two pages that store one key are the same. -/
theorem page_eq {v w : PNode PageNo κ Rid} {k : κ} {r r' : Rid} (h : Indexed L s g ls full thin)
    (hp : s.tree p = some v) (hq : s.tree q = some w) (hv : (k, r) ∈ v.entries)
    (hw : (k, r') ∈ w.entries) : p = q := by
  have hleaf : ∀ {x : PageNo} {u : PNode PageNo κ Rid} {r : Rid}, s.tree x = some u →
      (k, r) ∈ u.entries → x ∈ ls := by
    intro x u r hx hu
    cases u with
    | leaf par a b es => exact h.tree.mem_ls hx
    | inner par kids => cases hu
  obtain ⟨hlo, hhi⟩ := (h.tree.shape.fits hp).mem_range hv
  obtain ⟨hlo', hhi'⟩ := (h.tree.shape.fits hq).mem_range hw
  exact h.tree.chain.tiles.unique (hleaf hp hv) (hleaf hq hw) hlo hhi hlo' hhi'

/-- What the index stores once the leaf `p` holds the pairs `es`. -/
theorem stores_writeLeaf {m : IxNode κ} {k : κ} {r : Rid} (h : Indexed L s g ls full thin)
    (hp : s.pages p = some n) (hl : n.isLeaf = true) (hm : m.isLeaf = true) :
    Stores (s.write p m).tree k r ↔
      (k, r) ∈ m.entries ∨ Stores s.tree k r ∧ (k, r) ∉ n.entries := by
  have ht := IxFile.tree_of_pages hp
  rw [IxNode.view_leaf hl] at ht
  rw [IxFile.tree_write, IxNode.view_leaf hm]
  constructor
  · rintro ⟨x, v, hx, hv⟩
    by_cases hxp : x = p
    · rw [hxp, Function.update_self] at hx
      cases Option.some.inj hx
      exact .inl hv
    · rw [Function.update_of_ne hxp] at hx
      exact .inr ⟨⟨x, v, hx, hv⟩, fun hr => hxp (h.page_eq hx ht hv hr)⟩
  · rintro (hmem | ⟨⟨x, v, hx, hv⟩, hnot⟩)
    · exact ⟨p, _, Function.update_self .., hmem⟩
    · refine ⟨x, v, ?_, hv⟩
      rw [Function.update_of_ne, hx]
      rintro rfl
      rw [ht] at hx
      cases Option.some.inj hx
      exact hnot hv

end Indexed

namespace LeafCut

variable {L : IxLayout κ} {s : IxFile κ} {g : Labels PageNo κ} {ls : List PageNo} {full thin : PageNo}
  {key : κ} {p : PageNo} {n : IxNode κ} {front back rest : List (κ × Rid)} {e : κ × Rid}

theorem height (c : LeafCut L s g key p n front back) (h : Indexed L s g ls full thin) :
    g.height p = 0 :=
  (IxFile.fits_leaf h.tree.shape c.page c.isLeaf).1

theorem sorted (c : LeafCut L s g key p n front back) (h : Indexed L s g ls full thin) :
    Within (g.lo p) ((front ++ back).map Prod.fst) (g.hi p) := by
  rw [← c.entries]
  exact (IxFile.fits_leaf h.tree.shape c.page c.isLeaf).2

theorem size_pos (c : LeafCut L s g key p n front back) (h : Indexed L s g ls full IX_NO_PAGE) :
    0 < n.size :=
  List.length_pos_iff.mpr (h.bTree.leaf c.page c.isLeaf)

theorem lowerBound (c : LeafCut L s g key p n front back)
    (h : Indexed L s g ls full IX_NO_PAGE) :
    n.lowerBound L key = if back = [] then none else some front.length := by
  have hfirst : n.firstKey = 0 := by simp [IxNode.firstKey, c.isLeaf]
  refine IxNode.lowerBound_eq L c.entries (by simp [hfirst]) ?_ ?_ c.above
  · rw [hfirst]
    exact c.size_pos h
  · intro x hx
    exact c.below x (List.mem_of_mem_drop hx)

/-- The keys behind the first one that is not below the key. -/
theorem above_tail (c : LeafCut L s g key p n front (e :: rest)) (h : Indexed L s g ls full thin)
    {x : κ × Rid} (hx : x ∈ rest) : e.1 < x.1 := by
  have hsorted := (c.sorted h).sorted
  rw [List.map_append, List.map_cons, List.pairwise_append] at hsorted
  exact (List.pairwise_cons.mp hsorted.2.1).1 x.1 (List.mem_map_of_mem hx)

/-- Behind a key that is absent there are greater keys only. -/
theorem above_lt (c : LeafCut L s g key p n front back) (h : Indexed L s g ls full thin)
    (hnone : ¬ ∃ e rest, back = e :: rest ∧ e.1 = key) {x : κ × Rid} (hx : x ∈ back) :
    key < x.1 := by
  refine (c.above x hx).lt_of_ne fun heq => ?_
  cases back with
  | nil => cases hx
  | cons e rest =>
    rcases List.mem_cons.mp hx with rfl | hx
    · exact hnone ⟨x, rest, rfl, heq.symm⟩
    · have := (c.above e List.mem_cons_self).trans_lt (c.above_tail h hx)
      exact absurd heq this.ne

/-- The key is stored when the first pair not below it has it. -/
theorem stores_iff (c : LeafCut L s g key p n front back) (h : Indexed L s g ls full thin) {r : Rid} :
    Stores s.tree key r ↔ ∃ rest, back = (key, r) :: rest := by
  have ht := IxFile.tree_of_pages c.page
  rw [IxNode.view_leaf c.isLeaf] at ht
  constructor
  · rintro ⟨x, v, hx, hv⟩
    have hleaf : x ∈ ls ∧ p ∈ ls := by
      refine ⟨?_, h.tree.mem_ls ht⟩
      cases v with
      | leaf par a b es => exact h.tree.mem_ls hx
      | inner par kids => cases hv
    obtain ⟨hlo, hhi⟩ := (h.tree.shape.fits hx).mem_range hv
    have hxp := h.tree.chain.tiles.unique hleaf.1 hleaf.2 hlo hhi c.lo c.hi
    subst hxp
    cases Option.some.inj (ht.symm.trans hx)
    rw [PNode.entries, c.entries] at hv
    rcases List.mem_append.mp hv with hv | hv
    · exact absurd (c.below _ hv) (lt_irrefl _)
    · cases back with
      | nil => cases hv
      | cons e rest =>
        rcases List.mem_cons.mp hv with rfl | hv
        · exact ⟨rest, rfl⟩
        · have hge := c.above e List.mem_cons_self
          exact absurd (c.above_tail h hv) (not_lt.mpr hge)
  · rintro ⟨rest, rfl⟩
    refine ⟨p, _, ht, ?_⟩
    rw [PNode.entries, c.entries]
    simp

end LeafCut

namespace Indexed

variable {L : IxLayout κ} {s : IxFile κ} {g : Labels PageNo κ} {ls : List PageNo}
  {full thin p : PageNo} {n : IxNode κ} {key : κ} {value : Rid} {front back rest : List (κ × Rid)}
  {e : κ × Rid}

/-- The leaf of page `p` with other pairs of its range. -/
theorem writeLeaf {es ds : List (κ × Rid)} (h : Indexed L s g ls IX_NO_PAGE IX_NO_PAGE)
    (hp : s.pages p = some n) (hl : n.isLeaf = true)
    (hes : Within (g.lo p) (es.map Prod.fst) (g.hi p))
    (hle : es.length ≤ L.btreeOrder ∨ p = full ∧ es.length ≤ L.btreeOrder + 1)
    (hge : p = thin ∨ n.size ≤ es.length) :
    Indexed L (s.write p { n with entries := es, dead := ds }) g ls full thin := by
  have ht := IxFile.tree_of_pages hp
  have hview : IxNode.view { n with entries := es, dead := ds } =
      .leaf n.parent n.prevLeaf n.nextLeaf es := IxNode.view_leaf_slots hl es ds
  have htree : (s.write p { n with entries := es, dead := ds }).tree =
      Function.update s.tree p (some (.leaf n.parent n.prevLeaf n.nextLeaf es)) := by
    rw [IxFile.tree_write, hview]
  rw [IxNode.view_leaf hl] at ht
  have hchain := h.tree.replaceLeaf ht hes
  rw [← htree] at hchain
  have hlen : es.length ≤ L.btreeOrder + 1 := by omega
  refine h.rebuild rfl le_rfl (max_le h.peak hlen) hchain fun {x v'} hx => ?_
  have hnot : x ≠ IX_NO_PAGE := by
    rintro rfl
    rw [htree, Function.update_of_ne, h.noPage] at hx
    · cases hx
    · intro heq
      rw [← heq, h.noPage] at ht
      cases ht
  rw [htree] at hx
  by_cases hxp : x = p
  · subst hxp
    rw [Function.update_self] at hx
    cases Option.some.inj hx
    refine ⟨_, ht, hle, .inr ⟨hnot, hge, fun _ => ⟨rfl, rfl⟩⟩⟩
  · rw [Function.update_of_ne hxp] at hx
    exact ⟨v', hx, .inl (h.size_le hx), .inr ⟨hnot, .inr le_rfl, fun _ => ⟨rfl, rfl⟩⟩⟩

/-- The leaf without its pair behind `front` may be too thin. -/
theorem thinned (h : Indexed L s g ls IX_NO_PAGE IX_NO_PAGE)
    (c : LeafCut L s g key p n front (e :: rest)) :
    Indexed L (s.write p (n.erasePair front.length)) g ls IX_NO_PAGE p ∧
      (n.erasePair front.length).size + 1 = n.size ∧
      (p ≠ s.rootPage → L.minSize ≤ (n.erasePair front.length).size + 1) := by
  have herase := IxNode.erasePair_entries c.entries
  have hsub : (front ++ rest).Sublist (front ++ e :: rest) :=
    List.Sublist.append_left (List.sublist_cons_self e rest) front
  have hsize : n.size = front.length + (rest.length + 1) := by simp [IxNode.size, c.entries]
  have hsize₁ : (n.erasePair front.length).size + 1 = n.size := by
    simp only [IxNode.size, herase, c.entries, List.length_append, List.length_cons]
    omega
  have hle := h.node_le c.page
  have ht := IxFile.tree_of_pages c.page
  have hnot : p ≠ IX_NO_PAGE := by
    rintro rfl
    rw [h.noPage] at ht
    cases ht
  refine ⟨h.writeLeaf c.page c.isLeaf ?_ (.inl ?_) (.inl rfl), hsize₁, fun hr => ?_⟩
  · rw [show n.entries.eraseIdx front.length = front ++ rest from herase]
    exact (c.sorted h).sublist (hsub.map Prod.fst)
  · rw [show n.entries.eraseIdx front.length = front ++ rest from herase, List.length_append]
    omega
  · have := h.ge ht hnot hr
    rw [IxNode.view_size] at this
    omega

/-- What `delete_entry` does when the leaf holds the key. -/
theorem deleteEntry_found (h : Indexed L s g ls IX_NO_PAGE IX_NO_PAGE)
    (c : LeafCut L s g key p n front (e :: rest)) (he : e.1 = key) :
    ∃ s', IxFile.deleteEntry L s key = some s' ∧ (IsIndex L s' ∧ s'.EndsMeet) ∧
      ∀ k r, Stores s'.tree k r ↔ Stores s.tree k r ∧ k ≠ key := by
  subst he
  have herase := IxNode.erasePair_entries c.entries
  have hbound := c.lowerBound h
  rw [if_neg (List.cons_ne_nil e rest)] at hbound
  have hkey : n.getKey L front.length = e.1 := IxNode.getKey_eq L c.entries
  have hsub : (front ++ rest).Sublist (front ++ e :: rest) :=
    List.Sublist.append_left (List.sublist_cons_self e rest) front
  have hpos := c.size_pos h
  obtain ⟨hthin, hsize, hlow⟩ := h.thinned c
  have hwritten : (s.write p (n.erasePair front.length)).pages p =
      some (n.erasePair front.length) := by simp [IxFile.write]
  have ht := IxFile.tree_of_pages c.page
  have hleaf : (n.erasePair front.length).isLeaf = true := c.isLeaf
  have hleast : leastAtRoot (n.erasePair front.length).view ≤
      (n.erasePair front.length).size + 1 := by
    rw [IxNode.view_leaf hleaf, leastAtRoot]
    omega
  have hrank : g.height s.rootPage < g.height p + s.nextPageNo.toNat := by
    rw [c.height h, Nat.zero_add]
    exact h.bTree.height_lt
  obtain ⟨s', hrun, hindex, hstores⟩ := hthin.coalesceUp hwritten hlow (fun _ => hleast)
    (fun hl => by rw [hleaf] at hl; cases hl) hrank
  refine ⟨s', ?_, hindex, fun k r => ?_⟩
  · simp only [IxFile.deleteEntry, c.find, Option.bind_some, c.page, hbound, hkey, if_true]
    exact hrun
  · rw [hstores, h.stores_writeLeaf (m := n.erasePair front.length) c.page c.isLeaf c.isLeaf, herase, c.entries]
    constructor
    · rintro (hmem | ⟨hs, hnone⟩)
      · refine ⟨⟨p, n.view, ht, ?_⟩, ?_⟩
        · rw [IxNode.view_leaf c.isLeaf, PNode.entries, c.entries]
          exact hsub.subset hmem
        · rintro rfl
          rcases List.mem_append.mp hmem with hmem | hmem
          · exact absurd (c.below _ hmem) (lt_irrefl _)
          · exact absurd (c.above_tail h hmem) (lt_irrefl _)
      · refine ⟨hs, ?_⟩
        rintro rfl
        obtain ⟨rest', hback⟩ := (c.stores_iff h).mp hs
        have hpair := (List.cons.inj hback).1
        refine hnone ?_
        rw [← hpair]
        simp
    · rintro ⟨hs, hne⟩
      by_cases hmem : (k, r) ∈ front ++ rest
      · exact .inl hmem
      · refine .inr ⟨hs, fun hr => hmem ?_⟩
        simp only [List.mem_append, List.mem_cons] at hr ⊢
        rcases hr with hr | rfl | hr
        · exact .inl hr
        · exact absurd rfl hne
        · exact .inr hr

/-- What `delete_entry` does when the leaf holds a greater key in its place. -/
theorem deleteEntry_absent (h : Indexed L s g ls IX_NO_PAGE IX_NO_PAGE)
    (c : LeafCut L s g key p n front (e :: rest)) (he : e.1 ≠ key) :
    IxFile.deleteEntry L s key = some s := by
  have hbound := c.lowerBound h
  rw [if_neg (List.cons_ne_nil e rest)] at hbound
  have hkey : n.getKey L front.length = e.1 := IxNode.getKey_eq L c.entries
  simp only [IxFile.deleteEntry, c.find, Option.bind_some, c.page, hbound, hkey, if_neg he]

/-- `delete_entry` reads slot -1 when every key of the leaf is smaller. -/
theorem deleteEntry_below (h : Indexed L s g ls IX_NO_PAGE IX_NO_PAGE)
    (c : LeafCut L s g key p n front []) : IxFile.deleteEntry L s key = none := by
  have hbound := c.lowerBound h
  rw [if_pos rfl] at hbound
  simp only [IxFile.deleteEntry, c.find, Option.bind_some, c.page, hbound, Option.bind_none]

/-- Every `delete_entry` that does not read slot -1 keeps the invariant and takes out the key. -/
theorem deleteEntry (h : Indexed L s g ls IX_NO_PAGE IX_NO_PAGE) {s' : IxFile κ}
    (hrun : IxFile.deleteEntry L s key = some s') :
    (IsIndex L s' ∧ s'.EndsMeet) ∧ ∀ k r, Stores s'.tree k r ↔ Stores s.tree k r ∧ k ≠ key := by
  obtain ⟨p, n, front, back, c⟩ := h.exists_leafCut key
  cases back with
  | nil =>
    rw [h.deleteEntry_below c] at hrun
    cases hrun
  | cons e rest =>
    by_cases he : e.1 = key
    · obtain ⟨s₁, hrun₁, hindex, hstores⟩ := h.deleteEntry_found c he
      cases Option.some.inj (hrun.symm.trans hrun₁)
      exact ⟨hindex, hstores⟩
    · cases Option.some.inj (hrun.symm.trans (h.deleteEntry_absent c he))
      refine ⟨⟨.inr ⟨g, ls, h⟩, h.endsMeet⟩, fun k r => ⟨fun hs => ⟨hs, ?_⟩, And.left⟩⟩
      rintro rfl
      obtain ⟨rest', hback⟩ := (c.stores_iff h).mp hs
      exact he (by rw [(List.cons.inj hback).1])

/-- `insert_entry` of a key that the leaf holds. -/
theorem insertEntry_found (h : Indexed L s g ls IX_NO_PAGE IX_NO_PAGE)
    (c : LeafCut L s g key p n front (e :: rest)) (he : e.1 = key) :
    IxFile.insertEntry L s key value = .existsError s := by
  have hfirst : n.firstKey = 0 := by simp [IxNode.firstKey, c.isLeaf]
  have hinsert : n.insert L key value = none := by
    refine IxNode.insert_exists L c.entries (by simp [hfirst]) ?_ he ?_
    · intro x hx
      exact c.below x (List.mem_of_mem_drop hx)
    · intro x hx
      exact c.above x (List.mem_cons_of_mem e hx)
  simp only [IxFile.insertEntry, if_neg h.not_empty, c.find, c.page, hinsert]

theorem stores_inserted {ds : List (κ × Rid)} (h : Indexed L s g ls full thin)
    (c : LeafCut L s g key p n front back) (k : κ) (r : Rid) :
    Stores (s.write p { n with entries := front ++ (key, value) :: back, dead := ds }).tree k r ↔
      Stores s.tree k r ∨ k = key ∧ r = value := by
  have ht := IxFile.tree_of_pages c.page
  rw [h.stores_writeLeaf c.page c.isLeaf
    (m := { n with entries := front ++ (key, value) :: back, dead := ds }) c.isLeaf, c.entries]
  constructor
  · rintro (hmem | ⟨hs, -⟩)
    · simp only [List.mem_append, List.mem_cons, Prod.mk.injEq] at hmem
      rcases hmem with hmem | hmem | hmem
      · exact .inl ⟨p, n.view, ht, by
          rw [IxNode.view_leaf c.isLeaf, PNode.entries, c.entries]
          exact List.mem_append_left _ hmem⟩
      · exact .inr hmem
      · exact .inl ⟨p, n.view, ht, by
          rw [IxNode.view_leaf c.isLeaf, PNode.entries, c.entries]
          exact List.mem_append_right _ hmem⟩
    · exact .inl hs
  · rintro (hs | ⟨rfl, rfl⟩)
    · by_cases hmem : (k, r) ∈ front ++ back
      · refine .inl ?_
        simp only [List.mem_append, List.mem_cons] at hmem ⊢
        tauto
      · exact .inr ⟨hs, hmem⟩
    · exact .inl (by simp)

/-- `insert_entry` of another key: it fails when the key that a new root would get is the one whose
bytes are all zero. -/
theorem insertEntry_absent (value : Rid) (h : Indexed L s g ls IX_NO_PAGE IX_NO_PAGE)
    (c : LeafCut L s g key p n front back) (hnone : ∀ x ∈ back, key < x.1) :
    (IxFile.sentUp L s s.nextPageNo.toNat p key = some L.zeroKey →
      ∃ s', IxFile.insertEntry L s key value = .existsError s') ∧
    (IxFile.sentUp L s s.nextPageNo.toNat p key ≠ some L.zeroKey →
      ∃ s' g' ls', IxFile.insertEntry L s key value = .returned s' ∧
        Indexed L s' g' ls' IX_NO_PAGE IX_NO_PAGE ∧
        ∀ k r, Stores s'.tree k r ↔ Stores s.tree k r ∨ k = key ∧ r = value) := by
  have hfirst : n.firstKey = 0 := by simp [IxNode.firstKey, c.isLeaf]
  have hpos := c.size_pos h
  have hle := h.node_le c.page
  have hbelow : ∀ x ∈ front.drop n.firstKey, x.1 < key := fun x hx =>
    c.below x (List.mem_of_mem_drop hx)
  have hinsert : n.insert L key value = some { n with
      entries := front ++ (key, value) :: back, dead := n.dead.tail } :=
    IxNode.insert_eq L c.entries (by simp [hfirst]) (by omega) hbelow hnone
  have hwithin : Within (g.lo p) ((front ++ (key, value) :: back).map Prod.fst) (g.hi p) := by
    have hsorted := c.sorted h
    rw [List.map_append] at hsorted
    rw [List.map_append, List.map_cons]
    refine hsorted.insert ?_ ?_ c.lo c.hi
    · intro k hk
      obtain ⟨x, hx, rfl⟩ := List.mem_map.mp hk
      exact c.below x hx
    · intro k hk
      obtain ⟨x, hx, rfl⟩ := List.mem_map.mp hk
      exact hnone x hx
  have hlen : (front ++ (key, value) :: back).length = n.size + 1 := by
    simp only [IxNode.size, c.entries, List.length_append, List.length_cons]
    omega
  have hrank := h.bTree.height_lt
  obtain ⟨f, hf⟩ : ∃ f, s.nextPageNo.toNat = f + 1 := ⟨s.nextPageNo.toNat - 1, by omega⟩
  have hsent : IxFile.sentUp L s s.nextPageNo.toNat p key = if n.size < L.btreeOrder then none
      else if n.parent = IX_NO_PAGE then some (n.middle L key)
      else IxFile.sentUp L s f n.parent (n.middle L key) := by
    rw [hf, IxFile.sentUp, c.page, Option.bind_some]
  have hstores : ∀ k r, Stores (s.write p { n with
      entries := front ++ (key, value) :: back, dead := n.dead.tail }).tree k r ↔
        Stores s.tree k r ∨ k = key ∧ r = value := h.stores_inserted c
  by_cases hroom : n.size < L.btreeOrder
  · rw [hsent, if_pos hroom]
    refine ⟨(fun hz => by cases hz), fun _ => ⟨_, g, ls, ?_, ?_, hstores⟩⟩
    · simp only [IxFile.insertEntry, if_neg h.not_empty, c.find, c.page, hinsert]
      rw [if_neg (by omega)]
    · exact h.writeLeaf c.page c.isLeaf hwithin (.inl (by omega)) (.inr (by omega))
  · have hsize : n.size = L.btreeOrder := by omega
    have hfull : Indexed L (s.write p { n with
        entries := front ++ (key, value) :: back, dead := n.dead.tail }) g ls p IX_NO_PAGE :=
      h.writeLeaf c.page c.isLeaf hwithin (.inr ⟨rfl, by omega⟩) (.inr (by omega))
    generalize hm : ({ n with entries := front ++ (key, value) :: back, dead := n.dead.tail } :
      IxNode κ) = m at hinsert hstores hfull
    have hmes : m.entries = front ++ (key, value) :: back := by rw [← hm]
    have hmparent : m.parent = n.parent := by rw [← hm]
    have hmsize : m.size = L.btreeOrder + 1 := by
      rw [IxNode.size, hmes]
      omega
    have hmp : (s.write p m).pages p = some m := by simp [IxFile.write]
    obtain ⟨s₁, e, v₁, v₂, w, hs⟩ := hfull.exists_splitAt hmp hmsize
    obtain ⟨rn, hrn, -⟩ := hs.right
    -- after the first cut the rest is the ascent that `splitUp_spec` describes
    have hrun : IxFile.insertEntry L s key value =
        IxFile.splitUp L s₁.nextPageNo.toNat (s.write p m) p := by
      simp only [IxFile.insertEntry, if_neg h.not_empty, c.find, c.page, hinsert, if_pos hsize.ge,
        IxFile.splitUp, hs.run, hrn]
    have hnext : s.nextPageNo + 1 = s₁.nextPageNo := hs.nextPageNo.symm
    have hspec := hfull.splitUp_spec hmp hmsize hs.mid
      (show g.height s.rootPage < g.height p + s₁.nextPageNo.toNat by lia)
      (show g.height s.rootPage ≤ g.height p + f by omega)
    have hmiddle : n.middle L key = e.1 :=
      IxNode.middle_eq c.entries (by simp [hfirst]) hbelow hnone hmes hmsize hs.mid
    have hup : upward L (s.write p m) f m e.1 = IxFile.sentUp L s s.nextPageNo.toNat p key := by
      rw [hsent, if_neg hroom, upward, hmparent, hmiddle]
      split
      · rfl
      · next hparent =>
        have hr : p ≠ s.rootPage := by
          intro heq
          have := (h.parent_eq_noPage (IxFile.tree_of_pages c.page)).mpr heq
          rw [IxNode.view_parent] at this
          exact hparent this
        obtain ⟨pr, hpr⟩ := h.parent_there c.page hr
        have hheight := h.height_parent c.page hr
        have hsame : ∀ x mx, s.pages x = some mx → g.height p < g.height x →
            (s.write p m).pages x = some mx := by
          intro x mx hx hlt
          have hxp : x ≠ p := by
            rintro rfl
            omega
          simpa [IxFile.write, hxp] using hx
        exact h.sentUp_congr hsame hpr (by omega)
    rw [hup] at hspec
    rw [hrun]
    refine ⟨hspec.1, fun hz => ?_⟩
    obtain ⟨s', g', ls', hrun', hindexed, hstores'⟩ := hspec.2 hz
    exact ⟨s', g', ls', hrun', hindexed, fun k r => (hstores' k r).trans (hstores k r)⟩

end Indexed

namespace Emptied

variable {L : IxLayout κ} {s : IxFile κ} {key : κ}

theorem findLeafPage (h : Emptied L s) (key : κ) : s.findLeafPage L key = none := by
  rw [IxFile.findLeafPage]
  cases s.nextPageNo.toNat with
  | zero => rfl
  | succ fuel => simp [IxFile.findLeafLoop, h.pages]

/-- `delete_entry` on an index without entries follows the page number -1. -/
theorem deleteEntry (h : Emptied L s) : IxFile.deleteEntry L s key = none := by
  simp [IxFile.deleteEntry, h.findLeafPage]

/-- `insert_entry` plants a root that is the only leaf. -/
theorem insertEntry (h : Emptied L s) (key : κ) (value : Rid) :
    ∃ s' g' ls', IxFile.insertEntry L s key value = .returned s' ∧
    Indexed L s' g' ls' IX_NO_PAGE IX_NO_PAGE ∧
      ∀ k r, Stores s'.tree k r ↔ k = key ∧ r = value := by
  let root := s.nextPageNo
  have hnot : IX_NO_PAGE ≠ root := by
    have := h.nextPageNo
    simp only [IX_NO_PAGE, root]
    lia
  have hrun : ∃ s', IxFile.insertEntry L s key value = .returned s' ∧ s'.rootPage = root ∧
      s'.firstLeaf = root ∧ s'.lastLeaf = root ∧ s'.nextPageNo = root + 1 ∧
      s'.peak ≤ L.btreeOrder + 1 ∧ s'.tree = Function.update (fun _ => none) root
        (some (.leaf IX_NO_PAGE root root [(key, value)])) := by
    refine ⟨_, by simp only [IxFile.insertEntry, IxFile.isEmpty, h.rootPage, decide_true, if_true,
      IxFile.plantRoot]; rfl, rfl, rfl, rfl, rfl, ?_, ?_⟩
    · refine max_le h.peak ?_
      simp [IxNode.size, IxNode.insertAt, IxNode.fresh]
    · rw [IxFile.tree_write]
      funext x
      by_cases hx : x = root
      · subst hx
        rw [Function.update_self, Function.update_self]
        rfl
      · rw [Function.update_of_ne hx, Function.update_of_ne hx]
        have hcreate := congrFun (IxFile.tree_createNode s) x
        rw [Function.update_of_ne hx, IxFile.tree_eq_none.mpr (h.pages x)] at hcreate
        exact hcreate
  obtain ⟨s', hrun, hroot, hfirst, hlast, hnext, hpeak, htree⟩ := hrun
  have hsingle := @ChainedTree.single PageNo κ Rid _ _ root IX_NO_PAGE [(key, value)] hnot (by simp)
  rw [← htree] at hsingle
  have hone : ∀ {x v}, s'.tree x = some v → x = root ∧
      v = .leaf IX_NO_PAGE root root [(key, value)] := by
    intro x v hx
    rw [htree] at hx
    by_cases hxr : x = root
    · subst hxr
      rw [Function.update_self] at hx
      exact ⟨rfl, (Option.some.inj hx).symm⟩
    · rw [Function.update_of_ne hxr] at hx
      cases hx
  have horder := L.order_large
  refine ⟨s', _, _, hrun, ⟨by rw [hroot, hfirst, hlast]; exact hsingle, ?_, ?_, hpeak, ?_, ?_, ?_, ?_⟩, fun k r => ?_⟩
  · intro v hv
    rw [(hone hv).2]
    rfl
  · intro x v hx
    rw [(hone hx).1, hnext]
    have := h.nextPageNo
    constructor
    · exact this
    · lia
  · intro v hv
    rw [(hone hv).2]
    simp [PNode.size]
  · intro x v hx _
    rw [(hone hx).2]
    simp only [PNode.size, List.length_singleton]
    omega
  · intro x v hx _ hne
    rw [hroot] at hne
    exact absurd (hone hx).1 hne
  · intro v hv _
    rw [(hone hv).2]
    simp [PNode.size, leastAtRoot]
  · constructor
    · rintro ⟨x, v, hx, hv⟩
      rw [(hone hx).2] at hv
      simpa [PNode.entries] using hv
    · rintro ⟨rfl, rfl⟩
      exact ⟨root, _, by rw [htree, Function.update_self], by simp [PNode.entries]⟩

end Emptied

end Grmdb
