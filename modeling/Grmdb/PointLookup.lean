import Grmdb.DeleteSearches

namespace Grmdb

open PagedTree Tiling

variable {κ : Type} [LinearOrder κ]

namespace IxFile

/-- The collecting loop of `get_value` from slot `index` on, with `fuel` slots left in the page:
`none` where it runs on into the rids behind the last one. -/
def collectRids (L : IxLayout κ) (leaf : IxNode κ) (key : κ) : Nat → Nat → Option (List Rid)
  | 0, _ => none
  | fuel + 1, index =>
    if leaf.getKey L index = key then
      (collectRids L leaf key fuel (index + 1)).map fun result => leaf.getRid L index :: result
    else some []

/-- `get_value` with an empty `result`: what it returns and what it has collected. -/
def getValue (L : IxLayout κ) (s : IxFile κ) (key : κ) : Option (Bool × List Rid) :=
  (findLeafPage L s key).bind fun p =>
    (s.pages p).bind fun leaf =>
      match leaf.lowerBound L key with
      | none => some (false, [])
      | some index =>
        (collectRids L leaf key (L.btreeOrder + 1 - index) index).map fun result =>
          (!result.isEmpty, result)

/-- `get_value` finds the rid of a stored key and nothing for another. -/
def LooksUp (L : IxLayout κ) (s : IxFile κ) (key : κ) : Prop :=
  (∀ r, Stores s.tree key r → getValue L s key = some (true, [r])) ∧
    ((∀ r, ¬ Stores s.tree key r) → getValue L s key = some (false, []))

/-- The key is the last one of its leaf and its bytes are left in the slot behind as well. -/
def StaleBehind (L : IxLayout κ) (s : IxFile κ) (key : κ) : Prop :=
  ∃ p leaf, findLeafPage L s key = some p ∧ s.pages p = some leaf ∧
    (∃ front r, leaf.entries = front ++ [(key, r)]) ∧ leaf.getKey L leaf.size = key

end IxFile

/-- The indexes that calls of `insert_entry` and `delete_entry` build from the one that
`create_index` makes. An `insert_entry` that finds the key leaves the index as it is. -/
inductive IndexRun (L : IxLayout κ) : IxFile κ → Prop where
  | create : IndexRun L (IxFile.create κ)
  | insert {s s' : IxFile κ} {key : κ} {value : Rid} (h : IndexRun L s)
      (hrun : IxFile.insertEntry L s key value = .returned s') : IndexRun L s'
  | delete {s s' : IxFile κ} {key : κ} (h : IndexRun L s)
      (hrun : IxFile.deleteEntry L s key = some s') : IndexRun L s'

namespace IsIndex

variable {L : IxLayout κ} {s s' : IxFile κ} {key : κ}

theorem deleteEntry (h : IsIndex L s) (hrun : IxFile.deleteEntry L s key = some s') :
    IsIndex L s' ∧ ∀ k r, Stores s'.tree k r ↔ Stores s.tree k r ∧ k ≠ key := by
  rcases h with h | ⟨g, ls, h⟩
  · rw [h.deleteEntry] at hrun
    cases hrun
  · obtain ⟨⟨hindex, -⟩, hstores⟩ := h.deleteEntry hrun
    exact ⟨hindex, hstores⟩

end IsIndex

/-- Every index that a run reaches is a B+ tree. -/
theorem IndexRun.isIndex {L : IxLayout κ} {s : IxFile κ} (h : IndexRun L s) : IsIndex L s := by
  induction h with
  | create => exact .inl (IxFile.create_emptied L)
  | insert _ hrun ih => exact (ih.insertEntry hrun).1
  | delete _ hrun ih => exact (ih.deleteEntry hrun).1

theorem IndexRun.insertAll {L : IxLayout κ} {s s' : IxFile κ} {es : List (κ × Rid)}
    (h : IndexRun L s) (hrun : s.insertAll L es = some s') : IndexRun L s' := by
  induction es generalizing s with
  | nil =>
    cases hrun
    exact h
  | cons e es ih =>
    simp only [IxFile.insertAll] at hrun
    split at hrun
    next s₁ hone => exact ih (h.insert hone) hrun
    · cases hrun

theorem IndexRun.endsMeet {L : IxLayout κ} {s : IxFile κ} (h : IndexRun L s) : s.EndsMeet := by
  induction h with
  | create => exact fun _ => rfl
  | @insert s s' key value h hrun _ =>
    obtain ⟨hindex, hstores⟩ := h.isIndex.insertEntry hrun
    rcases hindex with hempty | ⟨g, ls, hindexed⟩
    · exact absurd ((hstores key value).mpr (.inr ⟨rfl, rfl⟩)) hempty.stores
    · exact hindexed.endsMeet
  | delete h hrun _ =>
    rcases h.isIndex with hempty | ⟨g, ls, hindexed⟩
    · rw [hempty.deleteEntry] at hrun
      cases hrun
    · exact (hindexed.deleteEntry hrun).1.2

namespace LeafCut

variable {L : IxLayout κ} {s : IxFile κ} {g : Labels PageNo κ} {ls : List PageNo} {key : κ}
  {p : PageNo} {n : IxNode κ} {front back rest : List (κ × Rid)} {e : κ × Rid}

theorem getValue (c : LeafCut L s g key p n front back)
    (h : Indexed L s g ls IX_NO_PAGE IX_NO_PAGE) :
    IxFile.getValue L s key = if back = [] then some (false, []) else
      (IxFile.collectRids L n key (L.btreeOrder + 1 - front.length) front.length).map fun result =>
        (!result.isEmpty, result) := by
  simp only [IxFile.getValue, c.find, Option.bind_some, c.page, c.lowerBound h]
  split
  next hnone =>
    split at hnone
    next hback => rw [if_pos hback]
    · cases hnone
  next hsome =>
    split at hsome
    · cases hsome
    next hback =>
      cases hsome
      rw [if_neg hback]

theorem front_lt (c : LeafCut L s g key p n front (e :: rest))
    (h : Indexed L s g ls IX_NO_PAGE IX_NO_PAGE) :
    front.length + rest.length + 1 ≤ L.btreeOrder := by
  have hsize := h.size_le (IxFile.tree_of_pages c.page)
  rw [IxNode.view_size, IxNode.size, c.entries] at hsize
  simp only [List.length_append, List.length_cons] at hsize
  omega

/-- The loop stops at once where the first pair not below the key has another one. -/
theorem getValue_absent (c : LeafCut L s g key p n front back)
    (h : Indexed L s g ls IX_NO_PAGE IX_NO_PAGE)
    (hnone : ¬ ∃ e rest, back = e :: rest ∧ e.1 = key) :
    IxFile.getValue L s key = some (false, []) := by
  rw [c.getValue h]
  cases back with
  | nil => rfl
  | cons e rest =>
    have hlen := c.front_lt h
    have hkey : n.getKey L front.length = e.1 := IxNode.getKey_eq L c.entries
    obtain ⟨fuel, hfuel⟩ : ∃ fuel, L.btreeOrder + 1 - front.length = fuel + 1 :=
      ⟨L.btreeOrder - front.length, by omega⟩
    have he : e.1 ≠ key := fun he => hnone ⟨e, rest, rfl, he⟩
    rw [if_neg (List.cons_ne_nil e rest), hfuel, IxFile.collectRids, hkey, if_neg he]
    rfl

/-- Behind the pair of the key the loop reads one more slot, whatever is in it. -/
theorem getValue_found (c : LeafCut L s g key p n front (e :: rest))
    (h : Indexed L s g ls IX_NO_PAGE IX_NO_PAGE) (he : e.1 = key) :
    IxFile.getValue L s key = some (true, [e.2]) ↔ n.getKey L (front.length + 1) ≠ key := by
  have hlen := c.front_lt h
  have hkey : n.getKey L front.length = e.1 := IxNode.getKey_eq L c.entries
  have hrid : n.getRid L front.length = e.2 := IxNode.getRid_eq L c.entries
  obtain ⟨fuel, hfuel⟩ : ∃ fuel, L.btreeOrder + 1 - front.length = fuel + 2 :=
    ⟨L.btreeOrder - front.length - 1, by omega⟩
  rw [c.getValue h, if_neg (List.cons_ne_nil e rest), hfuel, IxFile.collectRids, hkey, if_pos he,
    hrid, IxFile.collectRids]
  by_cases hnext : n.getKey L (front.length + 1) = key
  · rw [if_pos hnext]
    cases IxFile.collectRids L n key fuel (front.length + 1 + 1) with
    | none => simp [hnext]
    | some result => simp [hnext]
  · simp [hnext]

/-- A slot behind the pair of the key holds it again only where that pair is the last live one. -/
theorem stale_iff (c : LeafCut L s g key p n front (e :: rest))
    (h : Indexed L s g ls IX_NO_PAGE IX_NO_PAGE) (he : e.1 = key) :
    s.StaleBehind L key ↔ n.getKey L (front.length + 1) = key := by
  constructor
  · rintro ⟨p', n', hfind, hp', ⟨front', r, hlast⟩, hkey⟩
    cases Option.some.inj (hfind.symm.trans c.find)
    cases Option.some.inj (hp'.symm.trans c.page)
    have hrest : rest = [] := by
      by_contra hne
      have hmem : (key, r) ∈ rest := by
        have hget : n.entries.getLast? = some (key, r) := by simp [hlast]
        rw [c.entries, List.getLast?_append, List.getLast?_cons,
          List.getLast?_eq_some_getLast hne] at hget
        have hr : rest.getLast hne = (key, r) := by simpa using hget
        rw [← hr]
        exact List.getLast_mem hne
      have hlt := c.above_tail h hmem
      rw [he] at hlt
      exact lt_irrefl key hlt
    have hsize : n.size = front.length + 1 := by simp [IxNode.size, c.entries, hrest]
    rwa [hsize] at hkey
  · intro hkey
    have hrest : rest = [] := by
      cases rest with
      | nil => rfl
      | cons e' rest' =>
        have hsplit : n.entries = (front ++ [e]) ++ e' :: rest' := by simp [c.entries]
        have hnext := IxNode.getKey_eq L hsplit
        rw [List.length_append, List.length_singleton, hkey] at hnext
        have hlt := c.above_tail h List.mem_cons_self
        rw [← hnext, he] at hlt
        exact absurd hlt (lt_irrefl key)
    refine ⟨p, n, c.find, c.page, ⟨front, e.2, ?_⟩, ?_⟩
    · rw [c.entries, hrest, ← he]
    · rw [show n.size = front.length + 1 by simp [IxNode.size, c.entries, hrest]]
      exact hkey

end LeafCut

/-- A lookup in an index with entries is exact unless the key is the last one of its leaf and its
bytes stand in the slot behind as well. -/
theorem getValue_exact_iff {L : IxLayout κ} {s : IxFile κ} (h : IndexRun L s)
    (hroot : s.isEmpty = false) (key : κ) : s.LooksUp L key ↔ ¬ s.StaleBehind L key := by
  rcases h.isIndex with h | ⟨g, ls, h⟩
  · simp [IxFile.isEmpty, h.rootPage] at hroot
  obtain ⟨p, n, front, back, c⟩ := h.exists_leafCut key
  by_cases hfound : ∃ e rest, back = e :: rest ∧ e.1 = key
  · obtain ⟨e, rest, rfl, he⟩ := hfound
    have hstored : ∀ r, Stores s.tree key r ↔ r = e.2 := by
      intro r
      rw [c.stores_iff h]
      constructor
      · rintro ⟨rest', heq⟩
        cases heq
        rfl
      · rintro rfl
        exact ⟨rest, by rw [← he]⟩
    rw [IxFile.LooksUp, c.stale_iff h he, ← ne_eq, ← c.getValue_found h he]
    constructor
    · rintro ⟨hall, -⟩
      exact hall e.2 ((hstored e.2).mpr rfl)
    · intro hget
      refine ⟨fun r hr => ?_, fun hnot => absurd ((hstored e.2).mpr rfl) (hnot e.2)⟩
      rw [(hstored r).mp hr]
      exact hget
  · have hnot : ∀ r, ¬ Stores s.tree key r := by
      intro r hr
      obtain ⟨rest, heq⟩ := (c.stores_iff h).mp hr
      exact hfound ⟨_, rest, heq, rfl⟩
    have hfresh : ¬ s.StaleBehind L key := by
      rintro ⟨p', n', hfind, hp', ⟨front', r, hlast⟩, -⟩
      cases Option.some.inj (hfind.symm.trans c.find)
      cases Option.some.inj (hp'.symm.trans c.page)
      refine hnot r ⟨p, n.view, IxFile.tree_of_pages c.page, ?_⟩
      rw [IxNode.view_leaf c.isLeaf, PNode.entries, hlast]
      simp
    exact ⟨fun _ => hfresh, fun _ => ⟨fun r hr => absurd hr (hnot r),
      fun _ => c.getValue_absent h hfound⟩⟩

/-- The greatest key of the first leaf, behind which other bytes stand. -/
theorem getValue_exact_iff_spread :
    ∃ s, IxFile.insertAll wideLayout (IxFile.create _) spreadEntries = some s ∧
      Stores s.tree (wideKey 5 0) ⟨1, 0⟩ ∧
      ¬ s.StaleBehind wideLayout (wideKey 5 0) ∧ s.LooksUp wideLayout (wideKey 5 0) := by
  have hrun : ((IxFile.insertAll wideLayout (IxFile.create _) spreadEntries).any fun s =>
      !s.isEmpty && (IxFile.findLeafPage wideLayout s (wideKey 5 0)).any fun p =>
        (s.pages p).any fun leaf => decide (leaf.getKey wideLayout leaf.size ≠ wideKey 5 0)) =
      true := by decide +kernel
  obtain ⟨s, hs, hrun⟩ := (Option.any_eq_true _ _).mp hrun
  obtain ⟨hroot, hrun⟩ := Bool.and_eq_true_iff.mp hrun
  obtain ⟨p, hfind, hrun⟩ := (Option.any_eq_true _ _).mp hrun
  obtain ⟨leaf, hleaf, hrun⟩ := (Option.any_eq_true _ _).mp hrun
  have hfresh : ¬ s.StaleBehind wideLayout (wideKey 5 0) := by
    rintro ⟨p', leaf', hfind', hleaf', -, hkey⟩
    cases Option.some.inj (hfind.symm.trans hfind')
    cases Option.some.inj (hleaf.symm.trans hleaf')
    exact of_decide_eq_true hrun hkey
  have hstores := (IsIndex.insertAll (.inl (IxFile.create_emptied wideLayout)) hs).2
  exact ⟨s, hs, (hstores _ _).mpr (.inr (by simp [spreadEntries])), hfresh,
    (getValue_exact_iff (.insertAll .create hs) (by simpa using hroot) (wideKey 5 0)).mpr hfresh⟩

/-- Once 5 is deleted in front of it, 7 is found twice. -/
theorem getValue_twice :
    ∃ s, IndexRun (IxLayout.ofCols [.int] (by decide)) s ∧ s.isEmpty = false ∧
      Stores s.tree (smallKey 7) ⟨1, 1⟩ ∧
      ¬ s.LooksUp (IxLayout.ofCols [.int] (by decide)) (smallKey 7) := by
  have hrun : (((IxFile.create _).insertAll (IxLayout.ofCols [.int] (by decide))
      [(smallKey 5, ⟨1, 0⟩), (smallKey 7, ⟨1, 1⟩)]).bind fun s =>
        IxFile.deleteEntry (IxLayout.ofCols [.int] (by decide)) s (smallKey 5)).any (fun s =>
          !s.isEmpty && IxFile.getValue (IxLayout.ofCols [.int] (by decide)) s (smallKey 7) ==
            some (true, [⟨1, 1⟩, ⟨1, 1⟩])) = true := by decide +kernel
  obtain ⟨s, hs, hrun⟩ := (Option.any_eq_true _ _).mp hrun
  obtain ⟨s₂, hinserts, hdelete⟩ := Option.bind_eq_some_iff.mp hs
  have h₂ : IndexRun _ s₂ := .insertAll .create hinserts
  have hstored : Stores s.tree (smallKey 7) ⟨1, 1⟩ := by
    refine ((h₂.isIndex.deleteEntry hdelete).2 _ _).mpr ⟨?_, by decide⟩
    refine ((IsIndex.insertAll (.inl (IxFile.create_emptied _)) hinserts).2 _ _).mpr (.inr ?_)
    simp
  obtain ⟨hroot, hget⟩ := Bool.and_eq_true_iff.mp hrun
  refine ⟨s, .delete h₂ hdelete, by simpa using hroot, hstored, fun hlooks => ?_⟩
  have hone := hlooks.1 _ hstored
  rw [eq_of_beq hget] at hone
  simp at hone

end Grmdb
