import Grmdb.PointLookup

namespace Grmdb

open PagedTree Tiling

variable {κ : Type} [LinearOrder κ]

namespace IxFile

/-- `find_leaf_page` and `leaf_lookup` find `r` at the key. -/
def Finds (L : IxLayout κ) (s : IxFile κ) (key : κ) (r : Rid) : Prop :=
  ∃ p leaf, findLeafPage L s key = some p ∧ s.pages p = some leaf ∧ leaf.leafLookup L key = some r

/-- `insert_entry` throws for a key that is there and for no other. A call that throws changes
nothing, and behind another one the new pair and all old ones are found. -/
structure UniqueInsert (L : IxLayout κ) (s : IxFile κ) (key : κ) (value : Rid) : Prop where
  ends : insertEntry L s key value ≠ .failed
  throws_iff : (∃ s', insertEntry L s key value = .existsError s') ↔ ∃ r, Stores s.tree key r
  unchanged : ∀ s', insertEntry L s key value = .existsError s' → s' = s
  found : ∀ s', insertEntry L s key value = .returned s' →
    s'.Finds L key value ∧ ∀ k r, Stores s.tree k r → s'.Finds L k r

/-- Every page from the leaf of the key up to the root is full, and the key in the middle of the
root is the one whose bytes are all zero. -/
def PassesZero (L : IxLayout κ) (s : IxFile κ) (key : κ) : Prop :=
  ∃ p, findLeafPage L s key = some p ∧ sentUp L s s.nextPageNo.toNat p key = some L.zeroKey

end IxFile

variable {L : IxLayout κ} {s s' : IxFile κ} {g : Labels PageNo κ} {ls : List PageNo} {key : κ}
  {p : PageNo} {n : IxNode κ} {front back : List (κ × Rid)} {value r : Rid}

/-- `leaf_lookup` in the leaf that `find_leaf_page` reaches finds what the index stores. -/
theorem LeafCut.leafLookup (c : LeafCut L s g key p n front back)
    (h : Indexed L s g ls IX_NO_PAGE IX_NO_PAGE) :
    n.leafLookup L key = some r ↔ Stores s.tree key r := by
  rw [c.stores_iff h, IxNode.leafLookup, c.lowerBound h]
  cases back with
  | nil => simp
  | cons e rest =>
    have hkey : n.getKey L front.length = e.1 := IxNode.getKey_eq L c.entries
    have hrid : n.getRid L front.length = e.2 := IxNode.getRid_eq L c.entries
    rw [if_neg (List.cons_ne_nil e rest), Option.bind_some, hkey, hrid]
    constructor
    · intro hfound
      split at hfound
      next he =>
        cases hfound
        exact ⟨rest, by rw [← he]⟩
      · cases hfound
    · rintro ⟨rest', heq⟩
      cases heq
      rw [if_pos rfl]

theorem Indexed.finds_iff (h : Indexed L s g ls IX_NO_PAGE IX_NO_PAGE) :
    s.Finds L key r ↔ Stores s.tree key r := by
  obtain ⟨p, n, front, back, c⟩ := h.exists_leafCut key
  rw [← c.leafLookup h]
  constructor
  · rintro ⟨p', n', hfind, hp', hlook⟩
    cases Option.some.inj (hfind.symm.trans c.find)
    cases Option.some.inj (hp'.symm.trans c.page)
    exact hlook
  · intro hlook
    exact ⟨p, n, c.find, c.page, hlook⟩

namespace IsIndex

/-- A pair that `find_leaf_page` and `leaf_lookup` find is stored, and the other way round. -/
theorem finds_iff (h : IsIndex L s) : s.Finds L key r ↔ Stores s.tree key r := by
  rcases h with h | ⟨g, ls, h⟩
  · refine ⟨fun hfinds => ?_, fun hstored => absurd hstored h.stores⟩
    obtain ⟨p, -, hfind, -⟩ := hfinds
    rw [h.findLeafPage] at hfind
    cases hfind
  · exact h.finds_iff

/-- A call that returns has added its pair, and all pairs are found. -/
theorem insertEntry_finds (h : IsIndex L s)
    (hrun : IxFile.insertEntry L s key value = .returned s') :
    s'.Finds L key value ∧ ∀ k r, Stores s.tree k r → s'.Finds L k r := by
  obtain ⟨hindex, hstores⟩ := h.insertEntry hrun
  constructor
  · rw [hindex.finds_iff, hstores]
    exact .inr ⟨rfl, rfl⟩
  · intro k r hstored
    rw [hindex.finds_iff, hstores]
    exact .inl hstored

/-- What `insert_entry` does for a key that is there. -/
theorem insertEntry_stored (h : IsIndex L s) (hstored : Stores s.tree key r) :
    IxFile.insertEntry L s key value = .existsError s := by
  rcases h with h | ⟨g, ls, h⟩
  · exact absurd hstored h.stores
  · obtain ⟨p, n, front, back, c⟩ := h.exists_leafCut key
    obtain ⟨rest, rfl⟩ := (c.stores_iff h).mp hstored
    exact h.insertEntry_found c rfl

/-- What `insert_entry` does for another key: it throws only where the new root gets the zero
key. -/
theorem insertEntry_fresh (value : Rid) (h : IsIndex L s)
    (hnone : ∀ r, ¬ Stores s.tree key r) :
    (s.PassesZero L key → ∃ s', IxFile.insertEntry L s key value = .existsError s') ∧
      (¬ s.PassesZero L key → ∃ s', IxFile.insertEntry L s key value = .returned s') := by
  rcases h with h | ⟨g, ls, h⟩
  · obtain ⟨s', -, -, hrun, -⟩ := h.insertEntry key value
    refine ⟨fun hzero => ?_, fun _ => ⟨s', hrun⟩⟩
    obtain ⟨p, hfind, -⟩ := hzero
    rw [h.findLeafPage] at hfind
    cases hfind
  · obtain ⟨p, n, front, back, c⟩ := h.exists_leafCut key
    have habsent : ¬ ∃ e rest, back = e :: rest ∧ e.1 = key := by
      rintro ⟨e, rest, rfl, rfl⟩
      exact hnone e.2 ((c.stores_iff h).mpr ⟨rest, rfl⟩)
    have habove : ∀ x ∈ back, key < x.1 := fun x hx => c.above_lt h habsent hx
    obtain ⟨hthrows, hreturns⟩ := h.insertEntry_absent value c habove
    constructor
    · rintro ⟨p', hfind, hsent⟩
      cases Option.some.inj (hfind.symm.trans c.find)
      exact hthrows hsent
    · intro hpasses
      obtain ⟨s', -, -, hrun, -⟩ := hreturns fun hsent => hpasses ⟨p, c.find, hsent⟩
      exact ⟨s', hrun⟩

end IsIndex

/-- `insert_entry` keeps its contract exactly for the keys that are there and for those that do not
send the zero key into a new root. -/
theorem insertEntry_unique_iff (h : IndexRun L s) (key : κ) (value : Rid) :
    s.UniqueInsert L key value ↔ (∃ r, Stores s.tree key r) ∨ ¬ s.PassesZero L key := by
  have hindex := h.isIndex
  by_cases hstored : ∃ r, Stores s.tree key r
  · obtain ⟨r, hr⟩ := hstored
    have hrun : IxFile.insertEntry L s key value = .existsError s := hindex.insertEntry_stored hr
    refine ⟨fun _ => .inl ⟨r, hr⟩, fun _ => ⟨?_, ?_, ?_, fun s' => hindex.insertEntry_finds⟩⟩
    · rw [hrun]
      exact fun heq => by cases heq
    · exact ⟨fun _ => ⟨r, hr⟩, fun _ => ⟨s, hrun⟩⟩
    · intro s' hrun'
      cases hrun.symm.trans hrun'
      rfl
  · obtain ⟨hthrows, hreturns⟩ := hindex.insertEntry_fresh value (not_exists.mp hstored)
    constructor
    · intro hunique
      exact .inr fun hzero => hstored (hunique.throws_iff.mp (hthrows hzero))
    · intro hcond
      obtain ⟨s', hrun⟩ := hreturns (hcond.resolve_left hstored)
      have hnot : ∀ s'', IxFile.insertEntry L s key value ≠ .existsError s'' := by
        intro s'' hrun'
        cases hrun.symm.trans hrun'
      refine ⟨?_, ?_, ?_, fun s' => hindex.insertEntry_finds⟩
      · rw [hrun]
        exact fun heq => by cases heq
      · exact ⟨fun hex => absurd hex.choose_spec (hnot _), fun hr => absurd hr hstored⟩
      · intro s'' hrun'
        exact absurd hrun' (hnot s'')

/-- A key that is there, and one that is not and goes into a leaf of several. -/
theorem insertEntry_unique_iff_spread :
    ∃ s, IxFile.insertAll wideLayout (IxFile.create _) spreadEntries = some s ∧
      Stores s.tree (wideKey 9 0) ⟨1, 1⟩ ∧ s.UniqueInsert wideLayout (wideKey 9 0) ⟨3, 0⟩ ∧
      (∀ r, ¬ Stores s.tree (wideKey 10 0) r) ∧ ¬ s.PassesZero wideLayout (wideKey 10 0) ∧
      s.UniqueInsert wideLayout (wideKey 10 0) ⟨3, 0⟩ := by
  have hrun : ((IxFile.insertAll wideLayout (IxFile.create _) spreadEntries).any fun s =>
      (IxFile.findLeafPage wideLayout s (wideKey 10 0)).any fun p =>
        decide (IxFile.sentUp wideLayout s s.nextPageNo.toNat p (wideKey 10 0) ≠
          some wideLayout.zeroKey)) = true := by decide +kernel
  obtain ⟨s, hs, hrun⟩ := (Option.any_eq_true _ _).mp hrun
  obtain ⟨p, hfind, hrun⟩ := (Option.any_eq_true _ _).mp hrun
  have hempty := IxFile.create_emptied wideLayout
  have hstores := (IsIndex.insertAll (.inl hempty) hs).2
  have hstored : Stores s.tree (wideKey 9 0) ⟨1, 1⟩ :=
    (hstores _ _).mpr (.inr (by simp [spreadEntries]))
  have hnone : ∀ r, ¬ Stores s.tree (wideKey 10 0) r := by
    intro r hr
    have hkeys : wideKey 10 0 ∉ spreadEntries.map Prod.fst := by decide +kernel
    exact hkeys (List.mem_map_of_mem (((hstores _ _).mp hr).resolve_left hempty.stores))
  have hpasses : ¬ s.PassesZero wideLayout (wideKey 10 0) := by
    rintro ⟨p', hfind', hsent⟩
    cases Option.some.inj (hfind.symm.trans hfind')
    exact of_decide_eq_true hrun hsent
  have hindex : IndexRun wideLayout s := .insertAll .create hs
  exact ⟨s, hs, hstored, (insertEntry_unique_iff hindex _ _).mpr (.inl ⟨_, hstored⟩), hnone, hpasses,
    (insertEntry_unique_iff hindex _ _).mpr (.inr hpasses)⟩

/-- Six keys around the zero key, as many as one leaf holds. -/
def wideEntries : List (IxKey [.int, .char 508] × Rid) :=
  [(wideKey 253 255, ⟨1, 0⟩), (wideKey 254 255, ⟨1, 1⟩), (wideKey 255 255, ⟨1, 2⟩),
    (wideKey 1 0, ⟨1, 3⟩), (wideKey 2 0, ⟨1, 4⟩), (wideKey 3 0, ⟨1, 5⟩)]

/-- The key 0 is not there, but the new root already has it in a slot without a separator. -/
theorem insertEntry_zero :
    ∃ s, IndexRun (IxLayout.ofCols [.int, .char 508] (by decide)) s ∧
      (∀ r, ¬ Stores s.tree (wideKey 0 0) r) ∧
      (∃ s', IxFile.insertEntry (IxLayout.ofCols [.int, .char 508] (by decide)) s (wideKey 0 0)
        ⟨1, 6⟩ = .existsError s') ∧
      ¬ s.UniqueInsert (IxLayout.ofCols [.int, .char 508] (by decide)) (wideKey 0 0) ⟨1, 6⟩ := by
  have hrun : (match IxFile.insertAll (IxLayout.ofCols [.int, .char 508] (by decide))
      (IxFile.create _) wideEntries with
    | some s =>
      match IxFile.insertEntry (IxLayout.ofCols [.int, .char 508] (by decide)) s (wideKey 0 0)
          ⟨1, 6⟩ with
      | .existsError _ => true
      | _ => false
    | none => false) = true := by decide +kernel
  split at hrun
  next s hfill =>
    split at hrun
    next s' hthrow =>
      have hindex := IndexRun.insertAll .create hfill
      have hstores := (IsIndex.insertAll (.inl (IxFile.create_emptied _)) hfill).2
      have hnone : ∀ r, ¬ Stores s.tree (wideKey 0 0) r := by
        intro r hr
        rcases (hstores _ _).mp hr with hr | hr
        · exact (IxFile.create_emptied (IxLayout.ofCols _ (by decide))).stores hr
        · have hkeys : wideKey 0 0 ∉ wideEntries.map Prod.fst := by decide +kernel
          exact hkeys (List.mem_map_of_mem hr)
      refine ⟨s, hindex, hnone, ⟨s', hthrow⟩, fun hunique => ?_⟩
      obtain ⟨r, hr⟩ := hunique.throws_iff.mp ⟨s', hthrow⟩
      exact hnone r hr
    · cases hrun
  · cases hrun

end Grmdb
