import Grmdb.IndexPages
import Grmdb.IndexPins
import Grmdb.PointLookup
import Grmdb.ValueSearch

namespace Grmdb

open PagedTree Tiling PinCounts

variable {κ : Type} [LinearOrder κ]

/-- Whether taking one of `size + 1` entries out of page `p` leads, through merges below, to an
inner root with one child. -/
def IxFile.lowersRoot (L : IxLayout κ) (s : IxFile κ) : Nat → PageNo → Nat → Bool
  | 0, _, _ => false
  | fuel + 1, p, size =>
    match s.pages p with
    | none => false
    | some node =>
      if node.parent = IX_NO_PAGE then !node.isLeaf && decide (size = 1)
      else if L.minSize ≤ size then false
      else
        match s.pages node.parent with
        | none => false
        | some pr =>
          let index := pr.findChild p
          match s.pages (pr.valueAt L (if index ≠ 0 then index - 1 else 1)) with
          | none => false
          | some nb =>
            if L.minSize * 2 ≤ size + nb.size then false
            else lowersRoot L s fuel node.parent (pr.size - 1)

namespace Beside

variable {L : IxLayout κ} {s s' : IxFile κ} {g : Labels PageNo κ} {ls : List PageNo}
  {full thin p : PageNo} {n pr nb : IxNode κ} {fuel size : Nat}

theorem lowersRoot_round (hb : Beside s g p n pr nb) (h : Indexed L s g ls full thin)
    (hsize : size < L.minSize) :
    IxFile.lowersRoot L s (fuel + 1) p size =
      if L.minSize * 2 ≤ size + nb.size then false
      else IxFile.lowersRoot L s fuel n.parent (pr.size - 1) := by
  obtain ⟨q, hvalue, -, hq, -⟩ := hb.neighbour (L := L) h
  simp only [IxFile.lowersRoot, hb.here, if_neg (hb.parent_ne h), if_neg (not_le.mpr hsize),
    hb.parent.1, hvalue, hq]

/-- One round ends with the pin of the parent. -/
theorem pins_round (hb : Beside s g p n pr nb) (h : Indexed L s g ls full thin)
    (hsize : n.size < L.minSize) (hrun : IxFile.refill L s p n pr nb = some s')
    {b : Multiset PageNo} (hrest : Held {n.parent} (IxFile.coalesceUpPins L fuel s' n.parent) b) :
    Held {p} (IxFile.coalesceUpPins L (fuel + 1) s p) b := by
  obtain ⟨q, hvalue, -, hq, -⟩ := hb.neighbour (L := L) h
  have hround := IxFile.refillPins_held L p n pr nb {n.parent}
  rw [hvalue] at hround
  simp only [IxFile.coalesceUpPins, hb.here, if_neg (hb.parent_ne h), if_neg (not_le.mpr hsize),
    hb.parent.1, hvalue, hq, hrun]
  refine .pin (.pin ?_)
  have hstart : q ::ₘ n.parent ::ₘ ({p} : Multiset PageNo) = {n.parent} + {p, q} := by
    rw [Multiset.cons_swap, Multiset.singleton_add, Multiset.pair_comm]
    rfl
  rw [hstart]
  exact hround.append hrest

end Beside

namespace Indexed

variable {L : IxLayout κ} {s s' : IxFile κ} {g : Labels PageNo κ} {ls : List PageNo}
  {full thin p : PageNo} {n n' : IxNode κ} {fuel f size : Nat}

/-- `lowersRoot` looks at the pages from the height of `p` on. -/
theorem lowersRoot_congr (h : Indexed L s g ls full thin) (hp : s.pages p = some n)
    (hp' : s'.pages p = some n') (hparent : n'.parent = n.parent) (hleaf : n'.isLeaf = n.isLeaf)
    (hthin : g.height thin ≤ g.height p)
    (hsame : ∀ {x m}, s.pages x = some m → g.height p ≤ g.height x → x ≠ p → s'.pages x = some m) :
    IxFile.lowersRoot L s' f p size = IxFile.lowersRoot L s f p size := by
  induction f generalizing p n n' size with
  | zero => rfl
  | succ f ih =>
    have ht := IxFile.tree_of_pages hp
    have hroot := h.parent_eq_noPage ht
    rw [IxNode.view_parent] at hroot
    by_cases hr : p = s.rootPage
    · simp only [IxFile.lowersRoot, hp, hp', hparent, hleaf, hroot.mpr hr, if_true]
    by_cases hsize : L.minSize ≤ size
    · have hnot : n.parent ≠ IX_NO_PAGE := fun heq => hr (hroot.mp heq)
      simp only [IxFile.lowersRoot, hp, hp', hparent, if_neg hnot, if_pos hsize]
    have hup := h.height_parent hp hr
    have hne : n.parent ≠ thin := by
      intro heq
      rw [heq] at hup
      omega
    obtain ⟨pr, nb, hb⟩ := h.exists_beside hp hr hne
    obtain ⟨q, hvalue, hqp, hq, hqh, -⟩ := hb.neighbour (L := L) h
    have hpr : s'.pages n.parent = some pr :=
      hsame hb.parent.1 (by omega) (h.parent_ne_self hp hr)
    have hq' : s'.pages q = some nb := hsame hq (by omega) hqp
    rw [hb.lowersRoot_round h (by omega)]
    simp only [IxFile.lowersRoot, hp', hparent, if_neg (hb.parent_ne h), if_neg hsize, hpr, hvalue,
      hq']
    split
    · rfl
    · refine ih hb.parent.1 hpr rfl rfl (by omega) fun hx hlt hxne => hsame hx (by omega) ?_
      rintro rfl
      omega

omit [LinearOrder κ] in
/-- `adjust_root` keeps a pin when a child becomes the root. -/
theorem adjustRootPins_held (hp : s.pages p = some n) :
    ∃ b, Held {p} (IxFile.adjustRootPins L s p) b ∧
      (b = 0 ↔ (!n.isLeaf && decide (n.size = 1)) = false) := by
  simp only [IxFile.adjustRootPins, hp]
  by_cases hone : (!n.isLeaf) = true ∧ n.size = 1
  · rw [if_pos hone]
    have hchild : Held (n.valueAt L 0 ::ₘ {p}) [.unpin p] {n.valueAt L 0} := by
      rw [← Multiset.insert_eq_cons, Multiset.pair_comm]
      exact .unpin (.nil _)
    exact ⟨_, .pin hchild, by simp [hone.1, hone.2]⟩
  · rw [if_neg hone]
    refine ⟨0, .unpin (.nil 0), ?_⟩
    simpa using hone

/-- Where no page is thin the rounds end at once. -/
theorem settled_pins (h : Indexed L s g ls full IX_NO_PAGE) (hp : s.pages p = some n)
    (hl : n.isLeaf = false) : Held {p} (IxFile.coalesceUpPins L (fuel + 1) s p) 0 := by
  have ht := IxFile.tree_of_pages hp
  have hne : p ≠ IX_NO_PAGE := by
    rintro rfl
    rw [h.noPage] at ht
    cases ht
  have hsize := h.two_le_size hp hl hne
  simp only [IxFile.coalesceUpPins, hp]
  split
  · obtain ⟨b, hb, hiff⟩ := adjustRootPins_held (L := L) hp
    rw [← hiff.mpr (by simp; omega)]
    exact hb
  next hparent =>
    have hr : p ≠ s.rootPage := by
      intro heq
      have := (h.parent_eq_noPage ht).mpr heq
      rw [IxNode.view_parent] at this
      exact hparent this
    have hge := h.ge ht hne hr
    rw [IxNode.view_size] at hge
    rw [if_pos hge]
    exact .unpin (.nil 0)

/-- All rounds of `coalesce_or_redistribute` give back their pins unless a child becomes the
root. -/
theorem coalesceUpPins_held (h : Indexed L s g ls IX_NO_PAGE p) (hp : s.pages p = some n)
    (hthin : p ≠ s.rootPage → L.minSize ≤ n.size + 1)
    (hdead : n.isLeaf = false → n.size = 1 → Bound.at (n.getKey L 1) < g.hi p)
    (hfuel : g.height s.rootPage < g.height p + fuel) (hf : g.height s.rootPage < g.height p + f) :
    ∃ b, Held {p} (IxFile.coalesceUpPins L fuel s p) b ∧
      (b = 0 ↔ IxFile.lowersRoot L s f p n.size = false) := by
  -- one round for each level from `p` to the root
  induction fuel generalizing s g ls p n f with
  | zero =>
    have := h.height_le_root hp
    omega
  | succ fuel ih =>
    have hrank₀ := h.height_le_root hp
    obtain ⟨f, rfl⟩ : ∃ f', f = f' + 1 := ⟨f - 1, by omega⟩
    have ht := IxFile.tree_of_pages hp
    have hparent := h.parent_eq_noPage ht
    rw [IxNode.view_parent] at hparent
    by_cases hr : p = s.rootPage
    · simp only [IxFile.coalesceUpPins, IxFile.lowersRoot, hp, hparent.mpr hr, if_true]
      exact adjustRootPins_held hp
    have hnot : n.parent ≠ IX_NO_PAGE := fun heq => hr (hparent.mp heq)
    by_cases hsize : L.minSize ≤ n.size
    · simp only [IxFile.coalesceUpPins, IxFile.lowersRoot, hp, if_neg hnot, if_pos hsize]
      exact ⟨0, .unpin (.nil 0), by simp⟩
    have hlow := hthin hr
    have hne := h.parent_ne_self hp hr
    obtain ⟨pr, nb, hb⟩ := h.exists_beside hp hr hne
    have hup := h.height_parent hp hr
    have hrank := h.height_le_root hb.parent.1
    rw [hb.lowersRoot_round h (by omega)]
    by_cases hsum : L.minSize * 2 ≤ n.size + nb.size
    · obtain ⟨s₁, hrun, ⟨g₁, ls₁, hindexed⟩, -, pr₁, hpr₁, hl₁⟩ := hb.fill h (by omega) hsum hdead
      obtain ⟨fuel, rfl⟩ : ∃ k, fuel = k + 1 := ⟨fuel - 1, by omega⟩
      rw [if_pos hsum]
      exact ⟨0, hb.pins_round h (by omega) hrun (hindexed.settled_pins hpr₁ hl₁), by simp⟩
    · obtain ⟨s₁, pr₁, hrun, ⟨⟨g₁, ls₁, hindexed, hheight, hhi⟩, -, hroot₁, hpr₁, habove⟩, hl₁,
        hparent₁, hsize₁, hkey₁⟩ := hb.merge h (by omega) (by omega)
      have hprt := IxFile.tree_of_pages hb.parent.1
      have hthin₁ : n.parent ≠ s₁.rootPage → L.minSize ≤ pr₁.size + 1 := by
        intro hnot
        rw [hroot₁] at hnot
        have := h.ge hprt hne hnot
        rw [IxNode.view_size] at this
        omega
      have hdead₁ : pr₁.size = 1 → Bound.at (pr₁.getKey L 1) < g₁.hi n.parent := by
        rw [hhi]
        exact hkey₁
      obtain ⟨b, hheld, hiff⟩ := ih (f := f) hindexed hpr₁ hthin₁ (fun _ => hdead₁)
        (by rw [hroot₁, hheight]; omega) (by rw [hroot₁, hheight]; omega)
      have hcongr : IxFile.lowersRoot L s₁ f n.parent pr₁.size =
          IxFile.lowersRoot L s f n.parent (pr.size - 1) := by
        rw [show pr.size - 1 = pr₁.size by omega]
        exact h.lowersRoot_congr hb.parent.1 hpr₁ hparent₁ (hl₁.trans hb.parent.2.symm) (by omega)
          habove
      rw [if_neg hsum, ← hcongr]
      exact ⟨b, hb.pins_round h (by omega) hrun hheld, hiff⟩

end Indexed

namespace LeafCut

variable {L : IxLayout κ} {s : IxFile κ} {g : Labels PageNo κ} {ls : List PageNo} {key : κ}
  {p : PageNo} {n : IxNode κ} {front back rest : List (κ × Rid)} {e : κ × Rid} {value : Rid}

theorem holds_iff (c : LeafCut L s g key p n front back)
    (h : Indexed L s g ls IX_NO_PAGE IX_NO_PAGE) :
    (∃ e ∈ n.entries, e.1 = key) ↔ ∃ e rest, back = e :: rest ∧ e.1 = key := by
  constructor
  · rintro ⟨e, he, rfl⟩
    rw [c.entries] at he
    rcases List.mem_append.mp he with he | he
    · exact absurd (c.below e he) (lt_irrefl _)
    · by_contra hnone
      exact lt_irrefl _ (c.above_lt h hnone he)
  · rintro ⟨e, rest, rfl, he⟩
    exact ⟨e, by simp [c.entries], he⟩

/-- The pins after `delete_entry` has taken out the pair of the key. -/
theorem deletePins_held (c : LeafCut L s g key p n front (e :: rest))
    (h : Indexed L s g ls IX_NO_PAGE IX_NO_PAGE) :
    ∃ b, Held {p} (IxFile.coalesceUpPins L s.nextPageNo.toNat
        (s.write p (n.erasePair front.length)) p) b ∧
      (b = 0 ↔ IxFile.lowersRoot L s s.nextPageNo.toNat p (n.size - 1) = false) := by
  obtain ⟨hthin, hsize, hlow⟩ := h.thinned c
  have hleaf : (n.erasePair front.length).isLeaf = true := c.isLeaf
  have hwritten : (s.write p (n.erasePair front.length)).pages p =
      some (n.erasePair front.length) := by simp [IxFile.write]
  have hsame : ∀ {x m}, (s.write p (n.erasePair front.length)).pages x = some m →
      g.height p ≤ g.height x → x ≠ p → s.pages x = some m := by
    intro x m hx _ hxp
    simpa [IxFile.write, hxp] using hx
  have hrank : g.height s.rootPage < g.height p + s.nextPageNo.toNat := by
    rw [c.height h, Nat.zero_add]
    exact h.bTree.height_lt
  obtain ⟨b, hb, hiff⟩ := hthin.coalesceUpPins_held hwritten hlow
    (fun hl => by rw [hleaf] at hl; cases hl) hrank hrank
  refine ⟨b, hb, ?_⟩
  rw [hiff, show n.size - 1 = (n.erasePair front.length).size by omega]
  rw [hthin.lowersRoot_congr hwritten c.page rfl rfl le_rfl hsame]

/-- When `insert_entry` returns. -/
theorem insertEntry_returns_iff (c : LeafCut L s g key p n front back)
    (h : Indexed L s g ls IX_NO_PAGE IX_NO_PAGE) :
    (∃ s', IxFile.insertEntry L s key value = .returned s') ↔
      (∀ r, ¬ Stores s.tree key r) ∧
        IxFile.sentUp L s s.nextPageNo.toNat p key ≠ some L.zeroKey := by
  by_cases hfound : ∃ e rest, back = e :: rest ∧ e.1 = key
  · obtain ⟨e, rest, rfl, rfl⟩ := hfound
    rw [h.insertEntry_found c rfl]
    constructor
    · rintro ⟨s', hs'⟩
      cases hs'
    · rintro ⟨hnot, -⟩
      exact absurd ((c.stores_iff h).mpr ⟨rest, rfl⟩) (hnot e.2)
  · have hnot : ∀ r, ¬ Stores s.tree key r := by
      intro r hr
      obtain ⟨rest, heq⟩ := (c.stores_iff h).mp hr
      exact hfound ⟨_, rest, heq, rfl⟩
    obtain ⟨hthrows, hreturns⟩ := h.insertEntry_absent value c fun x hx => c.above_lt h hfound hx
    constructor
    · rintro ⟨s', hs'⟩
      refine ⟨hnot, fun hz => ?_⟩
      obtain ⟨s₁, hs₁⟩ := hthrows hz
      rw [hs'] at hs₁
      cases hs₁
    · rintro ⟨-, hz⟩
      obtain ⟨s₁, -, -, hs₁, -⟩ := hreturns hz
      exact ⟨s₁, hs₁⟩

end LeafCut

namespace IxFile

/-- `delete_entry`: the events and the file it leaves. Where every key of the leaf is smaller it
compares with the bytes `front` in front of the first key; if they are the key, it writes over the
header of the page, which `none` stands for. -/
def deleteEntryPins (L : IxLayout κ) (front : IxNode κ → κ) (s : IxFile κ) (key : κ) :
    Option (List (Event PageNo) × IxFile κ) :=
  (findLeafPage L s key).bind fun p =>
    (s.pages p).bind fun leaf =>
      let path := findLeafPins L s key
      match leaf.lowerBound L key with
      | none => if front leaf = key then none else some (path, s)
      | some pos =>
        if leaf.getKey L pos = key then
          let erased := s.write p (leaf.erasePair pos)
          (coalesceOrRedistribute L s.nextPageNo.toNat erased p).map fun s' =>
            (path ++ coalesceUpPins L s.nextPageNo.toNat erased p, s')
        else some (path, s)

/-- `get_value` returns early where every key of the leaf is smaller. -/
def getValuePins (L : IxLayout κ) (s : IxFile κ) (key : κ) : Option (List (Event PageNo)) :=
  (findLeafPage L s key).bind fun p =>
    (s.pages p).map fun leaf =>
      findLeafPins L s key ++ if leaf.lowerBound L key = none then [] else [.unpin p]

omit [LinearOrder κ] in
def leafEndPins (s : IxFile κ) : List (Event PageNo) :=
  if s.lastLeaf = IX_NO_PAGE then [] else touchPins s.lastLeaf

omit [LinearOrder κ] in
/-- What `leaf_end` returns; the leaf that `create_index` writes has no entry. -/
def endIid (s : IxFile κ) : Iid := s.leafEnd.getD ⟨s.lastLeaf, 0⟩

def getKeyPins (s : IxFile κ) (iid : Iid) : Option (List (Event PageNo)) :=
  if iid = s.endIid then some s.leafEndPins
  else
    (s.pages iid.pageNo).map fun node =>
      s.leafEndPins ++
        .pin iid.pageNo :: if node.size ≤ iid.slotNo then [] else [.unpin iid.pageNo]

/-- `minus_one` unpins the page it comes to, before and after it is fetched. -/
def minusOnePins (s : IxFile κ) (iid : Iid) : Option (List (Event PageNo)) :=
  if iid = s.leafBegin then some []
  else if iid.slotNo = 0 then
    (s.pages iid.pageNo).bind fun node =>
      (s.pages node.prevLeaf).map fun _ =>
        [.pin iid.pageNo, .unpin node.prevLeaf, .pin node.prevLeaf, .unpin node.prevLeaf]
  else some []

end IxFile

variable {cols : List IxCol}

inductive IxCall (cols : List IxCol) where
  | insertEntry (key : IxKey cols) (value : Rid)
  | deleteEntry (key : IxKey cols)
  | getValue (key : IxKey cols)
  | lowerBound (key : IxKey cols)
  | lowerBoundValues (vals : List Value)
  | upperBound (key : IxKey cols)
  | upperBoundValues (vals : List Value)
  | getKey (iid : Iid)
  | minusOne (iid : Iid)
  | leafEnd
  | next (scan : IxScan)

namespace IxCall

open IxFile

/-- The events of a call and the file it leaves, when it returns or throws one of the two errors of
the index; every `fetch_page` finds a frame. `upper_bound` for bytes unpins its leaf twice. -/
def run (L : IxLayout (IxKey cols)) (front : IxNode (IxKey cols) → IxKey cols)
    (s : IxFile (IxKey cols)) : IxCall cols → Option (List (Event PageNo) × IxFile (IxKey cols))
  | insertEntry key value =>
    (IxFile.insertEntry L s key value).file.map fun s' => (insertEntryPins L s key value, s')
  | deleteEntry key => deleteEntryPins L front s key
  | getValue key => (getValuePins L s key).map fun es => (es, s)
  | lowerBound key => (findLeafPage L s key).map fun p => (findLeafPins L s key ++ [.unpin p], s)
  | upperBound key =>
    (findLeafPage L s key).map fun p => ((findLeafPins L s key ++ [.unpin p]) ++ [.unpin p], s)
  | lowerBoundValues vals | upperBoundValues vals =>
    (findLeafValues L s vals).map fun p =>
      (descendPins s (fun node => node.internalLookupValues L vals) s.nextPageNo.toNat s.rootPage ++
        [.unpin p], s)
  | getKey iid => (getKeyPins s iid).map fun es => (es, s)
  | minusOne iid => (minusOnePins s iid).map fun es => (es, s)
  | leafEnd => some (leafEndPins s, s)
  | next scan => (scan.next s).map fun _ => ([.pin scan.iid.pageNo, .pin scan.iid.pageNo], s)

/-- When a call gives back its pins: it splits a leaf without an error, takes out a stored key and
leaves the root where it is, finds a key that is not smaller, and so on. -/
def GivesBack (L : IxLayout (IxKey cols)) (s : IxFile (IxKey cols)) (pins : PageNo → Nat) :
    IxCall cols → Prop
  | insertEntry key _ =>
    s.isEmpty = true ∨
      ∃ p leaf, findLeafPage L s key = some p ∧ s.pages p = some leaf ∧ L.btreeOrder ≤ leaf.size ∧
        (∀ r, ¬ Stores s.tree key r) ∧ sentUp L s s.nextPageNo.toNat p key ≠ some L.zeroKey
  | deleteEntry key =>
    ∃ p leaf, findLeafPage L s key = some p ∧ s.pages p = some leaf ∧
      (∃ e ∈ leaf.entries, e.1 = key) ∧
        lowersRoot L s s.nextPageNo.toNat p (leaf.size - 1) = false
  | getValue key =>
    ∃ p leaf, findLeafPage L s key = some p ∧ s.pages p = some leaf ∧ ∃ e ∈ leaf.entries, key ≤ e.1
  | upperBound key => ∀ p, findLeafPage L s key = some p → pins p = 0
  | getKey iid => iid = s.endIid ∨ ∃ node, s.pages iid.pageNo = some node ∧ iid.slotNo < node.size
  | minusOne iid =>
    iid = s.leafBegin ∨ iid.slotNo ≠ 0 ∨
      ∃ node, s.pages iid.pageNo = some node ∧ node.prevLeaf = iid.pageNo
  | next _ => False
  | lowerBound _ | lowerBoundValues _ | upperBoundValues _ | leafEnd => True

variable {L : IxLayout (IxKey cols)} {front : IxNode (IxKey cols) → IxKey cols}
  {s s' : IxFile (IxKey cols)} {g : Labels PageNo (IxKey cols)} {ls : List PageNo}
  {key : IxKey cols} {value : Rid} {pins : PageNo → Nat} {es : List (Event PageNo)}

theorem insertEntry_iff (h : IsIndex L s)
    (hrun : (insertEntry key value).run L front s = some (es, s')) :
    (Neutral pins es ↔ (insertEntry key value).GivesBack L s pins) ∧
      ((insertEntry key value).GivesBack L s pins →
        IxFile.insertEntry L s key value = .returned s') := by
  obtain ⟨s₁, hfile, heq⟩ := Option.map_eq_some_iff.mp hrun
  cases heq
  have hends : IxFile.insertEntry L s key value ≠ .failed := by
    intro hfailed
    rw [hfailed] at hfile
    cases hfile
  obtain ⟨b, hheld, hiff⟩ := insertEntryPins_held hends
  have hreturned : (∃ s', IxFile.insertEntry L s key value = .returned s') →
      IxFile.insertEntry L s key value = .returned s' := by
    rintro ⟨s₂, hs₂⟩
    rw [hs₂] at hfile ⊢
    cases hfile
    rfl
  rw [hheld.neutral_iff, hiff]
  rcases h with h | ⟨g, ls, h⟩
  · have hempty : s.isEmpty = true := by simp [IxFile.isEmpty, h.rootPage]
    obtain ⟨s₂, g, ls, hs₂, -⟩ := h.insertEntry key value
    exact ⟨⟨fun _ => .inl hempty, fun _ => .inl hempty⟩, fun _ => hreturned ⟨s₂, hs₂⟩⟩
  · obtain ⟨p, n, low, high, c⟩ := h.exists_leafCut key
    have hempty := h.not_empty
    have hreturns : (∃ s', IxFile.insertEntry L s key value = .returned s') ↔ _ :=
      c.insertEntry_returns_iff h
    constructor
    · constructor
      · rintro (hnil | ⟨⟨q, leaf, hfind, hleaf, hfull⟩, hret⟩)
        · exact .inl hnil
        · cases Option.some.inj (hfind.symm.trans c.find)
          exact .inr ⟨p, leaf, hfind, hleaf, hfull, hreturns.mp hret⟩
      · rintro (hnil | ⟨q, leaf, hfind, hleaf, hfull, hout⟩)
        · exact .inl hnil
        · cases Option.some.inj (hfind.symm.trans c.find)
          exact .inr ⟨⟨p, leaf, hfind, hleaf, hfull⟩, hreturns.mpr hout⟩
    · rintro (hnil | ⟨q, leaf, hfind, -, -, hout⟩)
      · exact absurd hnil hempty
      · cases Option.some.inj (hfind.symm.trans c.find)
        exact hreturned (hreturns.mpr hout)

theorem deleteEntry_iff (h : IsIndex L s)
    (hrun : (deleteEntry key).run L front s = some (es, s')) :
    (Neutral pins es ↔ (deleteEntry key).GivesBack L s pins) ∧
      ((deleteEntry key).GivesBack L s pins → IxFile.deleteEntry L s key = some s') := by
  simp only [run, deleteEntryPins] at hrun
  rcases h with h | ⟨g, ls, h⟩
  · rw [h.findLeafPage] at hrun
    cases hrun
  obtain ⟨p, n, low, high, c⟩ := h.exists_leafCut key
  have hpath := findLeafPins_held c.find
  have hkept : Neutral pins (findLeafPins L s key) ↔ False := by
    rw [hpath.neutral_iff, iff_false]
    exact Multiset.singleton_ne_zero p
  have hgives : (deleteEntry key).GivesBack L s pins ↔ (∃ e rest, high = e :: rest ∧ e.1 = key) ∧
      lowersRoot L s s.nextPageNo.toNat p (n.size - 1) = false := by
    rw [← c.holds_iff h]
    constructor
    · rintro ⟨q, leaf, hfind, hleaf, hout⟩
      cases Option.some.inj (hfind.symm.trans c.find)
      cases Option.some.inj (hleaf.symm.trans c.page)
      exact hout
    · intro hout
      exact ⟨p, n, c.find, c.page, hout⟩
  simp only [c.find, Option.bind_some, c.page, c.lowerBound h] at hrun
  rw [hgives]
  cases high with
  | nil =>
    simp only [if_true] at hrun
    split at hrun
    · cases hrun
    · cases hrun
      simp [hkept]
  | cons e rest =>
    have hkey : n.getKey L low.length = e.1 := IxNode.getKey_eq L c.entries
    simp only [List.cons_ne_nil, if_false, hkey] at hrun
    split at hrun
    next he =>
      obtain ⟨s₁, hs₁, heq⟩ := Option.map_eq_some_iff.mp hrun
      cases heq
      obtain ⟨b, hb, hiff⟩ := c.deletePins_held h
      refine ⟨?_, fun _ => ?_⟩
      · rw [(hpath.append hb).neutral_iff, hiff]
        exact ⟨fun hfalse => ⟨⟨e, rest, rfl, he⟩, hfalse⟩, And.right⟩
      · have hbound := c.lowerBound h
        rw [if_neg (List.cons_ne_nil e rest)] at hbound
        simp only [IxFile.deleteEntry, c.find, Option.bind_some, c.page, hbound, hkey, if_pos he]
        exact hs₁
    next he =>
      cases hrun
      simp [hkept, he]

theorem getValue_iff (h : IsIndex L s) (hrun : (getValue key).run L front s = some (es, s')) :
    Neutral pins es ↔ (getValue key).GivesBack L s pins := by
  obtain ⟨es', hes, heq⟩ := Option.map_eq_some_iff.mp hrun
  cases heq
  rcases h with h | ⟨g, ls, h⟩
  · rw [getValuePins, h.findLeafPage] at hes
    cases hes
  obtain ⟨p, n, low, high, c⟩ := h.exists_leafCut key
  have hpath := findLeafPins_held c.find
  simp only [getValuePins, c.find, Option.bind_some, c.page, Option.map_some, c.lowerBound h] at hes
  have hgives : (getValue key).GivesBack L s pins ↔ high ≠ [] := by
    constructor
    · rintro ⟨q, leaf, hfind, hleaf, e, he, hle⟩ rfl
      cases Option.some.inj (hfind.symm.trans c.find)
      cases Option.some.inj (hleaf.symm.trans c.page)
      rw [c.entries, List.append_nil] at he
      exact absurd (c.below e he) (not_lt.mpr hle)
    · intro hne
      obtain ⟨e, rest, rfl⟩ := List.exists_cons_of_ne_nil hne
      exact ⟨p, n, c.find, c.page, e, by simp [c.entries], c.above e List.mem_cons_self⟩
  rw [hgives]
  by_cases hnil : high = []
  · rw [if_pos hnil, if_pos rfl] at hes
    cases hes
    rw [(hpath.append (.nil _)).neutral_iff]
    simp [hnil]
  · rw [if_neg hnil, if_neg (Option.some_ne_none _)] at hes
    cases hes
    rw [(hpath.append (.unpin (.nil 0))).neutral_iff]
    simp [hnil]

theorem leafEndPins_held (s : IxFile (IxKey cols)) (a : Multiset PageNo) :
    Held a s.leafEndPins a := by
  unfold leafEndPins
  split
  · exact .nil a
  · exact .touch _ a

theorem getKey_iff {iid : Iid} (hrun : (getKey iid).run L front s = some (es, s')) :
    Neutral pins es ↔ (getKey iid).GivesBack L s pins := by
  obtain ⟨es', hes, heq⟩ := Option.map_eq_some_iff.mp hrun
  cases heq
  have hend := leafEndPins_held s 0
  unfold getKeyPins at hes
  split at hes
  next hiid =>
    cases hes
    rw [hend.neutral_iff]
    exact ⟨fun _ => .inl hiid, fun _ => rfl⟩
  next hiid =>
    obtain ⟨node, hnode, rfl⟩ := Option.map_eq_some_iff.mp hes
    have hgives : (getKey iid).GivesBack L s pins ↔ iid.slotNo < node.size := by
      constructor
      · rintro (heq | ⟨node', hnode', hlt⟩)
        · exact absurd heq hiid
        · cases Option.some.inj (hnode.symm.trans hnode')
          exact hlt
      · intro hlt
        exact .inr ⟨node, hnode, hlt⟩
    rw [hgives]
    by_cases hslot : node.size ≤ iid.slotNo
    · rw [if_pos hslot, (hend.append (.pin (.nil _))).neutral_iff]
      simp [hslot]
    · rw [if_neg hslot, (hend.append (.touch iid.pageNo 0)).neutral_iff]
      simpa using hslot

theorem minusOne_iff {iid : Iid} (hrun : (minusOne iid).run L front s = some (es, s')) :
    Neutral pins es ↔ (minusOne iid).GivesBack L s pins := by
  obtain ⟨es', hes, heq⟩ := Option.map_eq_some_iff.mp hrun
  cases heq
  have hnone : Neutral pins [] := ((Held.nil 0).neutral_iff pins).mpr rfl
  unfold minusOnePins at hes
  split at hes
  next hbegin =>
    cases hes
    exact ⟨fun _ => .inl hbegin, fun _ => hnone⟩
  next hbegin =>
    split at hes
    next hslot =>
      obtain ⟨node, hnode, hes⟩ := Option.bind_eq_some_iff.mp hes
      obtain ⟨prev, -, rfl⟩ := Option.map_eq_some_iff.mp hes
      have hgives : (minusOne iid).GivesBack L s pins ↔ node.prevLeaf = iid.pageNo := by
        constructor
        · rintro (heq | hne | ⟨node', hnode', hself⟩)
          · exact absurd heq hbegin
          · exact absurd hslot hne
          · cases Option.some.inj (hnode.symm.trans hnode')
            exact hself
        · intro hself
          exact .inr (.inr ⟨node, hnode, hself⟩)
      rw [hgives]
      constructor
      · intro hneutral
        by_contra hne
        have hleft := congrFun hneutral.same iid.pageNo
        simp [after, apply, Ne.symm hne] at hleft
      · intro hself
        rw [hself]
        exact (((Held.touch iid.pageNo 0).append (.touch iid.pageNo 0)).neutral_iff pins).mpr rfl
    next hslot =>
      cases hes
      exact ⟨fun _ => .inr (.inl hslot), fun _ => hnone⟩

/-- A call leaves all pin counts as they were exactly when it meets its condition. -/
theorem neutral_iff (h : IsIndex L s) {c : IxCall cols} (hrun : c.run L front s = some (es, s')) :
    Neutral pins es ↔ c.GivesBack L s pins := by
  cases c with
  | insertEntry key value => exact (insertEntry_iff h hrun).1
  | deleteEntry key => exact (deleteEntry_iff h hrun).1
  | getValue key => exact getValue_iff h hrun
  | lowerBound key =>
    obtain ⟨p, hp, heq⟩ := Option.map_eq_some_iff.mp hrun
    cases heq
    rw [((findLeafPins_held hp).append (.unpin (.nil 0))).neutral_iff]
    simp [GivesBack]
  | lowerBoundValues vals =>
    obtain ⟨p, hp, heq⟩ := Option.map_eq_some_iff.mp hrun
    cases heq
    have hpath := descendPins_held (fun _ => rfl) (fun _ _ => rfl) hp
    rw [(hpath.append (.unpin (.nil 0))).neutral_iff]
    simp [GivesBack]
  | upperBoundValues vals =>
    obtain ⟨p, hp, heq⟩ := Option.map_eq_some_iff.mp hrun
    cases heq
    have hpath := descendPins_held (fun _ => rfl) (fun _ _ => rfl) hp
    rw [(hpath.append (.unpin (.nil 0))).neutral_iff]
    simp [GivesBack]
  | upperBound key =>
    obtain ⟨p, hp, heq⟩ := Option.map_eq_some_iff.mp hrun
    cases heq
    rw [((findLeafPins_held hp).append (.unpin (.nil 0))).neutral_unpin_iff]
    simp [GivesBack, hp]
  | getKey iid => exact getKey_iff hrun
  | minusOne iid => exact minusOne_iff hrun
  | leafEnd =>
    cases hrun
    rw [(leafEndPins_held s 0).neutral_iff]
    simp [GivesBack]
  | next scan =>
    obtain ⟨scan', -, heq⟩ := Option.map_eq_some_iff.mp hrun
    cases heq
    have htwice : Held 0 [.pin scan.iid.pageNo, .pin scan.iid.pageNo]
        (scan.iid.pageNo ::ₘ {scan.iid.pageNo}) := .pin (.pin (.nil _))
    rw [htwice.neutral_iff]
    simp [GivesBack]

/-- A file and the pin counts after calls that all meet their condition. -/
inductive GivingRun (L : IxLayout (IxKey cols)) (front : IxNode (IxKey cols) → IxKey cols)
    (s₀ : IxFile (IxKey cols)) (pins₀ : PageNo → Nat) :
    IxFile (IxKey cols) → (PageNo → Nat) → Prop where
  | start : GivingRun L front s₀ pins₀ s₀ pins₀
  | call {s s' : IxFile (IxKey cols)} {pins : PageNo → Nat} {c : IxCall cols}
      {es : List (Event PageNo)} (h : GivingRun L front s₀ pins₀ s pins)
      (hrun : c.run L front s = some (es, s')) (hgives : c.GivesBack L s pins) :
      GivingRun L front s₀ pins₀ s' (after pins es)

theorem indexRun (h : IndexRun L s) {c : IxCall cols} (hrun : c.run L front s = some (es, s'))
    (hgives : c.GivesBack L s pins) : IndexRun L s' := by
  cases c with
  | insertEntry key value => exact h.insert ((insertEntry_iff h.isIndex hrun).2 hgives)
  | deleteEntry key => exact h.delete ((deleteEntry_iff h.isIndex hrun).2 hgives)
  | leafEnd =>
    cases hrun
    exact h
  | getValue | lowerBound | lowerBoundValues | upperBound | upperBoundValues | getKey | minusOne
    | next =>
    obtain ⟨_, _, heq⟩ := Option.map_eq_some_iff.mp hrun
    cases heq
    exact h

end IxCall

/-- Calls that meet their conditions leave all pin counts as they were, whatever their number, and
where they lead a call is neutral exactly when it meets its condition. -/
theorem indexPins_neutral_iff {L : IxLayout (IxKey cols)} {front : IxNode (IxKey cols) → IxKey cols}
    {s₀ s : IxFile (IxKey cols)} {pins₀ pins : PageNo → Nat} (h : IndexRun L s₀)
    (hrun : IxCall.GivingRun L front s₀ pins₀ s pins) :
    pins = pins₀ ∧ ∀ c es s', IxCall.run L front s c = some (es, s') →
      (Neutral pins es ↔ c.GivesBack L s pins) := by
  have hkeeps : IndexRun L s ∧ pins = pins₀ := by
    induction hrun with
    | start => exact ⟨h, rfl⟩
    | call _ hcall hgives ih =>
      refine ⟨IxCall.indexRun ih.1 hcall hgives, ?_⟩
      rw [((IxCall.neutral_iff ih.1.isIndex hcall).mpr hgives).same]
      exact ih.2
  exact ⟨hkeeps.2, fun c es s' hcall => IxCall.neutral_iff hkeeps.1.isIndex hcall⟩

/-- A full leaf, a split, a lookup and a deletion. -/
theorem indexPins_neutral_iff_spread :
    ∃ s₀ s root pins, IxFile.insertAll wideLayout (IxFile.create _) (spreadEntries.take 6) =
        some s₀ ∧
      IxCall.GivingRun wideLayout (fun _ => IxKey.zero _) s₀ (fun _ => 0) s pins ∧
      s.pages s.rootPage = some root ∧ root.isLeaf = false ∧
      (pins = (fun _ => 0) ∧ ∀ c es s', IxCall.run wideLayout (fun _ => IxKey.zero _) s c =
        some (es, s') → (Neutral pins es ↔ c.GivesBack wideLayout s pins)) := by
  have hrun : ((IxFile.insertAll wideLayout (IxFile.create _) (spreadEntries.take 6)).any fun s₀ =>
      ((IxFile.findLeafPage wideLayout s₀ (wideKey 15 0)).any fun p =>
        (s₀.pages p).any fun leaf => decide (wideLayout.btreeOrder ≤ leaf.size ∧
          IxFile.sentUp wideLayout s₀ s₀.nextPageNo.toNat p (wideKey 15 0) ≠
            some wideLayout.zeroKey)) &&
      (IxCall.run wideLayout (fun _ => IxKey.zero _) s₀
        (.insertEntry (wideKey 15 0) ⟨2, 0⟩)).any fun r₁ =>
        ((IxFile.findLeafPage wideLayout r₁.2 (wideKey 9 0)).any fun p =>
          (r₁.2.pages p).any fun leaf => decide ((∃ e ∈ leaf.entries, e.1 = wideKey 9 0) ∧
            IxFile.lowersRoot wideLayout r₁.2 r₁.2.nextPageNo.toNat p (leaf.size - 1) = false)) &&
        (IxFile.getValuePins wideLayout r₁.2 (wideKey 9 0)).any fun _ =>
          (IxCall.run wideLayout (fun _ => IxKey.zero _) r₁.2 (.deleteEntry (wideKey 9 0))).any
            fun r₂ => (r₂.2.pages r₂.2.rootPage).any fun root => !root.isLeaf) = true := by
    decide +kernel
  obtain ⟨s₀, hs₀, hrun⟩ := (Option.any_eq_true _ _).mp hrun
  obtain ⟨hfull, hrun⟩ := Bool.and_eq_true_iff.mp hrun
  obtain ⟨p₀, hp₀, hfull⟩ := (Option.any_eq_true _ _).mp hfull
  obtain ⟨leaf₀, hleaf₀, hfull⟩ := (Option.any_eq_true _ _).mp hfull
  obtain ⟨hsize, hsent⟩ := of_decide_eq_true hfull
  obtain ⟨⟨es₁, s₁⟩, hinsert, hrun⟩ := (Option.any_eq_true _ _).mp hrun
  obtain ⟨hthere, hrun⟩ := Bool.and_eq_true_iff.mp hrun
  obtain ⟨p₁, hp₁, hthere⟩ := (Option.any_eq_true _ _).mp hthere
  obtain ⟨leaf₁, hleaf₁, hthere⟩ := (Option.any_eq_true _ _).mp hthere
  obtain ⟨hmem, hstays⟩ := of_decide_eq_true hthere
  obtain ⟨es₂, hvalue, hrun⟩ := (Option.any_eq_true _ _).mp hrun
  obtain ⟨⟨es₃, s₂⟩, hdelete, hrun⟩ := (Option.any_eq_true _ _).mp hrun
  obtain ⟨root, hroot, hinner⟩ := (Option.any_eq_true _ _).mp hrun
  have hempty := IxFile.create_emptied wideLayout
  have hnone : ∀ r, ¬ Stores s₀.tree (wideKey 15 0) r := by
    intro r hr
    have hkeys : wideKey 15 0 ∉ (spreadEntries.take 6).map Prod.fst := by decide +kernel
    have hstores := (IsIndex.insertAll (.inl hempty) hs₀).2
    exact hkeys (List.mem_map_of_mem (((hstores _ _).mp hr).resolve_left hempty.stores))
  have hlookup : IxCall.run wideLayout (fun _ => IxKey.zero _) s₁ (.getValue (wideKey 9 0)) =
      some (es₂, s₁) := by
    rw [IxCall.run, hvalue, Option.map_some]
  obtain ⟨e, he, hkey⟩ := hmem
  have hgiving : IxCall.GivingRun wideLayout (fun _ => IxKey.zero _) s₀ (fun _ => 0) s₂ _ :=
    .call (.call (.call .start hinsert (.inr ⟨p₀, leaf₀, hp₀, hleaf₀, hsize, hnone, hsent⟩)) hlookup
      ⟨p₁, leaf₁, hp₁, hleaf₁, e, he, hkey.ge⟩) hdelete ⟨p₁, leaf₁, hp₁, hleaf₁, ⟨e, he, hkey⟩, hstays⟩
  exact ⟨s₀, s₂, root, _, hs₀, hgiving, hroot, by simpa using hinner,
    indexPins_neutral_iff (.insertAll .create hs₀) hgiving⟩

/-- The second insertion goes into a leaf with room, which stays pinned. -/
theorem insertEntry_keepsPin :
    ∃ s es s', IndexRun (IxLayout.ofCols [.int] (by decide)) s ∧
      IxCall.run (IxLayout.ofCols [.int] (by decide)) (fun _ => IxKey.zero _) s
        (.insertEntry (smallKey 7) ⟨1, 1⟩) = some (es, s') ∧
      after (fun _ => 0) es 3 = 1 ∧ ¬ Neutral (fun _ => 0) es := by
  have hrun : ((IxFile.insertEntry (IxLayout.ofCols [.int] (by decide)) (IxFile.create _)
      (smallKey 5) ⟨1, 0⟩).file.bind (fun s =>
        IxCall.run (IxLayout.ofCols [.int] (by decide)) (fun _ => IxKey.zero _) s
          (.insertEntry (smallKey 7) ⟨1, 1⟩))).any
      (fun r => decide (after (fun _ => 0) r.1 3 = 1)) = true := by decide +kernel
  obtain ⟨s, g, ls, hfirst, -⟩ := (IxFile.create_emptied (IxLayout.ofCols [.int]
    (by decide))).insertEntry (smallKey 5) ⟨1, 0⟩
  obtain ⟨r, hr, hpinned⟩ := (Option.any_eq_true _ _).mp hrun
  have hsecond : IxCall.run (IxLayout.ofCols [.int] (by decide)) (fun _ => IxKey.zero _) s
      (.insertEntry (smallKey 7) ⟨1, 1⟩) = some r := by
    rw [hfirst] at hr
    exact hr
  have hpin := of_decide_eq_true hpinned
  refine ⟨s, r.1, r.2, .insert .create hfirst, hsecond, hpin, fun hneutral => ?_⟩
  rw [hneutral.same] at hpin
  cases hpin

end Grmdb
