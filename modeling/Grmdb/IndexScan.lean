import Grmdb.IndexTree

namespace Grmdb

open PagedTree Tiling

/-- A place in the leaves of an index. -/
structure Iid where
  pageNo : PageNo
  slotNo : Nat
  deriving DecidableEq, Repr

variable {κ : Type}

namespace IxFile

/-- How `lower_bound` and `upper_bound` name what they found in the leaf of page `p`. -/
def boundIid (s : IxFile κ) (p : PageNo) (leaf : IxNode κ) : Option Nat → Iid
  | some index => ⟨p, index⟩
  | none => if p = s.lastLeaf then ⟨p, leaf.size⟩ else ⟨leaf.nextLeaf, 0⟩

def leafBegin (s : IxFile κ) : Iid := ⟨s.firstLeaf, 0⟩

/-- The page 2 of a new file is a leaf without entries and not a page of the tree. -/
def leafEnd (s : IxFile κ) : Option Iid :=
  if s.lastLeaf = IX_NO_PAGE then some ⟨IX_NO_PAGE, 0⟩
  else some ⟨s.lastLeaf, ((s.pages s.lastLeaf).map IxNode.size).getD 0⟩

/-- `get_rid`, where `none` is `IndexEntryNotFoundError`. -/
def getRid (L : IxLayout κ) (s : IxFile κ) (iid : Iid) : Option Rid :=
  (s.pages iid.pageNo).bind fun node =>
    if node.size ≤ iid.slotNo then none else some (node.getRid L iid.slotNo)

variable [LinearOrder κ]

def lowerBound (L : IxLayout κ) (s : IxFile κ) (key : κ) : Option Iid :=
  (s.findLeafPage L key).bind fun p =>
    (s.pages p).map fun leaf => s.boundIid p leaf (leaf.lowerBound L key)

def upperBound (L : IxLayout κ) (s : IxFile κ) (key : κ) : Option Iid :=
  (s.findLeafPage L key).bind fun p =>
    (s.pages p).map fun leaf => s.boundIid p leaf (leaf.upperBound L key)

end IxFile

structure IxScan where
  iid : Iid
  stop : Iid

namespace IxScan

def isEnd (c : IxScan) : Bool := c.iid = c.stop

/-- `none` is an assertion that fails. -/
def next (s : IxFile κ) (c : IxScan) : Option IxScan :=
  (s.pages c.iid.pageNo).bind fun node =>
    if c.isEnd ∨ !node.isLeaf ∨ node.size ≤ c.iid.slotNo then none
    else if c.iid.pageNo ≠ s.lastLeaf ∧ c.iid.slotNo + 1 = node.size then
      some { c with iid := ⟨node.nextLeaf, 0⟩ }
    else some { c with iid := ⟨c.iid.pageNo, c.iid.slotNo + 1⟩ }

def rid (L : IxLayout κ) (s : IxFile κ) (c : IxScan) : Option Rid := s.getRid L c.iid

/-- The rids that a caller reads with `is_end`, `rid` and `next`, if that takes no more rounds
than `fuel`. -/
def rids (L : IxLayout κ) (s : IxFile κ) : Nat → IxScan → Option (List Rid)
  | 0, c => if c.isEnd then some [] else none
  | fuel + 1, c =>
    if c.isEnd then some []
    else (c.rid L s).bind fun rid => (c.next s).bind fun c => (rids L s fuel c).map (rid :: ·)

end IxScan

namespace IxFile

/-- The pairs of the page, if it is there. -/
def entriesOf (s : IxFile κ) (p : PageNo) : List (κ × Rid) :=
  ((s.pages p).map IxNode.entries).getD []

def pairs (s : IxFile κ) (ls : List PageNo) : List (κ × Rid) := ls.flatMap s.entriesOf

/-- `iid` names the place between `front` and `rest` in the pairs of the leaves. The place behind
the last pair of a leaf has the name of the next leaf, if there is one. -/
def Names (s : IxFile κ) (ls : List PageNo) (front rest : List (κ × Rid)) (iid : Iid) : Prop :=
  ∃ ls₁ p ls₂ es₁ es₂, ls = ls₁ ++ p :: ls₂ ∧ s.entriesOf p = es₁ ++ es₂ ∧
    front = s.pairs ls₁ ++ es₁ ∧ rest = es₂ ++ s.pairs ls₂ ∧ iid = ⟨p, es₁.length⟩ ∧
    (es₂ = [] → ls₂ = [])

theorem pairs_append (s : IxFile κ) (ls ls' : List PageNo) :
    s.pairs (ls ++ ls') = s.pairs ls ++ s.pairs ls' := List.flatMap_append

theorem pairs_cons (s : IxFile κ) (p : PageNo) (ls : List PageNo) :
    s.pairs (p :: ls) = s.entriesOf p ++ s.pairs ls := rfl

theorem Names.pairs_eq {s : IxFile κ} {ls : List PageNo} {front rest : List (κ × Rid)} {iid : Iid}
    (h : s.Names ls front rest iid) : s.pairs ls = front ++ rest := by
  obtain ⟨ls₁, p, ls₂, es₁, es₂, rfl, hes, rfl, rfl, -, -⟩ := h
  simp [pairs_append, pairs_cons, hes]

/-- A place has one name. -/
theorem Names.iid_eq {s : IxFile κ} {ls : List PageNo} {front rest rest' : List (κ × Rid)}
    {iid iid' : Iid} (h : s.Names ls front rest iid) (h' : s.Names ls front rest' iid') :
    iid = iid' := by
  obtain ⟨ls₁, p, ls₂, es₁, es₂, rfl, hes, hfront, -, rfl, hend⟩ := h
  obtain ⟨ls₁', p', ls₂', es₁', es₂', hls, hes', hfront', -, rfl, hend'⟩ := h'
  -- the leaf of one name lies before the other leaf only if nothing is left in it
  have before : ∀ {ls₁ p ls₂ es₁ es₂ ls₁' p' ls₂'} {es₁' : List (κ × Rid)} {x : List PageNo},
      s.entriesOf p = es₁ ++ es₂ → (es₂ = [] → ls₂ = []) → ls₁' = ls₁ ++ p :: x →
      p :: ls₂ = p :: x ++ p' :: ls₂' → s.pairs ls₁ ++ es₁ = s.pairs ls₁' ++ es₁' → False := by
    intro ls₁ p ls₂ es₁ es₂ ls₁' p' ls₂' es₁' x hes hend hls hcons heq
    rw [hls, pairs_append, pairs_cons, hes] at heq
    simp only [List.append_assoc, List.append_cancel_left_eq, List.self_eq_append_right,
      List.append_eq_nil_iff] at heq
    rw [hend heq.1] at hcons
    simp at hcons
  rcases List.append_eq_append_iff.mp hls with ⟨x, hx, hcons⟩ | ⟨x, hx, hcons⟩
  · cases x with
    | nil =>
      simp only [List.append_nil, List.nil_append, List.cons.injEq] at hx hcons
      obtain ⟨rfl, rfl⟩ := hcons
      rw [hx, hfront] at hfront'
      rw [List.append_cancel_left hfront']
    | cons y x =>
      simp only [List.cons_append, List.cons.injEq] at hcons
      obtain ⟨rfl, hcons⟩ := hcons
      exact (before hes hend hx (by rw [hcons]; rfl) (hfront.symm.trans hfront')).elim
  · cases x with
    | nil =>
      simp only [List.append_nil, List.nil_append, List.cons.injEq] at hx hcons
      obtain ⟨rfl, rfl⟩ := hcons
      rw [← hx, hfront] at hfront'
      rw [List.append_cancel_left hfront']
    | cons y x =>
      simp only [List.cons_append, List.cons.injEq] at hcons
      obtain ⟨rfl, hcons⟩ := hcons
      exact (before hes' hend' hx (by rw [hcons]; rfl) (hfront'.symm.trans hfront)).elim

/-- A name has one place. -/
theorem Names.front_eq {s : IxFile κ} {ls : List PageNo} {front rest front' rest' : List (κ × Rid)}
    {iid : Iid} (hls : ls.Nodup) (h : s.Names ls front rest iid)
    (h' : s.Names ls front' rest' iid) : front = front' := by
  obtain ⟨ls₁, p, ls₂, es₁, es₂, rfl, hes, rfl, -, rfl, -⟩ := h
  obtain ⟨ls₁', p', ls₂', es₁', es₂', heq, hes', rfl, -, hiid, -⟩ := h'
  simp only [Iid.mk.injEq] at hiid
  obtain ⟨rfl, hlen⟩ := hiid
  have hmid := List.nodup_middle.mp hls
  rw [List.nodup_cons, List.mem_append, not_or] at hmid
  obtain ⟨rfl, -⟩ := (List.append_cons_inj_of_notMem hmid.1.1 hmid.1.2).mp heq
  rw [hes] at hes'
  rw [(List.append_inj hes' hlen).1]

end IxFile

theorem entriesOf_eq {s : IxFile κ} {p : PageNo} {n : IxNode κ} (hp : s.pages p = some n) :
    s.entriesOf p = n.entries := by
  simp [IxFile.entriesOf, hp]

namespace BTree

variable [LinearOrder κ] {s : IxFile κ} {g : Labels PageNo κ} {ls ls₁ ls₂ : List PageNo}
  {p q : PageNo} {n : IxNode κ}

theorem mem_leaves (h : BTree s g ls) : p ∈ ls ↔ ∃ n, s.pages p = some n ∧ n.isLeaf = true := by
  rw [h.chain.leaves]
  constructor
  · rintro ⟨l, hl⟩
    obtain ⟨v, hv, hlinks⟩ := Option.bind_eq_some_iff.mp hl
    obtain ⟨n, hn, rfl⟩ := IxFile.tree_eq_some.mp hv
    refine ⟨n, hn, ?_⟩
    cases hleaf : n.isLeaf with
    | true => rfl
    | false => simp [IxNode.view_inner hleaf, PNode.links] at hlinks
  · rintro ⟨n, hn, hleaf⟩
    refine ⟨(n.prevLeaf, n.nextLeaf), ?_⟩
    simp [linksOf, IxFile.tree, hn, IxNode.view_leaf hleaf, PNode.links]

theorem nextLeaf_eq (h : BTree s g (ls₁ ++ p :: q :: ls₂)) (hp : s.pages p = some n)
    (hleaf : n.isLeaf = true) : n.nextLeaf = q := by
  obtain ⟨a, b, hl, -⟩ := h.chain.next_eq
  simp only [linksOf, IxFile.tree, hp, Option.map_some, Option.bind_some, IxNode.view_leaf hleaf,
    PNode.links, Option.some.injEq, Prod.mk.injEq] at hl
  exact hl.2

theorem eq_lastLeaf_iff (h : BTree s g (ls₁ ++ p :: ls₂)) : p = s.lastLeaf ↔ ls₂ = [] := by
  constructor
  · intro hp
    obtain ⟨m, -, -, -, hrest⟩ := tiles_append.mp h.chain.tiles
    rw [hp, h.chain.last_hi] at hrest
    cases ls₂ with
    | nil => rfl
    | cons q ls₂ => exact absurd (hrest.2.1.trans_le hrest.2.2.le) not_top_lt
  · rintro rfl
    exact h.chain.last_eq.symm

theorem entriesOf_ne_nil (h : BTree s g ls) (hp : p ∈ ls) : s.entriesOf p ≠ [] := by
  obtain ⟨n, hn, hleaf⟩ := h.mem_leaves.mp hp
  rw [entriesOf_eq hn]
  exact h.leaf hn hleaf

/-- The pairs behind the end of a leaf start in the next one. -/
theorem names_next (h : BTree s g (ls₁ ++ p :: q :: ls₂)) {front : List (κ × Rid)}
    (hfront : front = s.pairs ls₁ ++ s.entriesOf p) :
    s.Names (ls₁ ++ p :: q :: ls₂) front (s.pairs (q :: ls₂)) ⟨q, 0⟩ := by
  have hne := h.entriesOf_ne_nil (show q ∈ ls₁ ++ p :: q :: ls₂ by simp)
  refine ⟨ls₁ ++ [p], q, ls₂, [], s.entriesOf q, by simp, rfl, ?_, rfl, rfl,
    fun hnil => absurd hnil hne⟩
  rw [hfront, IxFile.pairs_append]
  simp [IxFile.pairs]

/-- `rid` and `next` at a place in front of a pair. -/
theorem step (h : BTree s g ls) (L : IxLayout κ) {front rest : List (κ × Rid)} {e : κ × Rid}
    {c : IxScan} (hc : s.Names ls front (e :: rest) c.iid) (hend : c.isEnd = false) :
    c.rid L s = some e.2 ∧ ∃ iid, c.next s = some { c with iid := iid } ∧
      s.Names ls (front ++ [e]) rest iid := by
  obtain ⟨ls₁, p, ls₂, es₁, es₂, rfl, hes, hfront, hrest, hiid, hlast⟩ := hc
  cases es₂ with
  | nil =>
    rw [hlast rfl] at hrest
    simp [IxFile.pairs] at hrest
  | cons e' es₂ =>
    simp only [List.cons_append, List.cons.injEq] at hrest
    obtain ⟨rfl, rfl⟩ := hrest
    obtain ⟨n, hn, hleaf⟩ := h.mem_leaves.mp (show p ∈ ls₁ ++ p :: ls₂ by simp)
    rw [entriesOf_eq hn] at hes
    have hsize : n.size = es₁.length + 1 + es₂.length := by
      simp [IxNode.size, hes]
      omega
    have hlt : ¬ n.size ≤ es₁.length := by omega
    refine ⟨?_, ?_⟩
    · simp [IxScan.rid, IxFile.getRid, hiid, hn, hlt, IxNode.getRid_eq L hes]
    · have hfront' : front ++ [e] = s.pairs ls₁ ++ (es₁ ++ [e]) := by simp [hfront]
      simp only [IxScan.next, hiid, hn, Option.bind_some, hend, hleaf, hlt, Bool.false_eq_true,
        Bool.not_true, or_self, if_false]
      split
      next hwrap =>
        obtain ⟨hne, hfull⟩ := hwrap
        have hes₂ : es₂ = [] := List.length_eq_zero_iff.mp (by omega)
        subst hes₂
        cases ls₂ with
        | nil => exact absurd (h.eq_lastLeaf_iff.mpr rfl) hne
        | cons q ls₂ =>
          refine ⟨_, rfl, ?_⟩
          rw [h.nextLeaf_eq hn hleaf]
          exact h.names_next (by rw [hfront', entriesOf_eq hn, hes])
      next hstay =>
        refine ⟨_, rfl, ls₁, p, ls₂, es₁ ++ [e], es₂, rfl, ?_, hfront', rfl, by simp, ?_⟩
        · simp [entriesOf_eq hn, hes]
        · rintro rfl
          rw [← h.eq_lastLeaf_iff]
          by_contra hne
          exact hstay ⟨hne, by simpa using hsize.symm⟩

/-- The scan from one place to a later one reads the pairs between. -/
theorem rids_between (h : BTree s g ls) (L : IxLayout κ) {front mid rest : List (κ × Rid)}
    {c : IxScan} (hc : s.Names ls front (mid ++ rest) c.iid)
    (hstop : s.Names ls (front ++ mid) rest c.stop) {fuel : Nat} (hfuel : mid.length ≤ fuel) :
    c.rids L s fuel = some (mid.map Prod.snd) := by
  induction mid generalizing front c fuel with
  | nil =>
    rw [List.append_nil] at hstop
    have hend : c.isEnd = true := by simpa [IxScan.isEnd] using hc.iid_eq hstop
    cases fuel <;> simp [IxScan.rids, hend]
  | cons e mid ih =>
    have hend : c.isEnd = false := by
      simp only [IxScan.isEnd, decide_eq_false_iff_not]
      intro heq
      rw [← heq] at hstop
      have hsame := hc.front_eq h.chain.tiles.nodup hstop
      simp at hsame
    obtain ⟨hrid, iid, hnext, hnames⟩ := h.step L hc hend
    obtain ⟨fuel, rfl⟩ := Nat.exists_eq_add_of_le' (show 1 ≤ fuel by simp at hfuel; omega)
    have hrest := @ih (front ++ [e]) { c with iid := iid } hnames (by simpa using hstop) fuel
      (by simpa using hfuel)
    simp [IxScan.rids, hend, hrid, hnext, hrest]

theorem leaf_within (h : BTree s g ls) (hp : p ∈ ls) :
    Within (g.lo p) ((s.entriesOf p).map Prod.fst) (g.hi p) := by
  obtain ⟨n, hn, hleaf⟩ := h.mem_leaves.mp hp
  rw [entriesOf_eq hn]
  exact (IxFile.fits_leaf h.shape hn hleaf).2

theorem pairs_below (h : BTree s g (ls₁ ++ p :: ls₂)) {e : κ × Rid} (he : e ∈ s.pairs ls₁) :
    Bound.at e.1 < g.lo p := by
  obtain ⟨q, hq, heq⟩ := List.mem_flatMap.mp he
  have hlt := (h.leaf_within (List.mem_append_left _ hq)).lt e.1 (List.mem_map_of_mem heq)
  exact hlt.trans_le (h.chain.tiles.front_le hq)

theorem pairs_above (h : BTree s g (ls₁ ++ p :: ls₂)) {e : κ × Rid} (he : e ∈ s.pairs ls₂) :
    g.hi p ≤ Bound.at e.1 := by
  obtain ⟨q, hq, heq⟩ := List.mem_flatMap.mp he
  have hge := (h.leaf_within (show q ∈ ls₁ ++ p :: ls₂ by simp [hq])).ge e.1
    (List.mem_map_of_mem heq)
  exact (h.chain.tiles.le_back hq).trans hge

theorem tiles_within {a b : Bound κ} (htiles : Tiles g.lo g.hi a ls b)
    (h : ∀ p ∈ ls, Within (g.lo p) ((s.entriesOf p).map Prod.fst) (g.hi p)) :
    Within a ((s.pairs ls).map Prod.fst) b := by
  induction ls generalizing a with
  | nil => exact ⟨by simp [IxFile.pairs], by simp [IxFile.pairs], by simp [IxFile.pairs]⟩
  | cons p ls ih =>
    obtain ⟨hlo, hlt, hrest⟩ := htiles
    have hhead := h p List.mem_cons_self
    have htail := ih hrest fun q hq => h q (List.mem_cons_of_mem p hq)
    rw [IxFile.pairs_cons, List.map_append, ← hlo]
    exact hhead.append htail (hlo ▸ hlt.le) hrest.le

/-- The pairs along the leaf chain ascend. -/
theorem pairs_sorted (h : BTree s g ls) : ((s.pairs ls).map Prod.fst).Pairwise (· < ·) :=
  (tiles_within h.chain.tiles fun _ hp => h.leaf_within hp).sorted

theorem mem_pairs (h : BTree s g ls) {k : κ} {r : Rid} :
    (k, r) ∈ s.pairs ls ↔ Stores s.tree k r := by
  constructor
  · intro hmem
    obtain ⟨p, hp, hkr⟩ := List.mem_flatMap.mp hmem
    obtain ⟨n, hn, hleaf⟩ := h.mem_leaves.mp hp
    refine ⟨p, n.view, IxFile.tree_of_pages hn, ?_⟩
    rw [IxNode.view_leaf hleaf]
    rwa [entriesOf_eq hn] at hkr
  · rintro ⟨p, v, hv, hkr⟩
    obtain ⟨n, hn, rfl⟩ := IxFile.tree_eq_some.mp hv
    cases hleaf : n.isLeaf with
    | false => simp [IxNode.view_inner hleaf, PNode.entries] at hkr
    | true =>
      rw [IxNode.view_leaf hleaf] at hkr
      refine List.mem_flatMap.mpr ⟨p, h.mem_leaves.mpr ⟨n, hn, hleaf⟩, ?_⟩
      rwa [entriesOf_eq hn]

/-- `iid` names the place behind the keys that `P` holds for. -/
def CutAt (s : IxFile κ) (ls : List PageNo) (P : κ → Prop) (iid : Iid) : Prop :=
  ∃ front rest, s.Names ls front rest iid ∧ (∀ e ∈ front, P e.1) ∧ ∀ e ∈ rest, ¬ P e.1

/-- What a search that has cut the pairs of the leaf in two returns. -/
theorem boundIid_names (h : BTree s g (ls₁ ++ p :: ls₂)) (hp : s.pages p = some n)
    (hleaf : n.isLeaf = true) {es₁ es₂ : List (κ × Rid)} (hes : n.entries = es₁ ++ es₂) :
    s.Names (ls₁ ++ p :: ls₂) (s.pairs ls₁ ++ es₁) (es₂ ++ s.pairs ls₂)
      (s.boundIid p n (if es₂ = [] then none else some es₁.length)) := by
  split
  next hnil =>
    subst hnil
    rw [List.append_nil] at hes
    cases ls₂ with
    | nil =>
      refine ⟨ls₁, p, [], es₁, [], rfl, by simp [entriesOf_eq hp, hes], rfl, rfl, ?_, fun _ => rfl⟩
      simp [IxFile.boundIid, h.eq_lastLeaf_iff.mpr rfl, IxNode.size, hes]
    | cons q ls₂ =>
      have hne : p ≠ s.lastLeaf := fun hlast => by simpa using h.eq_lastLeaf_iff.mp hlast
      rw [IxFile.boundIid, if_neg hne, h.nextLeaf_eq hp hleaf]
      exact h.names_next (by rw [entriesOf_eq hp, hes])
  next hne =>
    exact ⟨ls₁, p, ls₂, es₁, es₂, rfl, by rw [entriesOf_eq hp, hes], rfl, rfl, rfl,
      fun hnil => absurd hnil hne⟩

theorem lowerBound (h : BTree s g ls) (L : IxLayout κ) (key : κ) :
    ∃ iid, s.lowerBound L key = some iid ∧ CutAt s ls (· < key) iid := by
  obtain ⟨p, n, hfind, hp, hleaf, hlo, hhi⟩ := h.findLeafPage L key
  obtain ⟨ls₁, ls₂, rfl⟩ := List.append_of_mem (h.mem_leaves.mpr ⟨n, hp, hleaf⟩)
  obtain ⟨ks₁, ks₂, hks, hbelow, habove⟩ := (IxFile.fits_leaf h.shape hp hleaf).2.split key
  obtain ⟨es₁, es₂, hes, rfl, rfl⟩ := List.map_eq_append_iff.mp hks
  simp only [List.mem_map, forall_exists_index, and_imp, forall_apply_eq_imp_iff₂] at hbelow habove
  have hfirst : n.firstKey = 0 := by simp [IxNode.firstKey, hleaf]
  have hsize : n.firstKey < n.size := by
    rw [hfirst]
    exact List.length_pos_iff.mpr (h.leaf hp hleaf)
  have hsearch := IxNode.lowerBound_eq L hes (by omega) hsize
    (by rw [hfirst]; exact hbelow) habove
  refine ⟨_, by rw [IxFile.lowerBound, hfind, Option.bind_some, hp, Option.map_some, hsearch],
    _, _, h.boundIid_names hp hleaf hes, ?_, ?_⟩
  · intro e he
    rcases List.mem_append.mp he with he | he
    · exact Bound.at_lt_at.mp ((h.pairs_below he).trans_le hlo)
    · exact hbelow e he
  · intro e he
    rw [not_lt]
    rcases List.mem_append.mp he with he | he
    · exact habove e he
    · exact Bound.at_le_at.mp (hhi.le.trans (h.pairs_above he))

theorem upperBound (h : BTree s g ls) (L : IxLayout κ) (key : κ) :
    ∃ iid, s.upperBound L key = some iid ∧ CutAt s ls (· ≤ key) iid := by
  obtain ⟨p, n, hfind, hp, hleaf, hlo, hhi⟩ := h.findLeafPage L key
  obtain ⟨ls₁, ls₂, rfl⟩ := List.append_of_mem (h.mem_leaves.mpr ⟨n, hp, hleaf⟩)
  obtain ⟨ks₁, ks₂, hks, hbelow, habove⟩ := (IxFile.fits_leaf h.shape hp hleaf).2.splitLe key
  obtain ⟨es₁, es₂, hes, rfl, rfl⟩ := List.map_eq_append_iff.mp hks
  simp only [List.mem_map, forall_exists_index, and_imp, forall_apply_eq_imp_iff₂] at hbelow habove
  have hsearch := IxNode.upperBound_eq L hleaf hes (h.leaf hp hleaf) hbelow habove
  refine ⟨_, by rw [IxFile.upperBound, hfind, Option.bind_some, hp, Option.map_some, hsearch],
    _, _, h.boundIid_names hp hleaf hes, ?_, ?_⟩
  · intro e he
    rcases List.mem_append.mp he with he | he
    · exact (Bound.at_lt_at.mp ((h.pairs_below he).trans_le hlo)).le
    · exact hbelow e he
  · intro e he
    rw [not_le]
    rcases List.mem_append.mp he with he | he
    · exact habove e he
    · exact Bound.at_lt_at.mp (hhi.trans_le (h.pairs_above he))

theorem leafBegin (h : BTree s g ls) : CutAt s ls (fun _ => False) s.leafBegin := by
  cases ls with
  | nil => exact absurd h.chain.first_mem List.not_mem_nil
  | cons p ls =>
    have hne := h.entriesOf_ne_nil (show p ∈ p :: ls by simp)
    refine ⟨[], s.pairs (p :: ls), ⟨[], p, ls, [], s.entriesOf p, rfl, rfl, rfl, rfl, ?_,
      fun hnil => absurd hnil hne⟩, by simp, by simp⟩
    simp [IxFile.leafBegin, h.chain.head_eq]

theorem leafEnd (h : BTree s g ls) :
    ∃ iid, s.leafEnd = some iid ∧ CutAt s ls (fun _ => True) iid := by
  obtain ⟨n, hn, hleaf⟩ := h.mem_leaves.mp h.chain.last_mem
  obtain ⟨ls₁, ls₂, hls⟩ := List.append_of_mem h.chain.last_mem
  have hnil : ls₂ = [] := by
    rw [hls] at h
    exact h.eq_lastLeaf_iff.mp rfl
  subst hnil
  have hpage : s.lastLeaf ≠ IX_NO_PAGE := by
    intro heq
    have := (h.pageNo hn).1
    rw [heq] at this
    exact absurd this (by decide)
  refine ⟨⟨s.lastLeaf, n.size⟩, by simp [IxFile.leafEnd, hpage, hn], _, _,
    ⟨ls₁, s.lastLeaf, [], n.entries, [], hls, by simp [entriesOf_eq hn], rfl, rfl, rfl,
      fun _ => rfl⟩, by simp, by simp [IxFile.pairs]⟩

/-- The scan ends, and its rids are those of the stored keys that `R` holds for, each once and in
ascending order of the keys. -/
def Yields (L : IxLayout κ) (s : IxFile κ) (R : κ → Prop) (c : IxScan) : Prop :=
  ∃ es : List (κ × Rid), (∀ fuel, es.length ≤ fuel → c.rids L s fuel = some (es.map Prod.snd)) ∧
    (es.map Prod.fst).Pairwise (· < ·) ∧ ∀ k r, (k, r) ∈ es ↔ Stores s.tree k r ∧ R k

/-- A scan between two cuts yields the pairs between them. -/
theorem yields_cut (h : BTree s g ls) (L : IxLayout κ) {P Q : κ → Prop} (hPQ : ∀ k, P k → Q k)
    {c : IxScan} (hlo : CutAt s ls P c.iid) (hhi : CutAt s ls Q c.stop) :
    Yields L s (fun k => ¬ P k ∧ Q k) c := by
  obtain ⟨front, rest, hname, hbelow, habove⟩ := hlo
  obtain ⟨front', rest', hname', hbelow', habove'⟩ := hhi
  have hsplit : ∃ mid, front' = front ++ mid ∧ rest = mid ++ rest' := by
    have heq : front ++ rest = front' ++ rest' := hname.pairs_eq.symm.trans hname'.pairs_eq
    rcases List.append_eq_append_iff.mp heq with ⟨mid, hfront, hrest⟩ | ⟨mid, hfront, hrest⟩
    · exact ⟨mid, hfront, hrest⟩
    · cases mid with
      | nil => exact ⟨[], by simpa using hfront.symm, by simpa using hrest.symm⟩
      | cons e mid =>
        have hP := hbelow e (by simp [hfront])
        have hQ := habove' e (by simp [hrest])
        exact absurd (hPQ e.1 hP) hQ
  obtain ⟨mid, rfl, rfl⟩ := hsplit
  refine ⟨mid, fun fuel hfuel => h.rids_between L hname hname' hfuel, ?_, fun k r => ?_⟩
  · have hsorted := h.pairs_sorted
    rw [hname.pairs_eq, List.map_append, List.map_append] at hsorted
    exact (List.pairwise_append.mp (List.pairwise_append.mp hsorted).2.1).1
  · rw [← h.mem_pairs, hname.pairs_eq, List.mem_append, List.mem_append]
    constructor
    · intro hmid
      exact ⟨.inr (.inl hmid), habove _ (List.mem_append_left _ hmid),
        hbelow' _ (List.mem_append_right _ hmid)⟩
    · rintro ⟨hmem | hmem | hmem, hP, hQ⟩
      · exact absurd (hbelow _ hmem) hP
      · exact hmem
      · exact absurd hQ (habove' _ hmem)

end BTree

/-- Scans between the bounds of two keys, and over the whole tree. -/
theorem scan_yields_range {cols : List IxCol} (hcols : colTotLen cols ≤ IX_MAX_COL_LEN)
    {s : IxFile (IxKey cols)} {g : Labels PageNo (IxKey cols)} {ls : List PageNo}
    (h : BTree s g ls) {lo hi : IxKey cols} (hle : lo ≤ hi) :
    let L := IxLayout.ofCols cols hcols
    ∃ lower lower' upper upper' last,
      s.lowerBound L lo = some lower ∧ s.lowerBound L hi = some lower' ∧
      s.upperBound L lo = some upper ∧ s.upperBound L hi = some upper' ∧
      s.leafEnd = some last ∧
      BTree.Yields L s (fun k => lo ≤ k ∧ k < hi) ⟨lower, lower'⟩ ∧
      BTree.Yields L s (fun k => lo < k ∧ k ≤ hi) ⟨upper, upper'⟩ ∧
      BTree.Yields L s (fun k => lo ≤ k ∧ k ≤ hi) ⟨lower, upper'⟩ ∧
      (lo < hi → BTree.Yields L s (fun k => lo < k ∧ k < hi) ⟨upper, lower'⟩) ∧
      BTree.Yields L s (fun _ => True) ⟨s.leafBegin, last⟩ := by
  intro L
  obtain ⟨lower, hlower, cutLower⟩ := h.lowerBound L lo
  obtain ⟨lower', hlower', cutLower'⟩ := h.lowerBound L hi
  obtain ⟨upper, hupper, cutUpper⟩ := h.upperBound L lo
  obtain ⟨upper', hupper', cutUpper'⟩ := h.upperBound L hi
  obtain ⟨last, hlast, cutLast⟩ := h.leafEnd
  refine ⟨lower, lower', upper, upper', last, hlower, hlower', hupper, hupper', hlast, ?_, ?_, ?_,
    fun hlt => ?_, ?_⟩
  · simpa only [not_lt] using @BTree.yields_cut _ _ _ _ _ h L _ _ (fun k hk => hk.trans_le hle)
      ⟨lower, lower'⟩ cutLower cutLower'
  · simpa only [not_le] using @BTree.yields_cut _ _ _ _ _ h L _ _ (fun k hk => hk.trans hle)
      ⟨upper, upper'⟩ cutUpper cutUpper'
  · simpa only [not_lt] using @BTree.yields_cut _ _ _ _ _ h L _ _ (fun k hk => hk.le.trans hle)
      ⟨lower, upper'⟩ cutLower cutUpper'
  · simpa only [not_le] using @BTree.yields_cut _ _ _ _ _ h L _ _ (fun k hk => hk.trans_lt hlt)
      ⟨upper, lower'⟩ cutUpper cutLower'
  · simpa only [not_false_eq_true, and_self] using @BTree.yields_cut _ _ _ _ _ h L _ _
      (fun k hk => hk.elim) ⟨s.leafBegin, last⟩ h.leafBegin cutLast

def smallKey (b : UInt8) : IxKey [.int] := ⟨[b, 0, 0, 0], rfl⟩

/-- A root over two leaves with one key each. -/
def twoLeaves : IxFile (IxKey [.int]) where
  rootPage := 5
  firstLeaf := 3
  lastLeaf := 4
  nextPageNo := 6
  pages := fun p =>
    if p = 3 then some ⟨5, true, 4, 4, [(smallKey 1, ⟨1, 0⟩)], []⟩
    else if p = 4 then some ⟨5, true, 3, 3, [(smallKey 2, ⟨1, 1⟩)], []⟩
    else if p = 5 then
      some ⟨-1, false, 0, 0, [(IxKey.zero _, ⟨3, 0⟩), (smallKey 2, ⟨4, 0⟩)], []⟩
    else none
  peak := 2

def twoLeavesLabels : Labels PageNo (IxKey [.int]) where
  height := fun p => if p = 5 then 1 else 0
  lo := fun p => if p = 4 then Bound.at (smallKey 2) else ⊥
  hi := fun p => if p = 3 then Bound.at (smallKey 2) else ⊤

theorem twoLeaves_cases {p : PageNo} {n : IxNode (IxKey [.int])} (h : twoLeaves.pages p = some n) :
    p = 3 ∧ n = ⟨5, true, 4, 4, [(smallKey 1, ⟨1, 0⟩)], []⟩ ∨
    p = 4 ∧ n = ⟨5, true, 3, 3, [(smallKey 2, ⟨1, 1⟩)], []⟩ ∨
    p = 5 ∧ n = ⟨-1, false, 0, 0, [(IxKey.zero _, ⟨3, 0⟩), (smallKey 2, ⟨4, 0⟩)], []⟩ := by
  simp only [twoLeaves] at h
  split_ifs at h with h₃ h₄ h₅
  · exact .inl ⟨h₃, (Option.some.inj h).symm⟩
  · exact .inr (.inl ⟨h₄, (Option.some.inj h).symm⟩)
  · exact .inr (.inr ⟨h₅, (Option.some.inj h).symm⟩)

theorem twoLeaves_btree : BTree twoLeaves twoLeavesLabels [3, 4] := by
  have hlt : smallKey 1 < smallKey 2 := (ixCompare_neg_iff _ _).mp (by decide)
  have hbot : (⊥ : Bound (IxKey [.int])) < Bound.at (smallKey 2) := WithBot.bot_lt_coe _
  have hlinks : ∀ {p l}, linksOf twoLeaves.tree p = some l →
      p = 3 ∧ l = (4, 4) ∨ p = 4 ∧ l = (3, 3) := by
    intro p l hl
    obtain ⟨v, hv, hl⟩ := Option.bind_eq_some_iff.mp hl
    obtain ⟨n, hn, rfl⟩ := IxFile.tree_eq_some.mp hv
    rcases twoLeaves_cases hn with ⟨rfl, rfl⟩ | ⟨rfl, rfl⟩ | ⟨rfl, rfl⟩
    · exact .inl ⟨rfl, (Option.some.inj hl).symm⟩
    · exact .inr ⟨rfl, (Option.some.inj hl).symm⟩
    · simp [IxNode.view, PNode.links] at hl
  refine ⟨⟨?_, ?_, ?_, ⟨_, rfl, rfl⟩, rfl, rfl⟩, ⟨?_, ?_, ?_, by decide, rfl, by decide, rfl⟩,
    ?_, ?_, ?_⟩
  · intro p v hv
    obtain ⟨n, hn, rfl⟩ := IxFile.tree_eq_some.mp hv
    rcases twoLeaves_cases hn with ⟨rfl, rfl⟩ | ⟨rfl, rfl⟩ | ⟨rfl, rfl⟩
    · refine ⟨rfl, ⟨by simp, by simp [twoLeavesLabels], ?_⟩⟩
      simp [twoLeavesLabels, hlt]
    · refine ⟨rfl, ⟨by simp, by simp [twoLeavesLabels], ?_⟩⟩
      simp [twoLeavesLabels, Bound.at_lt_top]
    · refine ⟨?_, ?_⟩
      · simp [twoLeavesLabels, viewKids, tiles_cons, Bound.at_lt_top, hbot]
      · simp [twoLeavesLabels, viewKids]
  · intro p v c hv hc
    obtain ⟨n, hn, rfl⟩ := IxFile.tree_eq_some.mp hv
    rcases twoLeaves_cases hn with ⟨rfl, rfl⟩ | ⟨rfl, rfl⟩ | ⟨rfl, rfl⟩
    · simp [IxNode.view, PNode.kids] at hc
    · simp [IxNode.view, PNode.kids] at hc
    · simp only [IxNode.view, PNode.kids, viewKids, Bool.false_eq_true, if_false, List.map_cons,
        List.map_nil, List.mem_cons, List.not_mem_nil, or_false] at hc
      rcases hc with rfl | rfl
      · exact ⟨_, rfl, rfl⟩
      · exact ⟨_, rfl, rfl⟩
  · intro p v hv hne
    obtain ⟨n, hn, rfl⟩ := IxFile.tree_eq_some.mp hv
    rcases twoLeaves_cases hn with ⟨rfl, rfl⟩ | ⟨rfl, rfl⟩ | ⟨rfl, rfl⟩
    · exact ⟨_, rfl, by simp [IxNode.view, PNode.kids, viewKids]⟩
    · exact ⟨_, rfl, by simp [IxNode.view, PNode.kids, viewKids]⟩
    · exact absurd rfl hne
  · intro p
    constructor
    · intro hp
      rcases List.mem_cons.mp hp with rfl | hp
      · exact ⟨_, rfl⟩
      · cases List.mem_singleton.mp hp
        exact ⟨_, rfl⟩
    · rintro ⟨l, hl⟩
      rcases hlinks hl with ⟨rfl, -⟩ | ⟨rfl, -⟩
      · decide
      · decide
  · simp [twoLeavesLabels, tiles_cons, Bound.at_lt_top, hbot]
  · intro p a b hl
    rcases hlinks hl with ⟨rfl, heq⟩ | ⟨rfl, heq⟩
    · cases heq
      exact ⟨(around_at _).symm, _, rfl⟩
    · cases heq
      exact ⟨by simp [twoLeavesLabels, around], _, rfl⟩
  · intro p n hn hleaf
    rcases twoLeaves_cases hn with ⟨rfl, rfl⟩ | ⟨rfl, rfl⟩ | ⟨rfl, rfl⟩
    · simp
    · simp
    · simp at hleaf
  · intro p n hn hleaf
    rcases twoLeaves_cases hn with ⟨rfl, rfl⟩ | ⟨rfl, rfl⟩ | ⟨rfl, rfl⟩
    · simp at hleaf
    · simp at hleaf
    · decide
  · intro p n hn
    rcases twoLeaves_cases hn with ⟨rfl, rfl⟩ | ⟨rfl, rfl⟩ | ⟨rfl, rfl⟩
    · decide
    · decide
    · decide

theorem scan_yields_range_twoLeaves :
    let L := IxLayout.ofCols [.int] (by decide)
    ∃ lower lower', twoLeaves.lowerBound L (smallKey 1) = some lower ∧
      twoLeaves.lowerBound L (smallKey 2) = some lower' ∧
      BTree.Yields L twoLeaves (fun k => smallKey 1 ≤ k ∧ k < smallKey 2) ⟨lower, lower'⟩ := by
  have hle : smallKey 1 ≤ smallKey 2 := le_of_lt ((ixCompare_neg_iff _ _).mp (by decide))
  obtain ⟨lower, lower', -, -, -, hlower, hlower', -, -, -, hyields, -⟩ :=
    scan_yields_range (by decide) twoLeaves_btree hle
  exact ⟨lower, lower', hlower, hlower', hyields⟩

end Grmdb
