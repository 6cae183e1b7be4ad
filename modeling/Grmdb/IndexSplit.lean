import Grmdb.IndexShape

namespace Grmdb

open PagedTree Tiling

variable {κ : Type}

namespace IxFile

variable {L : IxLayout κ} {s : IxFile κ} {p par : PageNo} {n : IxNode κ}
  {es₁ es₂ : List (κ × Rid)} {e : κ × Rid}

theorem tree_createNode (s : IxFile κ) :
    s.createNode.tree = Function.update s.tree s.nextPageNo (some (IxNode.fresh κ).view) := by
  funext x
  by_cases h : x = s.nextPageNo
  · simp [tree, createNode, h]
  · simp [tree, createNode, h]

theorem setPrevLeaf_spec {b q : PageNo} (hb : s.pages b = some n) :
    ∃ s', s.setPrevLeaf b q = some s' ∧ s'.rootPage = s.rootPage ∧ s'.firstLeaf = s.firstLeaf ∧
      s'.lastLeaf = s.lastLeaf ∧ s'.nextPageNo = s.nextPageNo ∧ (∀ B, s.Bounded B → s'.Bounded B) ∧
      (∀ x, x ≠ b → s'.pages x = s.pages x) ∧ s'.tree = relink s.tree b q := by
  refine ⟨s.write b { n with prevLeaf := q }, by simp [setPrevLeaf, hb], rfl, rfl, rfl, rfl,
    fun B hB => hB.write (hB.2 b n hb), fun x hx => by simp [write, hx], ?_⟩
  funext x
  rw [tree_write, view_setPrevLeaf]
  by_cases hx : x = b
  · subst hx
    simp [relink, tree_of_pages hb]
  · simp [relink, hx]

/-- `split` of a leaf. -/
theorem split_leaf (hp : s.pages p = some n) (hn : n.isLeaf = true)
    (hes : n.entries = es₁ ++ e :: es₂) (hlen : es₁.length = n.size / 2)
    (hb : ∃ m, s.pages n.nextLeaf = some m) (hfresh : s.pages s.nextPageNo = none) :
    ∃ s' rn, split L s p = some s' ∧ s'.pages s.nextPageNo = some rn ∧ rn.getKey L 0 = e.1 ∧
      s'.rootPage = s.rootPage ∧ s'.firstLeaf = s.firstLeaf ∧
      s'.lastLeaf = (if p = s.lastLeaf then s.nextPageNo else s.lastLeaf) ∧
      s'.nextPageNo = s.nextPageNo + 1 ∧ (∀ B, s.Bounded B → s'.Bounded B) ∧
      (∀ x, x ≠ p → x ≠ s.nextPageNo → x ≠ n.nextLeaf → s'.pages x = s.pages x) ∧
      s'.tree = relink (Function.update (Function.update s.tree p
        (some (.leaf n.parent n.prevLeaf s.nextPageNo es₁))) s.nextPageNo
        (some (.leaf n.parent p n.nextLeaf (e :: es₂)))) n.nextLeaf s.nextPageNo := by
  have hpn : p ≠ s.nextPageNo := by
    rintro rfl
    rw [hfresh] at hp
    cases hp
  have hbn : n.nextLeaf ≠ s.nextPageNo := by
    obtain ⟨m, hm⟩ := hb
    intro heq
    rw [heq, hfresh] at hm
    cases hm
  have htake : n.entries.take (n.size / 2) = es₁ := by rw [hes, ← hlen, List.take_left]
  have hdrop : n.entries.drop (n.size / 2) = e :: es₂ := by rw [hes, ← hlen, List.drop_left]
  let left : IxNode κ := ⟨n.parent, true, n.prevLeaf, s.nextPageNo, es₁,
    List.replicate (e :: es₂).length ((L.zeroKey, ⟨0, 0⟩) : κ × Rid) ++ n.dead⟩
  let right : IxNode κ := ⟨n.parent, true, p, n.nextLeaf, e :: es₂, []⟩
  let s₁ := (s.createNode.write p left).write s.nextPageNo right
  have hsize : n.size = es₁.length + (e :: es₂).length := by
    rw [IxNode.size, hes, List.length_append]
  have hb₁ : ∃ m, s₁.pages n.nextLeaf = some m := by
    obtain ⟨m, hm⟩ := hb
    by_cases hbp : n.nextLeaf = p
    · exact ⟨left, by simp [s₁, write, hbp, hpn]⟩
    · exact ⟨m, by simp [s₁, write, createNode, hbp, hbn, hm]⟩
  obtain ⟨m, hm⟩ := hb₁
  obtain ⟨s₂, hs₂, hroot, hfirst, hlast, hnext, hbound, hother, htree⟩ :=
    setPrevLeaf_spec (q := s.nextPageNo) hm
  refine ⟨{ s₂ with lastLeaf := if p = s.lastLeaf then s.nextPageNo else s.lastLeaf }, right, ?_,
    ?_, ?_, hroot, hfirst, rfl, hnext, ?_, ?_, ?_⟩
  · simp only [split, hp, Option.bind_eq_bind, Option.bind_some, hn, if_true, htake, hdrop]
    refine (congrArg (fun o : Option (IxFile κ) => o.bind _) hs₂).trans ?_
    have hlast : s₂.lastLeaf = s.lastLeaf := hlast
    simp only [Option.bind_some, hlast]
    split
    · rfl
    · rw [← hlast]
      rfl
  · rw [hother _ hbn.symm]
    simp [s₁, write]
  · rfl
  · intro B hB
    have hn := hB.2 p n hp
    refine hbound B ((hB.createNode.write ?_).write ?_)
    · simp only [IxNode.size, left] at hn ⊢
      simp only [IxNode.size] at hsize
      omega
    · simp only [IxNode.size, right] at hn ⊢
      simp only [IxNode.size] at hsize
      omega
  · intro x hxp hxn hxb
    refine (hother x hxb).trans ?_
    simp [s₁, write, createNode, hxp, hxn]
  · refine htree.trans ?_
    congr 1
    funext x
    simp only [s₁, tree_write, tree_createNode]
    by_cases hx : x = s.nextPageNo
    · subst hx
      simp [right, IxNode.view]
    by_cases hxp : x = p
    · subst hxp
      simp [left, IxNode.view, hx]
    · simp [hx, hxp]

/-- `split` of an inner node. -/
theorem split_inner (hp : s.pages p = some n) (hn : n.isLeaf = false)
    (hes : n.entries = es₁ ++ e :: es₂) (hlen : es₁.length = n.size / 2)
    (hkids : ∀ x ∈ e :: es₂, ∃ m, s.pages x.2.pageNo = some m)
    (hself : ∀ x ∈ e :: es₂, x.2.pageNo ≠ p) (hfresh : s.pages s.nextPageNo = none) :
    ∃ s' rn, split L s p = some s' ∧ s'.pages s.nextPageNo = some rn ∧ rn.getKey L 0 = e.1 ∧
      s'.rootPage = s.rootPage ∧ s'.firstLeaf = s.firstLeaf ∧ s'.lastLeaf = s.lastLeaf ∧
      s'.nextPageNo = s.nextPageNo + 1 ∧ (∀ B, s.Bounded B → s'.Bounded B) ∧
      (∀ x, x ≠ p → x ≠ s.nextPageNo → x ∉ (e :: es₂).map (fun e => e.2.pageNo) →
        s'.pages x = s.pages x) ∧
      ∀ x, s'.tree x = if x = p then some (.inner n.parent (viewKids es₁))
        else if x = s.nextPageNo then some (.inner n.parent (viewKids (e :: es₂)))
        else if x ∈ (e :: es₂).map (fun e => e.2.pageNo) then
          (s.tree x).map (PNode.withParent s.nextPageNo)
        else s.tree x := by
  have hpn : p ≠ s.nextPageNo := by
    rintro rfl
    rw [hfresh] at hp
    cases hp
  have htake : n.entries.take (n.size / 2) = es₁ := by rw [hes, ← hlen, List.take_left]
  have hdrop : n.entries.drop (n.size / 2) = e :: es₂ := by rw [hes, ← hlen, List.drop_left]
  have hsize : n.size = es₁.length + (e :: es₂).length := by
    rw [IxNode.size, hes, List.length_append]
  let left : IxNode κ := ⟨n.parent, false, n.prevLeaf, n.nextLeaf, es₁,
    List.replicate (e :: es₂).length ((L.zeroKey, ⟨0, 0⟩) : κ × Rid) ++ n.dead⟩
  let right : IxNode κ := ⟨n.parent, false, 0, 0, e :: es₂, []⟩
  let s₁ := (s.createNode.write p left).write s.nextPageNo right
  have hnotKid : ∀ c ∈ (e :: es₂).map (fun e => e.2.pageNo), c ≠ p ∧ c ≠ s.nextPageNo ∧
      s₁.pages c = s.pages c := by
    intro c hc
    obtain ⟨x, hx, rfl⟩ := List.mem_map.mp hc
    obtain ⟨m, hm⟩ := hkids x hx
    have hne : x.2.pageNo ≠ s.nextPageNo := by
      intro heq
      rw [heq, hfresh] at hm
      cases hm
    exact ⟨hself x hx, hne, by simp [s₁, write, createNode, hne, hself x hx]⟩
  have hthere : ∀ c ∈ (e :: es₂).map (fun e => e.2.pageNo), ∃ m, s₁.pages c = some m := by
    intro c hc
    obtain ⟨x, hx, rfl⟩ := List.mem_map.mp hc
    rw [(hnotKid _ hc).2.2]
    exact hkids x hx
  obtain ⟨s₂, hs₂, hroot, hfirst, hlast, hnext, hbound, hpages⟩ :=
    maintainChildren_spec (q := s.nextPageNo) hthere
  refine ⟨s₂, right, ?_, ?_, rfl, hroot, hfirst, hlast, hnext, ?_, ?_, ?_⟩
  · simp only [split, hp, Option.bind_eq_bind, Option.bind_some, hn, Bool.false_eq_true, if_false,
      htake, hdrop]
    exact hs₂
  · rw [hpages, if_neg fun hmem => (hnotKid _ hmem).2.1 rfl]
    simp [s₁, write]
  · intro B hB
    have hle := hB.2 p n hp
    simp only [IxNode.size] at hle hsize
    refine hbound B ((hB.createNode.write ?_).write ?_)
    · simp only [IxNode.size, left]
      omega
    · simp only [IxNode.size, right]
      omega
  · intro x hxp hxn hk
    rw [hpages, if_neg hk]
    simp [s₁, write, createNode, hxp, hxn]
  · intro x
    rw [tree, hpages]
    by_cases hxp : x = p
    · subst hxp
      rw [if_neg fun hmem => (hnotKid _ hmem).1 rfl, if_pos rfl]
      simp [s₁, write, hpn, left, IxNode.view]
    by_cases hxn : x = s.nextPageNo
    · subst hxn
      rw [if_neg fun hmem => (hnotKid _ hmem).2.1 rfl, if_neg hxp, if_pos rfl]
      simp [s₁, write, right, IxNode.view]
    rw [if_neg hxp, if_neg hxn]
    by_cases hk : x ∈ (e :: es₂).map (fun e => e.2.pageNo)
    · rw [if_pos hk, if_pos hk, (hnotKid x hk).2.2, tree]
      cases s.pages x with
      | none => rfl
      | some m => simp [IxNode.view_setParent]
    · rw [if_neg hk, if_neg hk]
      simp [s₁, write, createNode, hxp, hxn, tree]

end IxFile

/-- A child behind the first, as the view shows it. -/
def sepKid (e : κ × Rid) : Option κ × PageNo := (some e.1, e.2.pageNo)

theorem viewKids_split (front : List (κ × Rid)) (e : κ × Rid) :
    ∃ o, ∀ back, viewKids (front ++ e :: back) =
      viewKids front ++ (o, e.2.pageNo) :: back.map sepKid := by
  cases front with
  | nil => exact ⟨none, fun back => rfl⟩
  | cons x front => exact ⟨some e.1, fun back => by simp [viewKids, sepKid]⟩

theorem viewKids_tail {front : List (κ × Rid)} (h : front ≠ []) (e : κ × Rid)
    (back : List (κ × Rid)) :
    viewKids (front ++ e :: back) = viewKids front ++ sepKid e :: back.map sepKid := by
  cases front with
  | nil => exact absurd rfl h
  | cons x front => simp [viewKids, sepKid]

variable [LinearOrder κ]

namespace IxFile

variable {L : IxLayout κ} {s : IxFile κ} {g : Labels PageNo κ} {p par : PageNo} {n pr : IxNode κ}
  {front back : List (κ × Rid)} {e : κ × Rid}

/-- The node of the parent, cut at the child `p`. -/
theorem parent_split (h : TreeShape s.rootPage s.tree g) (hp : s.pages p = some n)
    (hroot : p ≠ s.rootPage) :
    ∃ pr front e back, s.pages n.parent = some pr ∧ pr.isLeaf = false ∧
      pr.entries = front ++ e :: back ∧ e.2.pageNo = p := by
  obtain ⟨v, hv, hmem⟩ := h.up (tree_of_pages hp) hroot
  rw [IxNode.view_parent] at hv
  obtain ⟨pr, hpr, rfl⟩ := tree_eq_some.mp hv
  cases hl : pr.isLeaf with
  | true =>
    rw [IxNode.view_kids_leaf hl] at hmem
    cases hmem
  | false =>
    rw [IxNode.view_kids hl] at hmem
    obtain ⟨e, he, hep⟩ := List.mem_map.mp hmem
    obtain ⟨front, back, hes⟩ := List.append_of_mem he
    exact ⟨pr, front, e, back, hpr, hl, hes, hep⟩

/-- A separator from the range of one child lies between those up to that child and the others. -/
theorem child_keys {sep : κ} (h : TreeShape s.rootPage s.tree g) (hpr : s.pages par = some pr)
    (hl : pr.isLeaf = false) (hes : pr.entries = front ++ e :: back)
    (hlo : g.lo e.2.pageNo < Bound.at sep) (hhi : Bound.at sep < g.hi e.2.pageNo) :
    (∀ x ∈ (front ++ [e]).drop pr.firstKey, x.1 < sep) ∧ ∀ x ∈ back, sep < x.1 := by
  obtain ⟨htiles, -, hsep⟩ := fits_inner h hpr hl
  have hfirst : pr.firstKey = 1 := by simp [IxNode.firstKey, hl]
  have hes' : pr.entries = (front ++ [e]) ++ back := by simp [hes]
  rw [hes, List.map_append, List.map_cons] at htiles
  have htail : ∀ x, x ∈ (front ++ [e]).tail ∨ x ∈ back → x ∈ pr.entries.tail := by
    intro x hx
    rw [hes', List.tail_append_of_ne_nil (by simp)]
    exact List.mem_append.mpr hx
  constructor
  · intro x hx
    rw [hfirst, List.drop_one] at hx
    rw [← Bound.at_lt_at, ← hsep x (htail x (.inl hx))]
    rcases List.mem_append.mp (List.mem_of_mem_tail hx) with hx | hx
    · have hmem := List.mem_map_of_mem (f := fun e => e.2.pageNo) hx
      have hlt := (htiles.mem_bounds (List.mem_append_left _ hmem)).2.1
      exact (hlt.trans_le (htiles.front_le hmem)).trans hlo
    · rw [List.mem_singleton.mp hx]
      exact hlo
  · intro x hx
    rw [← Bound.at_lt_at, ← hsep x (htail x (.inr hx))]
    exact hhi.trans_le (htiles.le_back (List.mem_map_of_mem hx))

/-- So `insert` puts it right behind that child. -/
theorem insert_child {sep : κ} {value : Rid} (h : TreeShape s.rootPage s.tree g)
    (hpr : s.pages par = some pr) (hl : pr.isLeaf = false) (hsize : 2 ≤ pr.size)
    (hes : pr.entries = front ++ e :: back) (hlo : g.lo e.2.pageNo < Bound.at sep)
    (hhi : Bound.at sep < g.hi e.2.pageNo) :
    pr.insert L sep value = some { pr with
      entries := front ++ e :: (sep, value) :: back, dead := pr.dead.tail } := by
  obtain ⟨hbelow, habove⟩ := child_keys h hpr hl hes hlo hhi
  have hfirst : pr.firstKey = 1 := by simp [IxNode.firstKey, hl]
  have hes' : pr.entries = (front ++ [e]) ++ back := by simp [hes]
  rw [IxNode.insert_eq L hes' (by simp [hfirst]) (by omega) hbelow habove]
  simp

end IxFile

/-- What `split` of the node `n` of page `p` does: its halves are `v₁` and `v₂`, the key in front of
the second is the one of `e`. -/
structure SplitAt (L : IxLayout κ) (s s₁ : IxFile κ) (p : PageNo) (n : IxNode κ) (e : κ × Rid)
    (v₁ v₂ : PNode PageNo κ Rid)
    (w : (PageNo → Option (PNode PageNo κ Rid)) → PageNo → Option (PNode PageNo κ Rid)) :
    Prop where
  run : IxFile.split L s p = some s₁
  right : ∃ rn, s₁.pages s.nextPageNo = some rn ∧ rn.getKey L 0 = e.1
  mid : n.entries[n.size / 2]? = some e
  rootPage : s₁.rootPage = s.rootPage
  nextPageNo : s₁.nextPageNo = s.nextPageNo + 1
  bounded : ∀ b, s.Bounded b → s₁.Bounded b
  relinks : Relinks s.nextPageNo w
  tree : s₁.tree = w (splitPages s.tree p s.nextPageNo v₁ v₂)
  other : ∀ {x m}, x ≠ p → s.pages x = some m → m.isLeaf = false → x ∉ v₂.kids →
    s₁.pages x = some m
  parent₁ : v₁.parent = n.parent
  parent₂ : v₂.parent = n.parent
  kids : n.view.kids = v₁.kids ++ v₂.kids
  entries : n.view.entries = v₁.entries ++ v₂.entries
  size₁ : L.minSize ≤ v₁.size ∧ v₁.size ≤ L.btreeOrder
  size₂ : L.minSize ≤ v₂.size ∧ v₂.size ≤ L.btreeOrder
  cut : ∀ {root t g ls par pp front o back},
    ChainedTree root s.firstLeaf s.lastLeaf t g ls → t p = some (n.view.withParent par) →
    t par = some (.inner pp (front ++ (o, p) :: back)) → t s.nextPageNo = none →
    (∀ m, t root = some m → m.parent ≠ s.nextPageNo) →
    g.lo p < Bound.at e.1 ∧ Bound.at e.1 < g.hi p ∧
      ∃ ls', ChainedTree root s₁.firstLeaf s₁.lastLeaf
        (w (cutPages t p s.nextPageNo par (v₁.withParent par) (v₂.withParent par)
          (.inner pp (front ++ (o, p) :: (some e.1, s.nextPageNo) :: back))))
        (g.cut p s.nextPageNo e.1) ls'

namespace Indexed

variable {L : IxLayout κ} {s : IxFile κ} {g : Labels PageNo κ} {ls : List PageNo}
  {p full thin : PageNo} {n : IxNode κ}

omit [LinearOrder κ] in
/-- A node with one entry too many, cut in the middle. -/
theorem halves (hsize : n.size = L.btreeOrder + 1) :
    ∃ es₁ e es₂, n.entries = es₁ ++ e :: es₂ ∧ es₁.length = n.size / 2 ∧
      (L.minSize ≤ es₁.length ∧ es₁.length ≤ L.btreeOrder) ∧
      L.minSize ≤ (e :: es₂).length ∧ (e :: es₂).length ≤ L.btreeOrder := by
  have horder := L.order_large
  have hmin := L.minSize_eq
  have hlen : n.entries.length = L.btreeOrder + 1 := hsize
  have hlt : n.size / 2 < n.entries.length := by omega
  refine ⟨n.entries.take (n.size / 2), n.entries[n.size / 2], n.entries.drop (n.size / 2 + 1), ?_,
    ?_, ?_, ?_⟩
  · rw [List.getElem_cons_drop, List.take_append_drop]
  · rw [List.length_take]
    omega
  · rw [List.length_take]
    omega
  · rw [List.length_cons, List.length_drop]
    omega

theorem splitLeaf (h : Indexed L s g ls full thin) (hp : s.pages p = some n)
    (hl : n.isLeaf = true) (hsize : n.size = L.btreeOrder + 1) :
    ∃ s₁ e v₁ v₂ w, SplitAt L s s₁ p n e v₁ v₂ w := by
  obtain ⟨es₁, e, es₂, hes, hlen, hsize₁, hsize₂⟩ := halves hsize
  have hfresh : s.pages s.nextPageNo = none := IxFile.tree_eq_none.mp (h.fresh le_rfl)
  have hpq : p ≠ s.nextPageNo := by
    rintro heq
    rw [heq, hfresh] at hp
    cases hp
  have hne : es₁ ≠ [] := by
    have := L.two_le_minSize
    rintro rfl
    simp only [List.length_nil] at hsize₁
    omega
  have hview := IxNode.view_leaf hl
  have ht := IxFile.tree_of_pages hp
  rw [hview] at ht
  have hb : ∃ m, s.pages n.nextLeaf = some m ∧ m.isLeaf = true := by
    have hlinks : linksOf s.tree p = some (n.prevLeaf, n.nextLeaf) := by
      simp [linksOf, ht, PNode.links]
    obtain ⟨-, b', hb⟩ := h.tree.chain.next hlinks
    obtain ⟨v, hv, hlv⟩ := Option.bind_eq_some_iff.mp hb
    obtain ⟨m, hm, rfl⟩ := IxFile.tree_eq_some.mp hv
    refine ⟨m, hm, ?_⟩
    cases hml : m.isLeaf with
    | true => rfl
    | false => simp [IxNode.view_inner hml, PNode.links] at hlv
  obtain ⟨m, hm, hml⟩ := hb
  obtain ⟨s₁, rn, hrun, hright, hkey, hroot, hfirst, hlast, hnext, hbound, hother, htree⟩ :=
    IxFile.split_leaf (L := L) hp hl hes hlen ⟨m, hm⟩ hfresh
  refine ⟨s₁, e, .leaf n.parent n.prevLeaf s.nextPageNo es₁,
    .leaf n.parent p n.nextLeaf (e :: es₂), fun t => relink t n.nextLeaf s.nextPageNo,
    ⟨hrun, ⟨rn, hright, hkey⟩, ?_, hroot, hnext, hbound, .inr ⟨_, rfl⟩, ?_, ?_, rfl, rfl, ?_, ?_,
      hsize₁, hsize₂, ?_⟩⟩
  · rw [hes, ← hlen]
    simp
  · rw [htree]
    congr 1
    funext x
    by_cases hxq : x = s.nextPageNo
    · subst hxq
      simp [splitPages, hpq.symm]
    · by_cases hxp : x = p
      · simp [splitPages, hxp, hpq]
      · simp [splitPages, hxp, hxq, PNode.kids]
  · intro x mx hxp hmx hxl _
    rw [hother x hxp, hmx]
    · rintro rfl
      rw [hfresh] at hmx
      cases hmx
    · rintro rfl
      cases Option.some.inj (hm.symm.trans hmx)
      rw [hml] at hxl
      cases hxl
  · simp [hview, PNode.kids]
  · simp [hview, PNode.entries, hes]
  · intro root t g' ls' par pp front o back hchain htp htpar htq hnil
    rw [hview, hes] at htp
    obtain ⟨hlo, hhi, -⟩ := (hchain.shape.fits htp).cutLeaf hpq hne
    obtain ⟨ls'', hcut⟩ := hchain.cutLeaf htp hne htpar htq hnil
    refine ⟨hlo, hhi, ls'', ?_⟩
    rw [hfirst, hlast]
    exact hcut

theorem splitInner (h : Indexed L s g ls full thin) (hp : s.pages p = some n)
    (hl : n.isLeaf = false) (hsize : n.size = L.btreeOrder + 1) :
    ∃ s₁ e v₁ v₂ w, SplitAt L s s₁ p n e v₁ v₂ w := by
  obtain ⟨es₁, e, es₂, hes, hlen, hsize₁, hsize₂⟩ := halves hsize
  have hfresh : s.pages s.nextPageNo = none := IxFile.tree_eq_none.mp (h.fresh le_rfl)
  have hpq : p ≠ s.nextPageNo := by
    rintro heq
    rw [heq, hfresh] at hp
    cases hp
  have hne : es₁ ≠ [] := by
    have := L.two_le_minSize
    rintro rfl
    simp only [List.length_nil] at hsize₁
    omega
  have hview := IxNode.view_inner hl
  have ht := IxFile.tree_of_pages hp
  have hkids : ∀ x ∈ e :: es₂, ∃ m, s.pages x.2.pageNo = some m := fun x hx =>
    IxFile.kid_there h.tree.shape hp hl (by rw [hes]; exact List.mem_append_right _ hx)
  have hself : ∀ x ∈ e :: es₂, x.2.pageNo ≠ p := by
    intro x hx
    refine h.tree.shape.kid_ne ht ?_
    rw [IxNode.view_kids hl, hes]
    exact List.mem_map_of_mem (List.mem_append_right _ hx)
  obtain ⟨s₁, rn, hrun, hright, hkey, hroot, hfirst, hlast, hnext, hbound, hother, htree⟩ :=
    IxFile.split_inner (L := L) hp hl hes hlen hkids hself hfresh
  have hkids₂ : (PNode.inner n.parent (viewKids (e :: es₂)) : PNode PageNo κ Rid).kids =
      (e :: es₂).map fun e => e.2.pageNo := viewKids_snd _
  refine ⟨s₁, e, .inner n.parent (viewKids es₁), .inner n.parent (viewKids (e :: es₂)), id,
    ⟨hrun, ⟨rn, hright, hkey⟩, ?_, hroot, hnext, hbound, .inl rfl, ?_, ?_, rfl, rfl, ?_, ?_, ?_, ?_,
      ?_⟩⟩
  · rw [hes, ← hlen]
    simp
  · funext x
    rw [htree x, id, splitPages, hkids₂]
  · intro x mx hxp hmx _ hk
    rw [hother x hxp, hmx]
    · rintro rfl
      rw [hfresh] at hmx
      cases hmx
    · rwa [← hkids₂]
  · rw [IxNode.view_kids hl, hes, hkids₂, List.map_append]
    simp [PNode.kids, viewKids_snd]
  · simp [hview, PNode.entries]
  · simpa [PNode.size] using hsize₁
  · simpa [PNode.size] using hsize₂
  · intro root t g' ls' par pp front o back hchain htp htpar htq hnil
    rw [hview, hes, viewKids_tail hne] at htp
    have hpkids : p ∉ (viewKids es₁ ++ sepKid e :: es₂.map sepKid).map Prod.snd :=
      fun hmem => hchain.shape.kid_ne htp hmem rfl
    have hqkids : s.nextPageNo ∉ (viewKids es₁ ++ sepKid e :: es₂.map sepKid).map Prod.snd := by
      intro hmem
      obtain ⟨m, hm, -⟩ := hchain.shape.down htp hmem
      rw [htq] at hm
      cases hm
    have hne' : viewKids es₁ ≠ [] := by
      cases es₁ with
      | nil => exact absurd rfl hne
      | cons x es₁ => simp [viewKids]
    obtain ⟨hlo, hhi, -⟩ := (hchain.shape.fits htp).cutInner hpq hne' hpkids hqkids
    have hcut := hchain.cutInner htp hne' htpar htq hnil
    refine ⟨hlo, hhi, ls', ?_⟩
    rw [hfirst, hlast]
    exact hcut

theorem exists_splitAt (h : Indexed L s g ls full thin) (hp : s.pages p = some n)
    (hsize : n.size = L.btreeOrder + 1) : ∃ s₁ e v₁ v₂ w, SplitAt L s s₁ p n e v₁ v₂ w := by
  cases hl : n.isLeaf with
  | true => exact h.splitLeaf hp hl hsize
  | false => exact h.splitInner hp hl hsize

end Indexed

end Grmdb
