import Grmdb.IndexSplit

namespace Grmdb

open PagedTree Tiling

variable {κ : Type} [LinearOrder κ]

namespace IxFile

variable {L : IxLayout κ} {s : IxFile κ} {p q par : PageNo} {n ln rn pr : IxNode κ}
  {front back rest : List (κ × Rid)} {a b c : κ × Rid}

omit [LinearOrder κ] in
theorem size_merged (L : IxLayout κ) (ln : IxNode κ) (es : List (κ × Rid)) :
    (ln.insertPairs L ln.size es).size = ln.size + es.length := by
  rw [IxNode.size, IxNode.insertPairs_end, List.length_append, IxNode.size]

omit [LinearOrder κ] in
theorem size_erasePair_le (n : IxNode κ) (i : Nat) : (n.erasePair i).size ≤ n.size := by
  simp only [IxNode.size, IxNode.erasePair]
  exact List.length_eraseIdx_le n.entries i

omit [LinearOrder κ] in
/-- `coalesce` of two leaves. -/
theorem coalesce_leaf (pr : IxNode κ) (i : Nat) (hln : ln.isLeaf = true) (hrn : rn.isLeaf = true)
    (hb : ∃ m, s.pages rn.nextLeaf = some m) (hpq : p ≠ q) (hparp : par ≠ p) (hparq : par ≠ q)
    (hbpar : rn.nextLeaf ≠ par) :
    ∃ s', coalesce L s p q par ln rn pr i = some s' ∧ s'.rootPage = s.rootPage ∧
      s'.firstLeaf = s.firstLeaf ∧
      s'.lastLeaf = (if q = s.lastLeaf then p else s.lastLeaf) ∧ s'.nextPageNo = s.nextPageNo ∧
      (∀ B, s.Bounded B → ln.size + rn.size ≤ B → pr.size ≤ B → s'.Bounded B) ∧
      s'.pages par = some (pr.erasePair i) ∧
      (∀ x, x ≠ p → x ≠ q → x ≠ par → x ≠ rn.nextLeaf → s'.pages x = s.pages x) ∧
      s'.tree = relink (joinPages s.tree p q par []
        (.leaf ln.parent ln.prevLeaf rn.nextLeaf (ln.entries ++ rn.entries))
        (pr.erasePair i).view) rn.nextLeaf p := by
  let merged := ln.insertPairs L ln.size rn.entries
  let s₁ := ((s.write p merged).write par (pr.erasePair i)).write p
    { merged with nextLeaf := rn.nextLeaf }
  have hb₁ : ∃ m, s₁.pages rn.nextLeaf = some m := by
    obtain ⟨m, hm⟩ := hb
    by_cases hbp : rn.nextLeaf = p
    · exact ⟨{ merged with nextLeaf := rn.nextLeaf }, by simp [s₁, write, hbp]⟩
    · exact ⟨m, by simp [s₁, write, hbp, hbpar, hm]⟩
  obtain ⟨m, hm⟩ := hb₁
  obtain ⟨s₂, hs₂, hroot, hfirst, hlast, hnext, hbound, hother, htree⟩ :=
    setPrevLeaf_spec (q := p) hm
  have hrun : coalesce L s p q par ln rn pr i =
      some ((if q = s₂.lastLeaf then { s₂ with lastLeaf := p } else s₂).release q) := by
    simp only [coalesce, hrn, if_true]
    exact congrArg (Option.map _) hs₂
  have hlast : s₂.lastLeaf = s.lastLeaf := hlast
  have hview : IxNode.view { merged with nextLeaf := rn.nextLeaf } =
      .leaf ln.parent ln.prevLeaf rn.nextLeaf (ln.entries ++ rn.entries) := by
    rw [← IxNode.insertPairs_end L]
    exact IxNode.view_leaf hln
  have htree₂ : Function.update s₂.tree q none = relink (joinPages s.tree p q par []
      (.leaf ln.parent ln.prevLeaf rn.nextLeaf (ln.entries ++ rn.entries))
      (pr.erasePair i).view) rn.nextLeaf p := by
    funext x
    by_cases hxq : x = q
    · subst hxq
      rw [Function.update_self, relink_none (joinPages_right hpq.symm)]
    rw [Function.update_of_ne hxq, htree, relink, relink]
    have hsame : s₁.tree x = joinPages s.tree p q par []
        (.leaf ln.parent ln.prevLeaf rn.nextLeaf (ln.entries ++ rn.entries))
        (pr.erasePair i).view x := by
      simp only [s₁, tree_write]
      by_cases hxp : x = p
      · rw [hxp, Function.update_self, joinPages_left, hview]
      rw [Function.update_of_ne hxp]
      by_cases hxpar : x = par
      · rw [hxpar, Function.update_self, joinPages_parent hparp hparq]
      · rw [Function.update_of_ne hxpar, Function.update_of_ne hxp,
          joinPages_other hxp hxq hxpar (by simp)]
    rw [hsame]
  refine ⟨_, hrun, ?_, ?_, ?_, ?_, ?_, ?_, ?_, ?_⟩
  · refine Eq.trans ?_ hroot
    split <;> rfl
  · refine Eq.trans ?_ hfirst
    split <;> rfl
  · rw [hlast]
    split
    · rfl
    · exact hlast
  · refine Eq.trans ?_ hnext
    split <;> rfl
  · intro B hB hsize hprB
    have hmerged : merged.size ≤ B := (size_merged L ln rn.entries).le.trans hsize
    have hs₂B : s₂.Bounded B := by
      refine hbound B (((hB.write hmerged).write ?_).write hmerged)
      exact (size_erasePair_le pr i).trans hprB
    split
    · have hmoved : Bounded { s₂ with lastLeaf := p } B := hs₂B
      exact hmoved.release
    · exact hs₂B.release
  · have hpar : s₂.pages par = some (pr.erasePair i) := by
      rw [hother par hbpar.symm]
      simp [s₁, write, hparp]
    rw [← hpar]
    split <;> simp [release, hparq]
  · intro x hxp hxq hxpar hxb
    have hx : s₂.pages x = s.pages x := by
      rw [hother x hxb]
      simp [s₁, write, hxp, hxpar]
    rw [← hx]
    split <;> simp [release, hxq]
  · rw [tree_release, ← htree₂]
    split <;> rfl

omit [LinearOrder κ] in
/-- `coalesce` of two inner nodes: the separator comes down from the parent. -/
theorem coalesce_inner {i : Nat} (hln : ln.isLeaf = false) (hrn : rn.isLeaf = false)
    (hsep : pr.getKey L i = b.1) (hes : rn.entries = c :: rest)
    (hkids : ∀ x ∈ c :: rest, ∃ m, s.pages x.2.pageNo = some m)
    (hself : ∀ x ∈ c :: rest, x.2.pageNo ≠ p ∧ x.2.pageNo ≠ q ∧ x.2.pageNo ≠ par)
    (hpq : p ≠ q) (hparp : par ≠ p) (hparq : par ≠ q) :
    ∃ s', coalesce L s p q par ln rn pr i = some s' ∧ s'.rootPage = s.rootPage ∧
      s'.firstLeaf = s.firstLeaf ∧ s'.lastLeaf = s.lastLeaf ∧ s'.nextPageNo = s.nextPageNo ∧
      (∀ B, s.Bounded B → ln.size + rn.size ≤ B → pr.size ≤ B → s'.Bounded B) ∧
      s'.pages par = some (pr.erasePair i) ∧
      (∀ x, x ≠ p → x ≠ q → x ≠ par → x ∉ (c :: rest).map (fun e => e.2.pageNo) →
        s'.pages x = s.pages x) ∧
      s'.tree = joinPages s.tree p q par ((c :: rest).map fun e => e.2.pageNo)
        (.inner ln.parent (viewKids (ln.entries ++ (b.1, c.2) :: rest)))
        (pr.erasePair i).view := by
  have hmoved : (rn.setKey 0 b.1).entries = (b.1, c.2) :: rest :=
    IxNode.setKey_entries (show rn.entries = [] ++ c :: rest from hes) b.1
  let merged := ln.insertPairs L ln.size ((b.1, c.2) :: rest)
  let s₁ := (s.write p merged).write par (pr.erasePair i)
  have hold : ∀ x ∈ (c :: rest).map (fun e => e.2.pageNo), x ≠ p ∧ x ≠ q ∧ x ≠ par ∧
      ∃ m, s.pages x = some m := by
    intro x hx
    obtain ⟨e, he, rfl⟩ := List.mem_map.mp hx
    exact ⟨(hself e he).1, (hself e he).2.1, (hself e he).2.2, hkids e he⟩
  have hthere : ∀ x ∈ (c :: rest).map (fun e => e.2.pageNo), ∃ m, s₁.pages x = some m := by
    intro x hx
    obtain ⟨hxp, -, hxpar, m, hm⟩ := hold x hx
    exact ⟨m, by simp [s₁, write, hxp, hxpar, hm]⟩
  obtain ⟨s₂, hs₂, hroot, hfirst, hlast, hnext, hbound, hpages⟩ :=
    maintainChildren_spec (q := p) hthere
  have hview : merged.view = .inner ln.parent (viewKids (ln.entries ++ (b.1, c.2) :: rest)) := by
    rw [← IxNode.insertPairs_end L]
    exact IxNode.view_inner hln
  refine ⟨s₂.release q, ?_, hroot, hfirst, hlast, hnext, ?_, ?_, ?_, ?_⟩
  · simp only [coalesce, hrn, Bool.false_eq_true, if_false, hsep, hmoved]
    exact congrArg (Option.map _) hs₂
  · intro B hB hsize hprB
    have hmerged : merged.size ≤ B := by
      rw [size_merged, List.length_cons]
      simp only [IxNode.size, hes, List.length_cons] at hsize ⊢
      exact hsize
    refine (hbound B ((hB.write hmerged).write ?_)).release
    exact (size_erasePair_le pr i).trans hprB
  · have hnot : par ∉ (c :: rest).map (fun e => e.2.pageNo) := fun hmem => (hold par hmem).2.2.1 rfl
    simp only [release, Function.update_of_ne hparq]
    rw [hpages, if_neg hnot]
    simp [s₁, write]
  · intro x hxp hxq hxpar hk
    simp only [release, Function.update_of_ne hxq]
    rw [hpages, if_neg hk]
    simp [s₁, write, hxp, hxpar]
  · funext x
    rw [tree_release]
    by_cases hxq : x = q
    · subst hxq
      rw [Function.update_self, joinPages_right hpq.symm]
    rw [Function.update_of_ne hxq, tree, hpages]
    by_cases hxp : x = p
    · subst hxp
      rw [if_neg fun hmem => (hold x hmem).1 rfl, joinPages_left, ← hview]
      simp [s₁, write, hparp.symm]
    by_cases hxpar : x = par
    · subst hxpar
      rw [if_neg fun hmem => (hold x hmem).2.2.1 rfl, joinPages_parent hparp hparq]
      simp [s₁, write]
    by_cases hk : x ∈ (c :: rest).map (fun e => e.2.pageNo)
    · obtain ⟨m, hm⟩ := (hold x hk).2.2.2
      rw [if_pos hk, joinPages_moved hxp hxq hxpar hk, tree_of_pages hm]
      simp [s₁, write, hxp, hxpar, hm, IxNode.view_setParent]
    · rw [if_neg hk, joinPages_other hxp hxq hxpar hk]
      simp [s₁, write, hxp, hxpar, tree]

end IxFile

namespace Indexed

variable {L : IxLayout κ} {s s' : IxFile κ} {g g' : Labels PageNo κ} {ls ls' : List PageNo}
  {full thin full' thin' p q par pp : PageNo} {n ln rn pr : IxNode κ} {v : PNode PageNo κ Rid}
  {kids : List (Option κ × PageNo)} {front back : List (κ × Rid)} {a b : κ × Rid}

/-- No page is new, the root stays, and each page that is left has the size it needs. -/
theorem rebuild (h : Indexed L s g ls full thin) (hroot : s'.rootPage = s.rootPage)
    (hnext : s.nextPageNo ≤ s'.nextPageNo) (hpeak : s'.peak ≤ L.btreeOrder + 1)
    (htree : ChainedTree s'.rootPage s'.firstLeaf s'.lastLeaf s'.tree g' ls')
    (hpages : ∀ {x v'}, s'.tree x = some v' → ∃ m, s.tree x = some m ∧
      (v'.size ≤ L.btreeOrder ∨ x = full' ∧ v'.size ≤ L.btreeOrder + 1) ∧
      (x ≠ s.rootPage ∧ L.minSize ≤ v'.size ∨ x ≠ thin ∧ (x = thin' ∨ m.size ≤ v'.size) ∧
        (x = s.rootPage → leastAtRoot v' = leastAtRoot m ∧ v'.parent = m.parent))) :
    Indexed L s' g' ls' full' thin' := by
  refine ⟨htree, ?_, ?_, hpeak, ?_, ?_, ?_, ?_⟩
  · intro v' hv'
    rw [hroot] at hv'
    obtain ⟨m, hm, -, hcase⟩ := hpages hv'
    rcases hcase with ⟨hne, -⟩ | ⟨-, -, hsame⟩
    · exact absurd rfl hne
    · rw [(hsame rfl).2]
      exact h.rootParent hm
  · intro x v' hx
    obtain ⟨m, hm, -⟩ := hpages hx
    have := h.pageNo hm
    lia
  · intro v' hv'
    obtain ⟨m, -, hsize, -⟩ := hpages hv'
    omega
  · intro x v' hx hne
    obtain ⟨m, -, hsize, -⟩ := hpages hx
    exact hsize.resolve_right fun heq => hne heq.1
  · intro x v' hx hthin hne
    rw [hroot] at hne
    obtain ⟨m, hm, -, hcase⟩ := hpages hx
    rcases hcase with ⟨-, hsize⟩ | ⟨hold, hsize, -⟩
    · exact hsize
    · exact (h.ge hm hold hne).trans (hsize.resolve_left hthin)
  · intro v' hv' hthin
    rw [hroot] at hv' hthin
    obtain ⟨m, hm, -, hcase⟩ := hpages hv'
    rcases hcase with ⟨hne, -⟩ | ⟨hold, hsize, hsame⟩
    · exact absurd rfl hne
    · rw [(hsame rfl).1]
      exact (h.root hm hold).trans (hsize.resolve_left hthin)

/-- A page with entries is a leaf when its height is 0. -/
theorem isLeaf_iff (h : Indexed L s g ls full thin) (hp : s.pages p = some n)
    (hne : 0 < n.size) : n.isLeaf = true ↔ g.height p = 0 := by
  constructor
  · exact fun hl => (IxFile.fits_leaf h.tree.shape hp hl).1
  · intro hheight
    cases hl : n.isLeaf with
    | true => rfl
    | false =>
      obtain ⟨e, he⟩ := List.exists_mem_of_length_pos hne
      have := (IxFile.fits_inner h.tree.shape hp hl).2.1 e he
      omega

theorem size_le (h : Indexed L s g ls IX_NO_PAGE thin) (hp : s.tree p = some v) :
    v.size ≤ L.btreeOrder := by
  refine h.le hp ?_
  rintro rfl
  rw [h.noPage] at hp
  cases hp

/-- What a merge of the neighbours `p` and `q` does to the pages. -/
theorem join (h : Indexed L s g ls IX_NO_PAGE thin) (hthin : thin = p ∨ thin = q)
    {v₁ v₂ : PNode PageNo κ Rid} {o o' : Option κ} {moved : List PageNo}
    {front back : List (Option κ × PageNo)} (hp : s.tree p = some v₁) (hq : s.tree q = some v₂)
    (hpar : s.tree par = some (.inner pp (front ++ (o, p) :: (o', q) :: back)))
    (hmoved : ∀ c ∈ moved, c ∈ v₂.kids) (hroot : s'.rootPage = s.rootPage)
    (hnext : s'.nextPageNo = s.nextPageNo) (hpeak : s'.peak ≤ L.btreeOrder + 1)
    (htree : ChainedTree s'.rootPage s'.firstLeaf s'.lastLeaf s'.tree g' ls')
    (hjoin : ∀ x v', s'.tree x = some v' → ∃ v'',
      joinPages s.tree p q par moved v (.inner pp (front ++ (o, p) :: back)) x = some v'' ∧
        (v' = v'' ∨ v' = v''.withPrev p))
    (hv : L.minSize ≤ v.size ∧ v.size ≤ L.btreeOrder) :
    Indexed L s' g' ls' IX_NO_PAGE par := by
  have hpkid : p ∈ (PNode.inner pp (front ++ (o, p) :: (o', q) :: back) : PNode PageNo κ Rid).kids := by
    simp [PNode.kids]
  have hqkid : q ∈ (PNode.inner pp (front ++ (o, p) :: (o', q) :: back) : PNode PageNo κ Rid).kids := by
    simp [PNode.kids]
  refine h.rebuild hroot hnext.ge hpeak htree fun {x v'} hx => ?_
  obtain ⟨v'', hx, hv'⟩ := hjoin x v' hx
  have hsize : v'.size = v''.size := by rcases hv' with rfl | rfl <;> simp
  have hparent : v'.parent = v''.parent := by rcases hv' with rfl | rfl <;> simp
  have hleast : leastAtRoot v' = leastAtRoot v'' := by
    rcases hv' with rfl | rfl
    · rfl
    · cases v'' <;> rfl
  rcases joinPages_cases hx with ⟨rfl, rfl⟩ | ⟨hxp, hxq, rfl, rfl⟩ |
    ⟨hxp, hxq, hxpar, m, hm, hcase⟩
  · refine ⟨v₁, hp, .inl (by omega), .inl ⟨h.tree.shape.kid_ne_root hpar hpkid, by omega⟩⟩
  · have hold := h.size_le hpar
    have hup : v'.size = front.length + (back.length + 1) := by
      rw [hsize]
      simp [PNode.size]
    simp only [PNode.size, List.length_append, List.length_cons] at hold
    refine ⟨_, hpar, .inl (by omega), .inr ⟨?_, .inl rfl, fun _ => ⟨hleast, hparent⟩⟩⟩
    rcases hthin with rfl | rfl
    · exact hxp
    · exact hxq
  · have hold := h.size_le hm
    have hsame : v'.size = m.size := by
      rw [hsize]
      rcases hcase with ⟨-, rfl⟩ | ⟨-, rfl⟩ <;> simp
    refine ⟨m, hm, .inl (by omega), .inr ⟨?_, .inr hsame.ge, ?_⟩⟩
    · rcases hthin with rfl | rfl
      · exact hxp
      · exact hxq
    · intro hxr
      rcases hcase with ⟨hmem, -⟩ | ⟨-, rfl⟩
      · exact absurd hxr (h.tree.shape.kid_ne_root hq (hmoved x hmem))
      · exact ⟨hleast, hparent⟩

end Indexed

namespace IxNode

variable {pr : IxNode κ} {front back : List (κ × Rid)} {a b : κ × Rid}

omit [LinearOrder κ] in
/-- Two neighbours below the node `pr`, and the node without the second or with another key in
front of it. -/
theorem view_neighbours (hl : pr.isLeaf = false) (hes : pr.entries = front ++ a :: b :: back) :
    ∃ o, pr.view = .inner pr.parent
        (viewKids front ++ (o, a.2.pageNo) :: (some b.1, b.2.pageNo) :: back.map sepKid) ∧
      (pr.erasePair (front.length + 1)).view = .inner pr.parent
        (viewKids front ++ (o, a.2.pageNo) :: back.map sepKid) ∧
      ∀ key, (pr.setKey (front.length + 1) key).view = .inner pr.parent
        (viewKids front ++ (o, a.2.pageNo) :: (some key, b.2.pageNo) :: back.map sepKid) := by
  obtain ⟨o, ho⟩ := viewKids_split front a
  have hes' : pr.entries = (front ++ [a]) ++ b :: back := by simp [hes]
  have hlen : (front ++ [a]).length = front.length + 1 := by simp
  have herase := erasePair_entries hes'
  have hset := fun key => setKey_entries hes' key
  rw [hlen] at herase
  simp only [hlen] at hset
  refine ⟨o, ?_, ?_, fun key => ?_⟩
  · rw [view_inner hl, hes, ho]
    rfl
  · rw [view_inner (n := pr.erasePair _) hl, herase, List.append_assoc]
    exact congrArg (PNode.inner pr.parent) (ho back)
  · rw [view_inner (n := pr.setKey _ key) hl, hset key, List.append_assoc]
    exact congrArg (PNode.inner pr.parent) (ho ((key, b.2) :: back))

end IxNode

/-- What is left after a merge below the page `par`: the node `pr` of `par` has one entry less, the
pages above are as they were. -/
structure Merged (L : IxLayout κ) (s s' : IxFile κ) (g : Labels PageNo κ) (par : PageNo)
    (pr : IxNode κ) : Prop where
  indexed : ∃ g' ls', Indexed L s' g' ls' IX_NO_PAGE par ∧ g'.height = g.height ∧
    g'.hi par = g.hi par
  stores : ∀ k r, Stores s'.tree k r ↔ Stores s.tree k r
  rootPage : s'.rootPage = s.rootPage
  parent : s'.pages par = some pr
  above : ∀ {x m}, s.pages x = some m → g.height par ≤ g.height x → x ≠ par →
    s'.pages x = some m

/-- Two neighbours `p` and `q` below the page `par`, and the separator in front of `q`. -/
structure Siblings (s : IxFile κ) (g : Labels PageNo κ) (p q par : PageNo)
    (ln rn pr : IxNode κ) (front back : List (κ × Rid)) (a b : κ × Rid) : Prop where
  left : s.pages p = some ln
  right : s.pages q = some rn
  parent : s.pages par = some pr
  inner : pr.isLeaf = false
  entries : pr.entries = front ++ a :: b :: back
  leftPage : a.2.pageNo = p
  rightPage : b.2.pageNo = q
  ne : p ≠ q ∧ par ≠ p ∧ par ≠ q
  leftParent : ln.parent = par
  rightParent : rn.parent = par
  height : g.height p = g.height q ∧ g.height q + 1 = g.height par
  range : g.lo p < Bound.at b.1 ∧ g.hi p = Bound.at b.1 ∧ g.lo q = Bound.at b.1 ∧
    Bound.at b.1 < g.hi q

namespace Siblings

variable {L : IxLayout κ} {s : IxFile κ} {g : Labels PageNo κ} {ls : List PageNo}
  {full thin p q par : PageNo} {ln rn pr : IxNode κ} {front back : List (κ × Rid)} {a b : κ × Rid}

theorem mk' (h : Indexed L s g ls full thin) (hp : s.pages p = some ln) (hq : s.pages q = some rn)
    (hpar : s.pages par = some pr) (hl : pr.isLeaf = false)
    (hes : pr.entries = front ++ a :: b :: back) (ha : a.2.pageNo = p) (hb : b.2.pageNo = q) :
    Siblings s g p q par ln rn pr front back a b := by
  obtain ⟨o, hview, -⟩ := IxNode.view_neighbours hl hes
  rw [ha, hb] at hview
  have htp := IxFile.tree_of_pages hp
  have htq := IxFile.tree_of_pages hq
  have htpar := IxFile.tree_of_pages hpar
  rw [hview] at htpar
  obtain ⟨hheight, hrange⟩ := (h.tree.shape.fits htpar).neighbours
  have hup := (h.tree.shape.fits htpar).kid_height (c := q) (by simp [PNode.kids])
  refine ⟨hp, hq, hpar, hl, hes, ha, hb, h.tree.ne_of_neighbours htpar, ?_, ?_, ⟨hheight, hup⟩,
    hrange⟩
  · rw [← IxNode.view_parent]
    exact h.tree.shape.kid_parent htpar (by simp [PNode.kids]) htp
  · rw [← IxNode.view_parent]
    exact h.tree.shape.kid_parent htpar (by simp [PNode.kids]) htq

theorem sep_eq (t : Siblings s g p q par ln rn pr front back a b) :
    pr.getKey L (front.length + 1) = b.1 := by
  have := IxNode.getKey_eq L (show pr.entries = (front ++ [a]) ++ b :: back by simp [t.entries])
  simpa using this

theorem sameKind (t : Siblings s g p q par ln rn pr front back a b)
    (h : Indexed L s g ls full thin) (hln : 0 < ln.size) (hrn : 0 < rn.size) :
    ln.isLeaf = rn.isLeaf := by
  have hp := h.isLeaf_iff t.left hln
  have hq := h.isLeaf_iff t.right hrn
  rw [t.height.1, ← hq] at hp
  exact Bool.eq_iff_iff.mpr hp

end Siblings

namespace Indexed

variable {L : IxLayout κ} {s : IxFile κ} {g : Labels PageNo κ} {ls : List PageNo}
  {thin p q par : PageNo} {ln rn pr : IxNode κ} {front back : List (κ × Rid)} {a b : κ × Rid}

/-- The next leaf of a leaf is a leaf that is there. -/
theorem next_leaf {full : PageNo} (h : Indexed L s g ls full thin) (hp : s.pages p = some ln)
    (hl : ln.isLeaf = true) : ∃ m, s.pages ln.nextLeaf = some m ∧ m.isLeaf = true ∧
      m.prevLeaf = p := by
  have hlinks : linksOf s.tree p = some (ln.prevLeaf, ln.nextLeaf) := by
    simp [linksOf, IxFile.tree_of_pages hp, IxNode.view_leaf hl, PNode.links]
  obtain ⟨-, b', hb⟩ := h.tree.chain.next hlinks
  obtain ⟨v, hv, hlv⟩ := Option.bind_eq_some_iff.mp hb
  obtain ⟨m, hm, rfl⟩ := IxFile.tree_eq_some.mp hv
  cases hml : m.isLeaf with
  | true =>
    simp only [IxNode.view_leaf hml, PNode.links, Option.some.injEq, Prod.mk.injEq] at hlv
    exact ⟨m, hm, hml, hlv.1⟩
  | false => simp [IxNode.view_inner hml, PNode.links] at hlv

/-- Two neighbours below one parent that hold too little for two nodes are merged. -/
theorem merge (h : Indexed L s g ls IX_NO_PAGE thin) (hthin : thin = p ∨ thin = q)
    (t : Siblings s g p q par ln rn pr front back a b) (hln : L.minSize ≤ ln.size + 1)
    (hrn : L.minSize ≤ rn.size + 1) (hsize : ln.size + rn.size < L.minSize * 2) :
    ∃ s', IxFile.coalesce L s p q par ln rn pr (front.length + 1) = some s' ∧
      Merged L s s' g par (pr.erasePair (front.length + 1)) := by
  have hmin := L.two_le_minSize
  have hmin' := L.minSize_eq
  have hkind : ln.isLeaf = rn.isLeaf := t.sameKind h (by omega) (by omega)
  have hsep := t.sep_eq (L := L)
  obtain ⟨hp, hq, hpar, hprl, hes, ha, hb, ⟨hpq, hparp, hparq⟩, hlnp, hrnp, ⟨hheight, hup⟩, -⟩ := t
  obtain ⟨o, hview, hview', -⟩ := IxNode.view_neighbours hprl hes
  rw [ha, hb] at hview
  rw [ha] at hview'
  have htp := IxFile.tree_of_pages hp
  have htq := IxFile.tree_of_pages hq
  have htpar := IxFile.tree_of_pages hpar
  rw [hview] at htpar
  have hprle : pr.size ≤ L.btreeOrder := by
    rw [← IxNode.view_size]
    exact h.size_le (IxFile.tree_of_pages hpar)
  have hlarge : L.minSize ≤ ln.size + rn.size := by omega
  cases hl : rn.isLeaf with
  | true =>
    have hll := hkind.trans hl
    rw [IxNode.view_leaf hll, hlnp] at htp
    rw [IxNode.view_leaf hl, hrnp] at htq
    obtain ⟨m, hm, hml, hmprev⟩ := h.next_leaf hq hl
    have hbq : rn.nextLeaf ≠ q := by
      obtain ⟨-, hprev, -⟩ := h.tree.neighbour_links htp htq htpar
      intro heq
      rw [heq] at hm
      cases Option.some.inj (hm.symm.trans hq)
      exact hpq (hprev.symm.trans hmprev)
    have hbpar : rn.nextLeaf ≠ par := by
      intro heq
      rw [heq] at hm
      cases Option.some.inj (hm.symm.trans hpar)
      rw [hml] at hprl
      cases hprl
    obtain ⟨s', hrun, hroot, hfirst, hlast, hnext, hbound, hpar', hother, htree⟩ :=
      IxFile.coalesce_leaf (L := L) (s := s) pr (front.length + 1) hll hl ⟨m, hm⟩ hpq
        hparp hparq hbpar
    rw [hlnp, hview'] at htree
    obtain ⟨ls', hchain⟩ := h.tree.joinLeaf htp htq htpar
    have hjoin : ∀ x v', s'.tree x = some v' → ∃ v'', joinPages s.tree p q par []
        (.leaf par ln.prevLeaf rn.nextLeaf (ln.entries ++ rn.entries))
        (.inner pr.parent (viewKids front ++ (o, p) :: back.map sepKid)) x = some v'' ∧
          (v' = v'' ∨ v' = v''.withPrev p) := by
      intro x v' hx
      rw [htree] at hx
      exact relink_cases hx
    refine ⟨s', hrun, ⟨⟨g.join p q, ls', ?_, rfl, by simp [Labels.join, hparp]⟩, ?_, hroot, hpar',
      ?_⟩⟩
    · refine h.join hthin htp htq htpar (by simp) hroot hnext
        (hbound _ h.bounded (by omega) (by omega)).1 ?_ hjoin ?_
      · rw [hroot, hfirst, hlast, htree]
        exact hchain
      · simp only [PNode.size, List.length_append]
        simp only [IxNode.size] at hlarge hsize
        omega
    · intro k r
      rw [htree, stores_relink]
      exact stores_joinPages htp htq htpar rfl rfl hparp rfl
    · intro x mx hx hxh hxpar
      rw [hother x _ _ hxpar, hx]
      · rintro rfl
        have := (IxFile.fits_leaf h.tree.shape hm hml).1
        omega
      · rintro rfl
        omega
      · rintro rfl
        omega
  | false =>
    have hll := hkind.trans hl
    obtain ⟨c, rest, hrest⟩ := List.exists_cons_of_length_pos (show 0 < rn.entries.length by
      simp only [IxNode.size] at hrn
      omega)
    rw [IxNode.view_inner hll, hlnp] at htp
    rw [IxNode.view_inner hl, hrnp, hrest] at htq
    have hkidheight : ∀ x ∈ c :: rest, g.height x.2.pageNo + 1 = g.height q := by
      intro x hx
      rw [← hrest] at hx
      exact (IxFile.fits_inner h.tree.shape hq hl).2.1 x hx
    have hself : ∀ x ∈ c :: rest, x.2.pageNo ≠ p ∧ x.2.pageNo ≠ q ∧ x.2.pageNo ≠ par := by
      intro x hx
      have := hkidheight x hx
      refine ⟨?_, ?_, ?_⟩
      all_goals
        intro heq
        rw [heq] at this
        omega
    have hkids : ∀ x ∈ c :: rest, ∃ m, s.pages x.2.pageNo = some m := fun x hx =>
      IxFile.kid_there h.tree.shape hq hl (by rwa [hrest])
    have hlne : ln.entries ≠ [] := by
      rw [← List.length_pos_iff]
      simp only [IxNode.size] at hln
      omega
    obtain ⟨s', hrun, hroot, hfirst, hlast, hnext, hbound, hpar', hother, htree⟩ :=
      IxFile.coalesce_inner hll hl hsep hrest hkids hself hpq hparp hparq
    rw [hlnp, hview', viewKids_tail hlne] at htree
    have hchain := h.tree.joinInner htp htq htpar
    have hmoved : ((c :: rest).map fun e => e.2.pageNo) =
        c.2.pageNo :: (rest.map sepKid).map Prod.snd := by
      simp [sepKid]
    rw [hmoved] at htree
    refine ⟨s', hrun, ⟨⟨g.join p q, ls, ?_, rfl, by simp [Labels.join, hparp]⟩, ?_, hroot, hpar',
      ?_⟩⟩
    · refine h.join hthin htp htq htpar (by simp [PNode.kids, viewKids_snd, sepKid]) hroot hnext
        (hbound _ h.bounded (by omega) (by omega)).1 ?_
        (fun x v' hx => ⟨v', (congrFun htree x).symm.trans hx, .inl rfl⟩) ?_
      · rw [hroot, hfirst, hlast, htree]
        exact hchain
      · have hlen : rn.size = rest.length + 1 := by simp [IxNode.size, hrest]
        simp only [PNode.size, List.length_append, viewKids_length, List.length_cons,
          List.length_map]
        simp only [IxNode.size] at hlarge hsize hlen
        omega
    · intro k r
      rw [htree]
      exact stores_joinPages htp htq htpar rfl rfl hparp rfl
    · intro x mx hx hxh hxpar
      rw [hother x _ _ hxpar, hx]
      · intro hmem
        obtain ⟨e, he, rfl⟩ := List.mem_map.mp hmem
        have := hkidheight e he
        omega
      · rintro rfl
        omega
      · rintro rfl
        omega

end Indexed

end Grmdb
