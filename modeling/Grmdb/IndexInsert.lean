import Grmdb.IndexSplit

namespace Grmdb

open PagedTree Tiling

variable {κ : Type} [LinearOrder κ]

namespace IxFile

/-- The common end of `insert_entry` and `insert_into_parent` where a node has one entry too many. -/
def splitUp (L : IxLayout κ) (fuel : Nat) (s : IxFile κ) (p : PageNo) : IxResult κ :=
  match split L s p with
  | none => .failed
  | some s' =>
    match s'.pages s.nextPageNo with
    | none => .failed
    | some rn => insertIntoParent L fuel s' p (rn.getKey L 0) s.nextPageNo

variable {L : IxLayout κ} {s : IxFile κ} {p q : PageNo} {n pr pr' : IxNode κ} {key : κ}

theorem insertIntoParent_root {fuel : Nat} (hp : s.pages p = some n)
    (hn : n.parent = IX_NO_PAGE) :
    insertIntoParent L (fuel + 1) s p key q = growRoot L s p key q := by
  simp [insertIntoParent, hp, hn]

theorem insertIntoParent_parent {fuel : Nat} (hp : s.pages p = some n)
    (hn : n.parent ≠ IX_NO_PAGE) (hpr : s.pages n.parent = some pr)
    (hins : pr.insert L key ⟨q, 0⟩ = some pr') :
    insertIntoParent L (fuel + 1) s p key q =
      if L.btreeOrder < pr'.size then splitUp L fuel (s.write n.parent pr') n.parent
      else .returned (s.write n.parent pr') := by
  simp only [insertIntoParent, hp, if_neg hn, hpr, hins]
  rfl

/-- The file after the root branch of `insert_into_parent`, before the new root takes in `q`. -/
def adopt (s : IxFile κ) (p q : PageNo) (n m : IxNode κ) : IxFile κ :=
  (write { s.createNode with rootPage := s.nextPageNo } p { n with parent := s.nextPageNo }).write q
    { m with parent := s.nextPageNo }

omit [LinearOrder κ] in
theorem tree_adopt (s : IxFile κ) (p q : PageNo) (n m : IxNode κ) :
    (s.adopt p q n m).tree = Function.update (Function.update (Function.update s.tree s.nextPageNo
      (some (IxNode.fresh κ).view)) p (some (n.view.withParent s.nextPageNo))) q
      (some (m.view.withParent s.nextPageNo)) := by
  rw [← IxNode.view_setParent, ← IxNode.view_setParent, adopt, tree_write, tree_write]
  exact congrArg (fun t => Function.update (Function.update t p _) q _) (tree_createNode s)

omit [LinearOrder κ] in
theorem Bounded.adopt {b : Nat} {m : IxNode κ} (h : s.Bounded b) (hn : n.size ≤ b)
    (hm : m.size ≤ b) : (s.adopt p q n m).Bounded b := by
  have hcreated : Bounded { s.createNode with rootPage := s.nextPageNo } b := h.createNode
  exact (hcreated.write (n := { n with parent := s.nextPageNo }) hn).write
    (n := { m with parent := s.nextPageNo }) hm

/-- On a new root `lower_bound` compares with slot 1, which is still zero. -/
theorem growRoot_eq {m : IxNode κ} (hp : s.pages p = some n) (hq : s.pages q = some m)
    (hpq : p ≠ q) (hpn : p ≠ s.nextPageNo) (hqn : q ≠ s.nextPageNo) :
    growRoot L s p key q =
      if L.zeroKey = key then .existsError ((s.adopt p q n m).write s.nextPageNo (newRoot L p))
      else .returned ((s.adopt p q n m).write s.nextPageNo { newRoot L p with
        entries := [(L.zeroKey, ⟨p, 0⟩), (key, ⟨q, 0⟩)] }) := by
  have hset₁ : setParent { s.createNode with rootPage := s.nextPageNo } p s.nextPageNo =
      some (write { s.createNode with rootPage := s.nextPageNo } p
        { n with parent := s.nextPageNo }) := by
    simp [setParent, createNode, hpn, hp]
  have hset₂ : (write { s.createNode with rootPage := s.nextPageNo } p
      { n with parent := s.nextPageNo }).setParent q s.nextPageNo = some (s.adopt p q n m) := by
    simp [setParent, adopt, write, createNode, hpq.symm, hqn, hq]
  have hinsert : (newRoot L p).insert L key ⟨q, 0⟩ =
      if L.zeroKey = key then none
      else some { newRoot L p with entries := [(L.zeroKey, ⟨p, 0⟩), (key, ⟨q, 0⟩)] } :=
    IxNode.insert_single L rfl rfl
  simp only [growRoot, hset₁, Option.bind_some, hset₂, hinsert]
  by_cases hz : L.zeroKey = key
  · simp [hz]
  · simp [hz]

end IxFile

namespace IxNode

/-- The keys that `lower_bound` looks at. -/
def liveKeys (n : IxNode κ) : List κ := (n.entries.drop n.firstKey).map Prod.fst

/-- The key in front of the right half, once a full node has taken in `key` and is split. -/
def middle (L : IxLayout κ) (n : IxNode κ) (key : κ) : κ :=
  (n.liveKeys.orderedInsert (· ≤ ·) key).getD ((L.btreeOrder + 1) / 2 - n.firstKey) key

variable {L : IxLayout κ} {n n' : IxNode κ} {front back : List (κ × Rid)} {key : κ} {value : Rid}
  {e : κ × Rid}

theorem orderedInsert_append {ks ls : List κ} (hks : ∀ k ∈ ks, k < key) (hls : ∀ k ∈ ls, key < k) :
    (ks ++ ls).orderedInsert (· ≤ ·) key = ks ++ key :: ls := by
  induction ks with
  | nil =>
    cases ls with
    | nil => rfl
    | cons l ls => simp [(hls l (by simp)).le]
  | cons k ks ih =>
    have hk : ¬ key ≤ k := not_le.mpr (hks k (by simp))
    have hrest := ih fun j hj => hks j (by simp [hj])
    simp [hk, hrest]

theorem middle_eq (hes : n.entries = front ++ back) (hfront : n.firstKey ≤ front.length)
    (below : ∀ x ∈ front.drop n.firstKey, x.1 < key) (above : ∀ x ∈ back, key < x.1)
    (hes' : n'.entries = front ++ (key, value) :: back) (hsize : n'.size = L.btreeOrder + 1)
    (he : n'.entries[n'.size / 2]? = some e) : n.middle L key = e.1 := by
  have hfirst : n.firstKey ≤ 1 := by
    simp only [firstKey]
    split <;> omega
  have horder := L.order_large
  have hkeys : n.liveKeys = (front.drop n.firstKey).map Prod.fst ++ back.map Prod.fst := by
    rw [liveKeys, hes, List.drop_append_of_le_length hfront, List.map_append]
  have hinsert : n.liveKeys.orderedInsert (· ≤ ·) key =
      (n'.entries.drop n.firstKey).map Prod.fst := by
    rw [hkeys, orderedInsert_append, hes', List.drop_append_of_le_length hfront, List.map_append,
      List.map_cons]
    · intro k hk
      obtain ⟨x, hx, rfl⟩ := List.mem_map.mp hk
      exact below x hx
    · intro k hk
      obtain ⟨x, hx, rfl⟩ := List.mem_map.mp hk
      exact above x hx
  have hindex : n.firstKey + ((L.btreeOrder + 1) / 2 - n.firstKey) = n'.size / 2 := by omega
  rw [middle, hinsert, List.getD_eq_getElem?_getD, List.getElem?_map, List.getElem?_drop, hindex,
    he]
  rfl

end IxNode

namespace IxFile

/-- The key that goes into a new root when `key` is put into the page `p`: every node from `p` up
to the root is full and passes the key in front of its right half to its parent. -/
def sentUp (L : IxLayout κ) (s : IxFile κ) : Nat → PageNo → κ → Option κ
  | 0, _, _ => none
  | fuel + 1, p, key =>
    (s.pages p).bind fun n =>
      if n.size < L.btreeOrder then none
      else if n.parent = IX_NO_PAGE then some (n.middle L key)
      else sentUp L s fuel n.parent (n.middle L key)

end IxFile

namespace Indexed

variable {L : IxLayout κ} {s : IxFile κ} {g : Labels PageNo κ} {ls : List PageNo} {p : PageNo}
  {n : IxNode κ}

/-- One round of the splits below the root: the parent of the cut node has one entry more. -/
theorem split_step (h : Indexed L s g ls p IX_NO_PAGE) (hp : s.pages p = some n)
    (hsize : n.size = L.btreeOrder + 1) (hroot : p ≠ s.rootPage) :
    ∃ e pr pr' s' g' ls', n.entries[n.size / 2]? = some e ∧ s.pages n.parent = some pr ∧
      s'.pages n.parent = some pr' ∧ pr'.size = pr.size + 1 ∧ pr'.parent = pr.parent ∧
      (∀ e', pr'.size = L.btreeOrder + 1 → pr'.entries[pr'.size / 2]? = some e' →
        pr.middle L e.1 = e'.1) ∧
      (∀ fuel, IxFile.splitUp L (fuel + 1) s p =
        if L.btreeOrder < pr'.size then IxFile.splitUp L fuel s' n.parent else .returned s') ∧
      Indexed L s' g' ls' n.parent IX_NO_PAGE ∧ s'.rootPage = s.rootPage ∧
      (∀ k r, Stores s'.tree k r ↔ Stores s.tree k r) ∧
      g'.height n.parent = g.height p + 1 ∧ g'.height s.rootPage = g.height s.rootPage ∧
      ∀ x m, s.pages x = some m → g.height p + 1 < g.height x → s'.pages x = some m := by
  obtain ⟨pr, front, c, back, hpr, hprl, hes, hc⟩ := IxFile.parent_split h.tree.shape hp hroot
  obtain ⟨s₁, e, v₁, v₂, w, hs⟩ := h.exists_splitAt hp hsize
  obtain ⟨rn, hrn, hkey⟩ := hs.right
  obtain ⟨o, ho⟩ := viewKids_split front c
  have ht := IxFile.tree_of_pages hp
  have hfresh := h.fresh (le_refl s.nextPageNo)
  have hwith : n.view.withParent n.parent = n.view := PNode.withParent_self _ (by simp)
  have hwith₁ : v₁.withParent n.parent = v₁ := PNode.withParent_self _ hs.parent₁
  have hwith₂ : v₂.withParent n.parent = v₂ := PNode.withParent_self _ hs.parent₂
  have htpar : s.tree n.parent =
      some (.inner pr.parent (viewKids front ++ (o, p) :: back.map sepKid)) := by
    rw [IxFile.tree_of_pages hpr, IxNode.view_inner hprl, hes, ho, hc]
  have hkid : p ∈ (PNode.inner pr.parent (viewKids front ++ (o, p) :: back.map sepKid) :
      PNode PageNo κ Rid).kids := by simp [PNode.kids]
  have hheight := (h.tree.shape.fits htpar).kid_height hkid
  have hparp : n.parent ≠ p := (h.tree.shape.kid_ne htpar hkid).symm
  have hparq : n.parent ≠ s.nextPageNo := by
    intro heq
    rw [heq, hfresh] at htpar
    cases htpar
  have hnil : ∀ m, s.tree s.rootPage = some m → m.parent ≠ s.nextPageNo := by
    intro m hm heq
    have hpos := h.nextPageNo_pos
    rw [h.rootParent hm] at heq
    simp only [IX_NO_PAGE] at heq
    lia
  have hrank : ∀ x ∈ v₂.kids, g.height x + 1 = g.height p := by
    intro x hx
    refine (h.tree.shape.fits ht).kid_height ?_
    rw [hs.kids]
    exact List.mem_append_right _ hx
  obtain ⟨hlo, hhi, ls', hchain⟩ := hs.cut h.tree (by rw [hwith]; exact ht) htpar hfresh hnil
  rw [hwith₁, hwith₂] at hchain
  have hprsize : 2 ≤ pr.size := h.bTree.inner hpr hprl
  have hins : pr.insert L e.1 ⟨s.nextPageNo, 0⟩ = some { pr with
      entries := front ++ c :: (e.1, ⟨s.nextPageNo, 0⟩) :: back, dead := pr.dead.tail } :=
    IxFile.insert_child h.tree.shape hpr hprl hprsize hes (hc ▸ hlo) (hc ▸ hhi)
  obtain ⟨hbelow, habove⟩ := IxFile.child_keys h.tree.shape hpr hprl hes (hc ▸ hlo) (hc ▸ hhi)
  generalize hpr' : ({ pr with
      entries := front ++ c :: (e.1, ⟨s.nextPageNo, 0⟩) :: back, dead := pr.dead.tail } :
      IxNode κ) = pr' at hins
  have hsize' : pr'.size = pr.size + 1 := by
    rw [← hpr']
    simp only [IxNode.size, hes, List.length_append, List.length_cons]
    omega
  have hview' : pr'.view = .inner pr.parent
      (viewKids front ++ (o, p) :: (some e.1, s.nextPageNo) :: back.map sepKid) := by
    rw [IxNode.view_inner (by rw [← hpr']; exact hprl), ← hpr', ho, hc]
    rfl
  have hpr₁ : s₁.pages n.parent = some pr := by
    refine hs.other hparp hpr hprl fun hmem => ?_
    have := hrank _ hmem
    omega
  obtain ⟨n₁, hn₁, hn₁p⟩ : ∃ n₁, s₁.pages p = some n₁ ∧ n₁.parent = n.parent := by
    obtain ⟨m, hm, hcase⟩ := hs.relinks.exists_some
      (show splitPages s.tree p s.nextPageNo v₁ v₂ p = some v₁ by simp [splitPages])
    rw [← hs.tree] at hm
    obtain ⟨n₁, hn₁, rfl⟩ := IxFile.tree_eq_some.mp hm
    refine ⟨n₁, hn₁, ?_⟩
    rw [← hs.parent₁, ← IxNode.view_parent]
    rcases hcase with hcase | hcase <;> simp [hcase]
  have hnotRoot : n₁.parent ≠ IX_NO_PAGE := by
    rw [hn₁p, ← IxNode.view_parent]
    exact fun heq => hroot ((h.parent_eq_noPage ht).mp heq)
  have htree : (s₁.write n.parent pr').tree = w (cutPages s.tree p s.nextPageNo n.parent v₁ v₂
      (.inner pr.parent
        (viewKids front ++ (o, p) :: (some e.1, s.nextPageNo) :: back.map sepKid))) := by
    funext x
    rw [IxFile.tree_write, hview']
    by_cases hx : x = n.parent
    · rw [hx, Function.update_self, hs.relinks.inner (cutPages_parent hparp hparq)]
    · rw [Function.update_of_ne hx, hs.tree]
      refine hs.relinks.congr ?_
      simp [splitPages, cutPages, hx]
  have hpage₁ := h.nextPageNo_pos
  refine ⟨e, pr, pr', s₁.write n.parent pr', g.cut p s.nextPageNo e.1, ls', hs.mid, hpr, ?_,
    hsize', by rw [← hpr'], ?_, ?_, ?_, hs.rootPage, ?_, ?_, ?_, ?_⟩
  · simp [IxFile.write]
  · intro e' hfull he'
    have hfirst : pr.firstKey = 1 := by simp [IxNode.firstKey, hprl]
    have hes₀ : pr.entries = (front ++ [c]) ++ back := by simp [hes]
    have hes' : pr'.entries = (front ++ [c]) ++ (e.1, ⟨s.nextPageNo, 0⟩) :: back := by
      rw [← hpr']
      simp
    exact IxNode.middle_eq hes₀ (by simp [hfirst]) hbelow habove hes' hfull he'
  · intro fuel
    simp only [IxFile.splitUp, hs.run, hrn, hkey]
    rw [IxFile.insertIntoParent_parent hn₁ hnotRoot (by rw [hn₁p, hpr₁]) hins, hn₁p]
    rfl
  · have hcut := fun x v' (hx : (s₁.write n.parent pr').tree x = some v') =>
      hs.relinks.cases ((congrFun htree x).symm.trans hx)
    refine h.cut (.inl rfl) (fun heq => ?_) ht htpar (by simp) ?_ ?_ hfresh hs.rootPage
      ?_ hpage₁.le ?_ ?_ ?_ hcut hs.size₁ hs.size₂
    · rw [← heq, h.noPage] at htpar
      cases htpar
    · simp only [List.length_append, List.length_cons]
      omega
    · intro x hx
      rw [hs.kids]
      exact List.mem_append_right _ hx
    · simp only [IxFile.write, hs.nextPageNo]
      lia
    · simp only [IxFile.write, hs.nextPageNo]
      lia
    · have hprle := h.le htpar hparp
      have hb := (hs.bounded _ h.bounded).1
      simp only [IxFile.write, hsize']
      have : pr.size ≤ L.btreeOrder := by
        rw [← IxNode.view_size]
        exact h.le (IxFile.tree_of_pages hpr) hparp
      omega
    · rw [htree]
      show ChainedTree s₁.rootPage s₁.firstLeaf s₁.lastLeaf _ _ _
      rw [hs.rootPage]
      exact hchain
  · intro k r
    rw [htree, hs.relinks.stores]
    exact stores_cutPages ht hfresh htpar rfl rfl hparp hs.entries
  · simp only [Labels.cut, Function.update_of_ne hparq]
    omega
  · have hrootq : s.rootPage ≠ s.nextPageNo := by
      obtain ⟨m, hm, -⟩ := h.tree.shape.rootAt
      intro heq
      rw [heq, hfresh] at hm
      cases hm
    simp [Labels.cut, hrootq]
  · intro x m hx hxh
    have hxp : x ≠ p := by
      rintro rfl
      omega
    have hxpar : x ≠ n.parent := by
      rintro rfl
      omega
    have hxl : m.isLeaf = false := by
      cases hl : m.isLeaf with
      | false => rfl
      | true =>
        have := (IxFile.fits_leaf h.tree.shape hx hl).1
        omega
    simp only [IxFile.write, Function.update_of_ne hxpar]
    refine hs.other hxp hx hxl fun hmem => ?_
    have := hrank x hmem
    omega

/-- The index with a new root on page `r` above the old one, which holds one entry too many. -/
theorem wrap {r : PageNo} (h : Indexed L s g ls s.rootPage IX_NO_PAGE)
    (hp : s.pages s.rootPage = some n) (hsize : n.size = L.btreeOrder + 1)
    (hr : s.nextPageNo ≤ r) :
    Indexed L
      { s with
        rootPage := r, nextPageNo := r + 1,
        pages := Function.update (Function.update s.pages s.rootPage (some { n with parent := r })) r
          (some (IxFile.newRoot L s.rootPage)) }
      (g.wrap s.rootPage r) ls s.rootPage r := by
  have hfresh := h.fresh hr
  have hpos := h.nextPageNo_pos
  have ht := IxFile.tree_of_pages hp
  have hrr : s.rootPage ≠ r := by
    intro heq
    rw [heq, hfresh] at ht
    cases ht
  have hnil : IX_NO_PAGE ≠ r := by
    simp only [IX_NO_PAGE]
    lia
  have hchain := h.tree.wrap ht hfresh h.noPage hnil
  have htree : IxFile.tree { s with
        rootPage := r, nextPageNo := r + 1,
        pages := Function.update (Function.update s.pages s.rootPage (some { n with parent := r })) r
          (some (IxFile.newRoot L s.rootPage)) } =
      Function.update (Function.update s.tree s.rootPage (some (n.view.withParent r))) r
        (some (.inner IX_NO_PAGE [(none, s.rootPage)])) := by
    funext x
    by_cases hx : x = r
    · subst hx
      simp [IxFile.tree, IxFile.newRoot, IxNode.view, IxNode.fresh, viewKids]
    by_cases hxp : x = s.rootPage
    · subst hxp
      simp [IxFile.tree, hx, IxNode.view_setParent]
    · simp [IxFile.tree, hx, hxp]
  have hcases : ∀ {x v}, Function.update (Function.update s.tree s.rootPage
      (some (n.view.withParent r))) r (some (.inner IX_NO_PAGE [(none, s.rootPage)])) x = some v →
      x = r ∧ v = .inner IX_NO_PAGE [(none, s.rootPage)] ∨
      x ≠ r ∧ x = s.rootPage ∧ v.size = L.btreeOrder + 1 ∨
      x ≠ r ∧ x ≠ s.rootPage ∧ s.tree x = some v := by
    intro x v hx
    by_cases hxr : x = r
    · subst hxr
      rw [Function.update_self] at hx
      exact .inl ⟨rfl, (Option.some.inj hx).symm⟩
    rw [Function.update_of_ne hxr] at hx
    by_cases hxp : x = s.rootPage
    · subst hxp
      rw [Function.update_self] at hx
      cases Option.some.inj hx
      exact .inr (.inl ⟨hxr, rfl, by simpa using hsize⟩)
    · rw [Function.update_of_ne hxp] at hx
      exact .inr (.inr ⟨hxr, hxp, hx⟩)
  have horder := L.order_large
  have hmin := L.minSize_eq
  refine ⟨by rw [htree]; exact hchain, ?_, ?_, h.peak, ?_, ?_, ?_, ?_⟩
  · intro v hv
    rw [htree] at hv
    rcases hcases hv with ⟨-, rfl⟩ | ⟨hne, -⟩ | ⟨hne, -⟩
    · rfl
    · exact absurd rfl hne
    · exact absurd rfl hne
  · intro x v hv
    rw [htree] at hv
    simp only
    rcases hcases hv with ⟨rfl, -⟩ | ⟨-, rfl, -⟩ | ⟨-, -, hx⟩
    · lia
    · have := h.pageNo ht
      lia
    · have := h.pageNo hx
      lia
  · intro v hv
    rw [htree] at hv
    rcases hcases hv with ⟨heq, -⟩ | ⟨-, -, hv⟩ | ⟨-, hne, -⟩
    · exact absurd heq hrr
    · omega
    · exact absurd rfl hne
  · intro x v hv hne
    rw [htree] at hv
    rcases hcases hv with ⟨-, rfl⟩ | ⟨-, heq, -⟩ | ⟨-, -, hx⟩
    · simp only [PNode.size, List.length_singleton]
      omega
    · exact absurd heq hne
    · exact h.le hx hne
  · intro x v hv hthin _
    rw [htree] at hv
    rcases hcases hv with ⟨heq, -⟩ | ⟨-, -, hv⟩ | ⟨-, hne, hx⟩
    · exact absurd heq hthin
    · omega
    · refine h.ge hx ?_ hne
      rintro rfl
      rw [h.noPage] at hx
      cases hx
  · intro v _ hne
    exact absurd rfl hne

/-- The last round of the splits: the cut node was the root. The new root takes in the right half
unless the key in front of it is the one whose bytes are all zero. -/
theorem split_root (h : Indexed L s g ls s.rootPage IX_NO_PAGE) (hp : s.pages s.rootPage = some n)
    (hsize : n.size = L.btreeOrder + 1) :
    ∃ e s' g' ls', n.entries[n.size / 2]? = some e ∧
      (e.1 = L.zeroKey → ∀ fuel, ∃ s', IxFile.splitUp L (fuel + 1) s s.rootPage = .existsError s') ∧
      (e.1 ≠ L.zeroKey → ∀ fuel, IxFile.splitUp L (fuel + 1) s s.rootPage = .returned s') ∧
      Indexed L s' g' ls' IX_NO_PAGE IX_NO_PAGE ∧ ∀ k r, Stores s'.tree k r ↔ Stores s.tree k r := by
  obtain ⟨s₁, e, v₁, v₂, w, hs⟩ := h.exists_splitAt hp hsize
  obtain ⟨rn, hrn, hkey⟩ := hs.right
  have ht := IxFile.tree_of_pages hp
  have hfresh := h.fresh (le_refl s.nextPageNo)
  have hpos := h.nextPageNo_pos
  have hn : n.parent = IX_NO_PAGE := by
    rw [← IxNode.view_parent]
    exact h.rootParent ht
  generalize hr : s.nextPageNo + 1 = r
  have hr₁ : s₁.nextPageNo = r := by rw [hs.nextPageNo, hr]
  have hpage := h.pageNo ht
  have hpq : s.rootPage ≠ s.nextPageNo := by lia
  have hpr : s.rootPage ≠ r := by lia
  have hqr : s.nextPageNo ≠ r := by lia
  have hwrap := h.wrap (r := r) hp hsize (by lia)
  generalize hs₀ : ({ s with
      rootPage := r, nextPageNo := r + 1,
      pages := Function.update (Function.update s.pages s.rootPage (some { n with parent := r })) r
        (some (IxFile.newRoot L s.rootPage)) } : IxFile κ) = s₀ at hwrap
  have htp : s₀.tree s.rootPage = some (n.view.withParent r) := by
    rw [← hs₀]
    simp [IxFile.tree, hpr, IxNode.view_setParent]
  have htr : s₀.tree r = some (.inner IX_NO_PAGE ([] ++ (none, s.rootPage) :: [])) := by
    rw [← hs₀]
    simp [IxFile.tree, IxFile.newRoot, IxNode.view, IxNode.fresh, viewKids]
  have hto : ∀ x, x ≠ s.rootPage → x ≠ r → s₀.tree x = s.tree x := by
    intro x hxp hxr
    rw [← hs₀]
    simp [IxFile.tree, hxp, hxr]
  have hroot₀ : s₀.rootPage = r := by rw [← hs₀]
  have htq : s₀.tree s.nextPageNo = none := by rw [hto _ hpq.symm hqr, hfresh]
  have hchain₀ := hwrap.tree
  rw [show s₀.firstLeaf = s.firstLeaf by rw [← hs₀], show s₀.lastLeaf = s.lastLeaf by rw [← hs₀],
    hroot₀] at hchain₀
  have hnil : ∀ m, s₀.tree r = some m → m.parent ≠ s.nextPageNo := by
    intro m hm
    rw [htr] at hm
    cases Option.some.inj hm
    simp only [PNode.parent, IX_NO_PAGE]
    lia
  obtain ⟨-, -, ls', hchain⟩ := hs.cut hchain₀ htp htr htq hnil
  simp only [List.nil_append] at hchain
  obtain ⟨n₁, hn₁, hn₁p⟩ : ∃ n₁, s₁.pages s.rootPage = some n₁ ∧ n₁.parent = n.parent := by
    obtain ⟨m, hm, hcase⟩ := hs.relinks.exists_some
      (show splitPages s.tree s.rootPage s.nextPageNo v₁ v₂ s.rootPage = some v₁ by
        simp [splitPages])
    rw [← hs.tree] at hm
    obtain ⟨n₁, hn₁, rfl⟩ := IxFile.tree_eq_some.mp hm
    refine ⟨n₁, hn₁, ?_⟩
    rw [← hs.parent₁, ← IxNode.view_parent]
    rcases hcase with hcase | hcase <;> simp [hcase]
  have hgrow : IxFile.growRoot L s₁ s.rootPage e.1 s.nextPageNo = _ :=
    IxFile.growRoot_eq hn₁ hrn hpq (by lia) (by lia)
  have hrun : ∀ fuel, IxFile.splitUp L (fuel + 1) s s.rootPage =
      IxFile.growRoot L s₁ s.rootPage e.1 s.nextPageNo := by
    intro fuel
    simp only [IxFile.splitUp, hs.run, hrn, hkey]
    exact IxFile.insertIntoParent_root hn₁ (hn₁p.trans hn)
  rw [hr₁] at hgrow
  generalize hs' : (s₁.adopt s.rootPage s.nextPageNo n₁ rn).write r { IxFile.newRoot L s.rootPage with
        entries := [(L.zeroKey, ⟨s.rootPage, 0⟩), (e.1, ⟨s.nextPageNo, 0⟩)] } = s' at hgrow
  have htree : s'.tree = w (cutPages s₀.tree s.rootPage s.nextPageNo r (v₁.withParent r)
      (v₂.withParent r) (.inner IX_NO_PAGE [(none, s.rootPage), (some e.1, s.nextPageNo)])) := by
    have hmap : ∀ x, x = s.rootPage ∨ x = s.nextPageNo →
        w (cutPages s₀.tree s.rootPage s.nextPageNo r (v₁.withParent r) (v₂.withParent r)
          (.inner IX_NO_PAGE [(none, s.rootPage), (some e.1, s.nextPageNo)])) x =
        (s₁.tree x).map (PNode.withParent r) := by
      intro x hx
      rw [hs.tree]
      refine hs.relinks.map_withParent ?_
      rcases hx with rfl | rfl
      · simp [cutPages, splitPages]
      · simp [cutPages, splitPages, hpq.symm]
    funext x
    rw [← hs', IxFile.tree_write, IxFile.tree_adopt, hr₁]
    by_cases hxr : x = r
    · rw [hxr, Function.update_self, hs.relinks.inner (cutPages_parent hpr.symm hqr.symm)]
      rfl
    rw [Function.update_of_ne hxr]
    by_cases hxq : x = s.nextPageNo
    · rw [hxq, Function.update_self, hmap _ (.inr rfl), IxFile.tree_of_pages hrn]
      rfl
    rw [Function.update_of_ne hxq]
    by_cases hxp : x = s.rootPage
    · rw [hxp, Function.update_self, hmap _ (.inl rfl), IxFile.tree_of_pages hn₁]
      rfl
    · rw [Function.update_of_ne hxp, Function.update_of_ne hxr, hs.tree]
      refine hs.relinks.congr ?_
      simp [splitPages, cutPages, hxp, hxq, hxr, hto x hxp hxr]
  refine ⟨e, s', (g.wrap s.rootPage r).cut s.rootPage s.nextPageNo e.1, ls', hs.mid, ?_, ?_, ?_, ?_⟩
  · intro hz fuel
    rw [hrun, hgrow, if_pos hz.symm]
    exact ⟨_, rfl⟩
  · intro hz fuel
    rw [hrun, hgrow, if_neg (Ne.symm hz)]
  · have hcut := fun x v' (hx : s'.tree x = some v') =>
      hs.relinks.cases ((congrFun htree x).symm.trans hx)
    have hroot' : s'.rootPage = r := by
      rw [← hs', ← hr₁]
      rfl
    have hnext' : s'.nextPageNo = r + 1 := by
      rw [← hs', ← hr₁]
      rfl
    have hindexed : Indexed L s' ((g.wrap s.rootPage r).cut s.rootPage s.nextPageNo e.1) ls' r
        IX_NO_PAGE := by
      refine hwrap.cut (.inr rfl) (fun _ => hroot₀.symm) htp htr (by simp) rfl ?_ htq
        (hroot'.trans hroot₀.symm) ?_ hpos.le (by lia) ?_ ?_ hcut (by simpa using hs.size₁)
        (by simpa using hs.size₂)
      · intro x hx
        simp only [PNode.kids_withParent] at hx ⊢
        rw [hs.kids]
        exact List.mem_append_right _ hx
      · rw [hnext', ← hs₀]
      · have horder := L.order_large
        have hb := hs.bounded _ h.bounded
        rw [← hs']
        refine max_le (hb.adopt (hb.2 _ _ hn₁) (hb.2 _ _ hrn)).1 ?_
        simp only [IxNode.size, List.length_cons, List.length_nil]
        omega
      · rw [hroot', htree, ← hs']
        exact hchain
    refine hindexed.settle fun v hv => ?_
    rw [htree, hs.relinks.inner (cutPages_parent hpr.symm hqr.symm)] at hv
    cases Option.some.inj hv
    have horder := L.order_large
    simp only [PNode.size, List.length_cons, List.length_nil]
    omega
  · intro k r'
    rw [htree, hs.relinks.stores, stores_cutPages htp htq htr rfl rfl hpr.symm
      (by simpa using hs.entries)]
    constructor
    · rintro ⟨x, v, hx, hv⟩
      by_cases hxr : x = r
      · rw [hxr, htr] at hx
        cases Option.some.inj hx
        cases hv
      by_cases hxp : x = s.rootPage
      · rw [hxp, htp] at hx
        cases Option.some.inj hx
        exact ⟨_, _, ht, by simpa using hv⟩
      · rw [hto x hxp hxr] at hx
        exact ⟨x, v, hx, hv⟩
    · rintro ⟨x, v, hx, hv⟩
      have hxr : x ≠ r := by
        have := h.pageNo hx
        lia
      by_cases hxp : x = s.rootPage
      · subst hxp
        cases Option.some.inj (ht.symm.trans hx)
        exact ⟨_, _, htp, by simpa using hv⟩
      · exact ⟨x, v, by rw [hto x hxp hxr, hx], hv⟩

/-- `sentUp` looks only at the page and those above it. -/
theorem sentUp_congr {s' : IxFile κ} {full thin : PageNo} (h : Indexed L s g ls full thin)
    {least fuel : Nat} {key : κ}
    (hsame : ∀ x m, s.pages x = some m → least < g.height x → s'.pages x = some m)
    (hp : s.pages p = some n) (hleast : least < g.height p) :
    IxFile.sentUp L s' fuel p key = IxFile.sentUp L s fuel p key := by
  induction fuel generalizing p n key with
  | zero => rfl
  | succ fuel ih =>
    simp only [IxFile.sentUp, hp, hsame p n hp hleast, Option.bind_some]
    split
    · rfl
    · split
      · rfl
      · next hparent =>
        have ht := IxFile.tree_of_pages hp
        have hroot : p ≠ s.rootPage := by
          rintro rfl
          rw [← IxNode.view_parent] at hparent
          exact hparent (h.rootParent ht)
        obtain ⟨v, hv, hkid⟩ := h.tree.shape.up ht hroot
        have hheight := (h.tree.shape.fits hv).kid_height hkid
        rw [IxNode.view_parent] at hv hheight
        obtain ⟨m, hm, -⟩ := IxFile.tree_eq_some.mp hv
        exact ih hm (by omega)

/-- What the key in front of the right half of the node `n` leads to further up. -/
def upward (L : IxLayout κ) (s : IxFile κ) (fuel : Nat) (n : IxNode κ) (key : κ) : Option κ :=
  if n.parent = IX_NO_PAGE then some key else IxFile.sentUp L s fuel n.parent key

/-- All rounds of the splits, from the node `n` of page `p` on that has one entry too many. -/
theorem splitUp_spec {fuel f : Nat} {e : κ × Rid} (h : Indexed L s g ls p IX_NO_PAGE)
    (hp : s.pages p = some n) (hsize : n.size = L.btreeOrder + 1)
    (he : n.entries[n.size / 2]? = some e) (hfuel : g.height s.rootPage < g.height p + fuel)
    (hf : g.height s.rootPage ≤ g.height p + f) :
    (upward L s f n e.1 = some L.zeroKey → ∃ s', IxFile.splitUp L fuel s p = .existsError s') ∧
    (upward L s f n e.1 ≠ some L.zeroKey → ∃ s' g' ls', IxFile.splitUp L fuel s p = .returned s' ∧
      Indexed L s' g' ls' IX_NO_PAGE IX_NO_PAGE ∧
      ∀ k r, Stores s'.tree k r ↔ Stores s.tree k r) := by
  -- one round for each level from `p` to the root
  induction fuel generalizing s g ls p n e f with
  | zero =>
    exfalso
    have hle : g.height p ≤ g.height s.rootPage := h.height_le_root hp
    omega
  | succ fuel ih =>
    have ht := IxFile.tree_of_pages hp
    have hparent := h.parent_eq_noPage ht
    rw [IxNode.view_parent] at hparent
    by_cases hroot : p = s.rootPage
    · subst hroot
      obtain ⟨e', s', g', ls', he', hzero, hother, hindexed, hstores⟩ := h.split_root hp hsize
      cases Option.some.inj (he.symm.trans he')
      rw [upward, if_pos (hparent.mpr rfl)]
      refine ⟨fun hz => hzero (Option.some.inj hz) fuel, fun hz => ?_⟩
      exact ⟨s', g', ls', hother (fun heq => hz (by rw [heq])) fuel, hindexed, hstores⟩
    · obtain ⟨e', pr, pr', s', g', ls', he', hpr, hpr', hsize', hparent', hmiddle, hrun, hindexed,
        hroot', hstores, hheight, hrootHeight, hframe⟩ := h.split_step hp hsize hroot
      cases Option.some.inj (he.symm.trans he')
      have hle : pr.size ≤ L.btreeOrder := by
        rw [← IxNode.view_size]
        refine h.le (IxFile.tree_of_pages hpr) ?_
        rintro heq
        have := h.height_parent hp hroot
        rw [heq] at this
        omega
      have hlevel := h.height_parent hp hroot
      have hrank := h.height_le_root hpr
      obtain ⟨f, rfl⟩ : ∃ f', f = f' + 1 := ⟨f - 1, by omega⟩
      rw [upward, if_neg fun heq => hroot (hparent.mp heq), IxFile.sentUp, hpr, Option.bind_some,
        hrun]
      by_cases hroom : pr.size < L.btreeOrder
      · rw [if_pos hroom, if_neg (by omega)]
        refine ⟨fun hz => by simp at hz, fun _ => ?_⟩
        refine ⟨s', g', ls', rfl, hindexed.settle fun v hv => ?_, hstores⟩
        rw [IxFile.tree_of_pages hpr'] at hv
        cases Option.some.inj hv
        rw [IxNode.view_size]
        omega
      · have hfull : pr'.size = L.btreeOrder + 1 := by omega
        obtain ⟨e', he'⟩ : ∃ e', pr'.entries[pr'.size / 2]? = some e' := by
          refine ⟨_, List.getElem?_eq_getElem ?_⟩
          simp only [IxNode.size] at hfull ⊢
          omega
        have hnext := ih (f := f) hindexed hpr' hfull he' (by rw [hroot', hrootHeight, hheight]; omega)
          (by rw [hroot', hrootHeight, hheight]; omega)
        have hup : upward L s' f pr' e'.1 = if pr.parent = IX_NO_PAGE then some (pr.middle L e.1)
            else IxFile.sentUp L s f pr.parent (pr.middle L e.1) := by
          rw [upward, hparent', hmiddle e' hfull he']
          split
          · rfl
          · next hne =>
            have hnotRoot : n.parent ≠ s.rootPage := by
              intro heq
              have := (h.parent_eq_noPage (IxFile.tree_of_pages hpr)).mpr heq
              rw [IxNode.view_parent] at this
              exact hne this
            obtain ⟨m, hm⟩ := h.parent_there hpr hnotRoot
            have := h.height_parent hpr hnotRoot
            exact h.sentUp_congr hframe hm (by omega)
        rw [hup] at hnext
        rw [if_neg hroom, if_pos (show L.btreeOrder < pr'.size by omega)]
        refine ⟨hnext.1, fun hz => ?_⟩
        obtain ⟨s'', g'', ls'', hrun', hindexed', hstores'⟩ := hnext.2 hz
        exact ⟨s'', g'', ls'', hrun', hindexed', fun k r => (hstores' k r).trans (hstores k r)⟩

end Indexed

end Grmdb
