import Grmdb.LeafChain

namespace PagedTree

open Tiling

variable {π κ ρ : Type} [DecidableEq π]

/-- The leaf `b` gets `q` as its previous leaf. -/
def relink (pages : π → Option (PNode π κ ρ)) (b q : π) : π → Option (PNode π κ ρ) := fun x =>
  if x = b then (pages x).map (PNode.withPrev q) else pages x

section Relink

variable {pages : π → Option (PNode π κ ρ)} {p q b x par : π} {n₁ n₂ n u up m m' : PNode π κ ρ}

theorem relink_cases (hx : relink pages b q x = some m') :
    ∃ m, pages x = some m ∧ (m' = m ∨ m' = m.withPrev q) := by
  unfold relink at hx
  split at hx
  · obtain ⟨m, hm, rfl⟩ := Option.map_eq_some_iff.mp hx
    exact ⟨m, hm, .inr rfl⟩
  · exact ⟨m', hx, .inl rfl⟩

theorem relink_some (hx : pages x = some m) :
    ∃ m', relink pages b q x = some m' ∧ (m' = m ∨ m' = m.withPrev q) := by
  unfold relink
  split
  · exact ⟨m.withPrev q, by rw [hx]; rfl, .inr rfl⟩
  · exact ⟨m, hx, .inl rfl⟩

theorem relink_none (hx : pages x = none) : relink pages b q x = none := by
  unfold relink
  split
  · rw [hx]
    rfl
  · exact hx

theorem linksOf_relink : linksOf (relink pages b q) = setPrev (linksOf pages) b q := by
  funext x
  simp only [linksOf, relink, setPrev]
  split
  · cases hx : pages x with
    | none => rfl
    | some m => cases m <;> rfl
  · rfl

theorem stores_relink {k : κ} {r : ρ} : Stores (relink pages b q) k r ↔ Stores pages k r := by
  constructor
  · rintro ⟨x, m', hx, hm'⟩
    obtain ⟨m, hm, rfl | rfl⟩ := relink_cases hx
    · exact ⟨x, _, hm, hm'⟩
    · exact ⟨x, m, hm, by simpa using hm'⟩
  · rintro ⟨x, m, hx, hm⟩
    obtain ⟨m', hm', rfl | rfl⟩ := relink_some (b := b) (q := q) hx
    · exact ⟨x, _, hm', hm⟩
    · exact ⟨x, _, hm', by simpa using hm⟩

/-- The links after a cut: only the two halves have new ones. -/
theorem linksOf_cutPages (hpq : p ≠ q) (hparp : par ≠ p) (hparq : par ≠ q)
    (hpar : pages par = some u) (hu : u.links = none) (hup : up.links = none) :
    linksOf (cutPages pages p q par n₁ n₂ up) =
      Function.update (Function.update (linksOf pages) p n₁.links) q n₂.links := by
  funext x
  by_cases hxp : x = p
  · subst hxp
    simp [linksOf, cutPages_left, hpq]
  by_cases hxq : x = q
  · subst hxq
    simp [linksOf, cutPages_right hpq.symm]
  rw [Function.update_of_ne hxq, Function.update_of_ne hxp]
  by_cases hxpar : x = par
  · subst hxpar
    simp [linksOf, cutPages_parent hparp hparq, hup, hpar, hu]
  by_cases hk : x ∈ n₂.kids
  · rw [linksOf, cutPages_moved hxp hxq hxpar hk, linksOf]
    cases pages x <;> simp
  · rw [linksOf, cutPages_other hxp hxq hxpar hk, linksOf]

theorem linksOf_joinPages {moved : List π} (hpq : p ≠ q) (hparp : par ≠ p) (hparq : par ≠ q)
    (hpar : pages par = some u) (hu : u.links = none) (hup : up.links = none) :
    linksOf (joinPages pages p q par moved n up) =
      Function.update (Function.update (linksOf pages) p n.links) q none := by
  funext x
  by_cases hxp : x = p
  · subst hxp
    simp [linksOf, joinPages_left, hpq]
  by_cases hxq : x = q
  · subst hxq
    simp [linksOf, joinPages_right hpq.symm]
  rw [Function.update_of_ne hxq, Function.update_of_ne hxp]
  by_cases hxpar : x = par
  · subst hxpar
    simp [linksOf, joinPages_parent hparp hparq, hup, hpar, hu]
  by_cases hk : x ∈ moved
  · rw [linksOf, joinPages_moved hxp hxq hxpar hk, linksOf]
    cases pages x <;> simp
  · rw [linksOf, joinPages_other hxp hxq hxpar hk, linksOf]

theorem linksOf_update (h : n.links = linksOf pages p) :
    linksOf (Function.update pages p (some n)) = linksOf pages := by
  funext x
  by_cases hx : x = p
  · subst hx
    simpa [linksOf] using h
  · simp [linksOf, hx]

end Relink

/-- The pages once the node of `p` has been cut in two, before the parent knows of `q`. -/
def splitPages (pages : π → Option (PNode π κ ρ)) (p q : π) (n₁ n₂ : PNode π κ ρ) :
    π → Option (PNode π κ ρ) := fun x =>
  if x = p then some n₁ else if x = q then some n₂
  else if x ∈ n₂.kids then (pages x).map (PNode.withParent q) else pages x

/-- Relinking of a neighbour, or nothing where the cut node is no leaf. -/
def Relinks (q : π) (w : (π → Option (PNode π κ ρ)) → π → Option (PNode π κ ρ)) : Prop :=
  w = id ∨ ∃ b, w = fun pages => relink pages b q

namespace Relinks

variable {q x : π} {w : (π → Option (PNode π κ ρ)) → π → Option (PNode π κ ρ)}
  {pages : π → Option (PNode π κ ρ)} {m m' : PNode π κ ρ}

theorem cases (h : Relinks q w) (hx : w pages x = some m') :
    ∃ m, pages x = some m ∧ (m' = m ∨ m' = m.withPrev q) := by
  rcases h with rfl | ⟨b, rfl⟩
  · exact ⟨m', hx, .inl rfl⟩
  · exact relink_cases hx

theorem exists_some (h : Relinks q w) (hx : pages x = some m) :
    ∃ m', w pages x = some m' ∧ (m' = m ∨ m' = m.withPrev q) := by
  rcases h with rfl | ⟨b, rfl⟩
  · exact ⟨m, hx, .inl rfl⟩
  · exact relink_some hx

theorem inner {par : π} {cs : List (Option κ × π)} (h : Relinks q w)
    (hx : pages x = some (.inner par cs)) : w pages x = some (.inner par cs) := by
  obtain ⟨m', hm', rfl | rfl⟩ := h.exists_some hx
  · exact hm'
  · exact hm'

theorem congr (h : Relinks q w) {pages' : π → Option (PNode π κ ρ)}
    (hx : pages x = pages' x) : w pages x = w pages' x := by
  rcases h with rfl | ⟨b, rfl⟩
  · exact hx
  · simp [relink, hx]

theorem map_withParent (h : Relinks q w) {pages' : π → Option (PNode π κ ρ)} {r : π}
    (hx : pages' x = (pages x).map (PNode.withParent r)) :
    w pages' x = (w pages x).map (PNode.withParent r) := by
  rcases h with rfl | ⟨b, rfl⟩
  · exact hx
  · simp only [relink, hx]
    split
    · cases pages x with
      | none => rfl
      | some m => cases m <;> rfl
    · rfl

theorem stores (h : Relinks q w) {k : κ} {r : ρ} : Stores (w pages) k r ↔ Stores pages k r := by
  rcases h with rfl | ⟨b, rfl⟩
  · rfl
  · exact stores_relink

end Relinks

variable [LinearOrder κ] {root first last : π} {pages : π → Option (PNode π κ ρ)}
  {g : Labels π κ} {ls : List π}

theorem TreeShape.relink (h : TreeShape root pages g) (b q : π) :
    TreeShape root (relink pages b q) g := by
  cases hb : pages b with
  | none =>
    have hsame : PagedTree.relink pages b q = pages := by
      funext x
      by_cases hx : x = b
      · rw [hx, hb, relink_none hb]
      · simp [PagedTree.relink, hx]
    rw [hsame]
    exact h
  | some m =>
    have hsame : PagedTree.relink pages b q = Function.update pages b (some (m.withPrev q)) := by
      funext x
      by_cases hx : x = b
      · subst hx
        simp [PagedTree.relink, hb]
      · simp [PagedTree.relink, hx]
    rw [hsame]
    exact h.replace hb (by simp) (by simp) (fits_withPrev.mpr (h.fits hb))

/-- A search tree whose leaves are chained in key order. -/
structure ChainedTree (root first last : π) (pages : π → Option (PNode π κ ρ)) (g : Labels π κ)
    (ls : List π) : Prop where
  shape : TreeShape root pages g
  chain : LeafChain (linksOf pages) g first last ls

namespace ChainedTree

variable {p q c par pp a b x y nil r : π} {o o' : Option κ} {sep sep' : κ}
  {front back cs₁ cs₂ ds₁ ds₂ : List (Option κ × π)} {es₁ es₂ fs₁ fs₂ es : List (κ × ρ)}
  {e : κ × ρ} {d : π} {n m : PNode π κ ρ}

omit [DecidableEq π] in
theorem mem_ls (h : ChainedTree root first last pages g ls)
    (hp : pages p = some (.leaf par a b es)) : p ∈ ls :=
  h.chain.leaves.mpr ⟨(a, b), by simp [linksOf, hp, PNode.links]⟩

omit [DecidableEq π] in
theorem notMem_ls (h : ChainedTree root first last pages g ls)
    (hp : linksOf pages p = none) : p ∉ ls := by
  intro hmem
  obtain ⟨l, hl⟩ := h.chain.leaves.mp hmem
  rw [hp] at hl
  cases hl

omit [DecidableEq π] in
/-- Two neighbours below one parent. -/
theorem ne_of_neighbours (h : ChainedTree root first last pages g ls)
    (hpar : pages par = some (.inner pp (front ++ (o, p) :: (o', q) :: back))) :
    p ≠ q ∧ par ≠ p ∧ par ≠ q := by
  have hnodup := (h.shape.fits hpar).kids_nodup
  simp only [PNode.kids, List.map_append, List.map_cons] at hnodup
  have hpq := (List.nodup_append.mp hnodup).2.1
  simp only [List.nodup_cons, List.mem_cons, not_or] at hpq
  refine ⟨hpq.1.1, ?_, ?_⟩
  · exact (h.shape.kid_ne hpar (by simp [PNode.kids])).symm
  · exact (h.shape.kid_ne hpar (by simp [PNode.kids])).symm

/-- A leaf is cut in two, the new page goes into the chain and below the parent behind it. -/
theorem cutLeaf (h : ChainedTree root first last pages g ls)
    (hp : pages p = some (.leaf par a b (es₁ ++ e :: es₂))) (hne : es₁ ≠ [])
    (hpar : pages par = some (.inner pp (front ++ (o, p) :: back))) (hq : pages q = none)
    (hnil : ∀ m, pages root = some m → m.parent ≠ q) :
    ∃ ls', ChainedTree root first (if p = last then q else last)
      (relink (cutPages pages p q par (.leaf par a q es₁) (.leaf par p b (e :: es₂))
        (.inner pp (front ++ (o, p) :: (some e.1, q) :: back))) b q) (g.cut p q e.1) ls' := by
  have hpq : p ≠ q := by
    rintro rfl
    rw [hq] at hp
    cases hp
  have hparq : par ≠ q := by
    rintro rfl
    rw [hq] at hpar
    cases hpar
  have hparp : par ≠ p := (h.shape.kid_ne hpar (by simp [PNode.kids])).symm
  obtain ⟨hlo, hhi, hfits₁, hfits₂⟩ := (h.shape.fits hp).cutLeaf hpq hne
  obtain ⟨ls₁, ls₂, rfl⟩ := List.append_of_mem (h.mem_ls hp)
  refine ⟨ls₁ ++ p :: q :: ls₂, ?_, ?_⟩
  · exact (h.shape.cut hp hpar hq hnil rfl rfl rfl hlo hhi (hfits₁ _ _ _)
      (hfits₂ _ _ _)).relink b q
  · rw [linksOf_relink, linksOf_cutPages hpq hparp hparq hpar rfl rfl]
    exact h.chain.cut (by simp [linksOf, hp, PNode.links]) (by simp [linksOf, hq]) hlo hhi

theorem cutInner (h : ChainedTree root first last pages g ls)
    (hp : pages p = some (.inner par (cs₁ ++ (some sep, c) :: cs₂))) (hne : cs₁ ≠ [])
    (hpar : pages par = some (.inner pp (front ++ (o, p) :: back))) (hq : pages q = none)
    (hnil : ∀ m, pages root = some m → m.parent ≠ q) :
    ChainedTree root first last
      (cutPages pages p q par (.inner par cs₁) (.inner par ((none, c) :: cs₂))
        (.inner pp (front ++ (o, p) :: (some sep, q) :: back))) (g.cut p q sep) ls := by
  have hpq : p ≠ q := by
    rintro rfl
    rw [hq] at hp
    cases hp
  have hparq : par ≠ q := by
    rintro rfl
    rw [hq] at hpar
    cases hpar
  have hparp : par ≠ p := (h.shape.kid_ne hpar (by simp [PNode.kids])).symm
  have hpkids : p ∉ (cs₁ ++ (some sep, c) :: cs₂).map Prod.snd :=
    fun hmem => h.shape.kid_ne hp hmem rfl
  have hqkids : q ∉ (cs₁ ++ (some sep, c) :: cs₂).map Prod.snd := by
    intro hmem
    obtain ⟨m, hm, -⟩ := h.shape.down hp hmem
    rw [hq] at hm
    cases hm
  obtain ⟨hlo, hhi, hfits₁, hfits₂⟩ := (h.shape.fits hp).cutInner hpq hne hpkids hqkids
  have hlinkp : linksOf pages p = none := by simp [linksOf, hp, PNode.links]
  have hlinkq : linksOf pages q = none := by simp [linksOf, hq]
  refine ⟨h.shape.cut hp hpar hq hnil (by simp [PNode.kids]) rfl rfl hlo hhi (hfits₁ _)
    (hfits₂ _), ?_⟩
  rw [linksOf_cutPages hpq hparp hparq hpar rfl rfl]
  have hsame : Function.update (Function.update (linksOf pages) p (PNode.inner par cs₁ :
      PNode π κ ρ).links) q (PNode.inner par ((none, c) :: cs₂) : PNode π κ ρ).links =
      linksOf pages := by
    have hleft : Function.update (linksOf pages) p none = linksOf pages :=
      Function.update_eq_self_iff.mpr hlinkp.symm
    simp only [PNode.links]
    rw [hleft, Function.update_eq_self_iff.mpr hlinkq.symm]
  rw [hsame]
  refine h.chain.relabel (fun z hz => ?_) (fun z hz => ?_)
  · have hzq : z ≠ q := fun heq => h.notMem_ls hlinkq (heq ▸ hz)
    simp [Labels.cut, hzq]
  · have hzq : z ≠ q := fun heq => h.notMem_ls hlinkq (heq ▸ hz)
    have hzp : z ≠ p := fun heq => h.notMem_ls hlinkp (heq ▸ hz)
    simp [Labels.cut, hzq, hzp]

omit [DecidableEq π] in
/-- Two neighbour leaves name each other. -/
theorem neighbour_links (h : ChainedTree root first last pages g ls)
    (hp : pages p = some (.leaf par a x es₁)) (hq : pages q = some (.leaf par y b es₂))
    (hpar : pages par = some (.inner pp (front ++ (o, p) :: (some sep, q) :: back))) :
    x = q ∧ y = p ∧ ∃ ls₁ ls₂, ls = ls₁ ++ p :: q :: ls₂ := by
  obtain ⟨-, -, hmid, hsep, -⟩ := (h.shape.fits hpar).neighbours
  obtain ⟨ls₁, ls₂, rfl⟩ := h.chain.adjacent (h.mem_ls hp) (h.mem_ls hq) (hmid.trans hsep.symm)
  obtain ⟨a', b', hlp, hlq⟩ := h.chain.next_eq
  simp only [linksOf, hp, hq, Option.bind_some, PNode.links, Option.some.injEq,
    Prod.mk.injEq] at hlp hlq
  exact ⟨hlp.2, hlq.1, ls₁, ls₂, rfl⟩

theorem joinLeaf (h : ChainedTree root first last pages g ls)
    (hp : pages p = some (.leaf par a x es₁)) (hq : pages q = some (.leaf par y b es₂))
    (hpar : pages par = some (.inner pp (front ++ (o, p) :: (some sep, q) :: back))) :
    ∃ ls', ChainedTree root first (if q = last then p else last)
      (relink (joinPages pages p q par [] (.leaf par a b (es₁ ++ es₂))
        (.inner pp (front ++ (o, p) :: back))) b p) (g.join p q) ls' := by
  obtain ⟨hpq, hparp, hparq⟩ := h.ne_of_neighbours hpar
  obtain ⟨-, hlo, hmid, hsep, hhi⟩ := (h.shape.fits hpar).neighbours
  obtain ⟨rfl, rfl, ls₁, ls₂, rfl⟩ := h.neighbour_links hp hq hpar
  have hlp : linksOf pages y = some (a, x) := by simp [linksOf, hp, PNode.links]
  have hlq : linksOf pages x = some (y, b) := by simp [linksOf, hq, PNode.links]
  have hbx : b ≠ x := by
    rintro rfl
    obtain ⟨-, b', hb⟩ := h.chain.next hlq
    cases Option.some.inj (hb.symm.trans hlq)
    exact hpq rfl
  have hfits := Fits.joinLeaf hlo hmid hsep hhi (h.shape.fits hp) (h.shape.fits hq)
  refine ⟨ls₁ ++ y :: ls₂, ?_, ?_⟩
  · exact (h.shape.join hp hq hpar rfl rfl (hfits par a b)).relink b y
  · rw [linksOf_relink, linksOf_joinPages hpq hparp hparq hpar rfl rfl]
    have hcomm : setPrev (Function.update (Function.update (linksOf pages) y
        (PNode.leaf par a b (es₁ ++ es₂)).links) x none) b y =
        Function.update (setPrev (Function.update (linksOf pages) y (some (a, b))) b y) x none := by
      funext z
      by_cases hzx : z = x
      · subst hzx
        simp [setPrev, hbx.symm]
      · by_cases hzb : z = b
        · subst hzb
          simp [setPrev, hzx, PNode.links]
        · simp [setPrev, hzx, hzb, PNode.links]
    rw [hcomm]
    exact h.chain.join hlp hlq

theorem joinInner (h : ChainedTree root first last pages g ls)
    (hp : pages p = some (.inner par cs₁)) (hq : pages q = some (.inner par ((o', c) :: cs₂)))
    (hpar : pages par = some (.inner pp (front ++ (o, p) :: (some sep, q) :: back))) :
    ChainedTree root first last
      (joinPages pages p q par (c :: cs₂.map Prod.snd)
        (.inner par (cs₁ ++ (some sep, c) :: cs₂)) (.inner pp (front ++ (o, p) :: back)))
      (g.join p q) ls := by
  obtain ⟨hpq, hparp, hparq⟩ := h.ne_of_neighbours hpar
  obtain ⟨hheight, hlo, hmid, hsep, hhi⟩ := (h.shape.fits hpar).neighbours
  have hlinkp : linksOf pages p = none := by simp [linksOf, hp, PNode.links]
  have hlinkq : linksOf pages q = none := by simp [linksOf, hq, PNode.links]
  have hp₁ : p ∉ cs₁.map Prod.snd := fun hmem => h.shape.kid_ne hp hmem rfl
  have hp₂ : p ∉ c :: cs₂.map Prod.snd := by
    intro hmem
    have hkid := (h.shape.fits hq).kid_height (c := p) (by simpa [PNode.kids] using hmem)
    omega
  have hfits := Fits.joinInner hheight hmid hsep (h.shape.fits hp) (h.shape.fits hq) hp₁ hp₂
  refine ⟨?_, ?_⟩
  · have hjoin := h.shape.join hp hq hpar (by simp [PNode.kids]) rfl (hfits par)
    simpa [PNode.kids] using hjoin
  · rw [linksOf_joinPages hpq hparp hparq hpar rfl rfl]
    have hsame : Function.update (Function.update (linksOf pages) p (PNode.inner par
        (cs₁ ++ (some sep, c) :: cs₂) : PNode π κ ρ).links) q none = linksOf pages := by
      have hleft : Function.update (linksOf pages) p none = linksOf pages :=
        Function.update_eq_self_iff.mpr hlinkp.symm
      simp only [PNode.links]
      rw [hleft, Function.update_eq_self_iff.mpr hlinkq.symm]
    rw [hsame]
    refine h.chain.relabel (fun _ _ => rfl) (fun z hz => ?_)
    have hzp : z ≠ p := fun heq => h.notMem_ls hlinkp (heq ▸ hz)
    simp [Labels.join, hzp]

/-- The pairs of two neighbour leaves are dealt out anew between them. -/
theorem shiftLeaf (h : ChainedTree root first last pages g ls)
    (hp : pages p = some (.leaf par a x es₁)) (hq : pages q = some (.leaf par y b es₂))
    (hpar : pages par = some (.inner pp (front ++ (o, p) :: (some sep, q) :: back)))
    (hes : es₁ ++ es₂ = fs₁ ++ e :: fs₂) (hne : fs₁ ≠ []) :
    ChainedTree root first last
      (shiftPages pages p q par (.leaf par a x fs₁) (.leaf par y b (e :: fs₂))
        (.inner pp (front ++ (o, p) :: (some e.1, q) :: back))) ((g.join p q).cut p q e.1) ls := by
  obtain ⟨hpq, hparp, hparq⟩ := h.ne_of_neighbours hpar
  obtain ⟨-, hlo, hmid, hsep, hhi⟩ := (h.shape.fits hpar).neighbours
  obtain ⟨rfl, rfl, ls₁, ls₂, rfl⟩ := h.neighbour_links hp hq hpar
  have hfits := Fits.joinLeaf hlo hmid hsep hhi (h.shape.fits hp) (h.shape.fits hq) par a b
  have hjoined := hfits
  rw [hes] at hjoined
  obtain ⟨hlo', hhi', hfits₁, hfits₂⟩ := hjoined.cutLeaf hpq hne
  have hhi' : Bound.at e.1 < g.hi x := by simpa [Labels.join] using hhi'
  refine ⟨h.shape.shift hp hq hpar rfl rfl hfits rfl rfl rfl hlo' hhi' (hfits₁ _ _ _)
    (hfits₂ _ _ _), ?_⟩
  have hlinks : linksOf (shiftPages pages y x par (.leaf par a x fs₁) (.leaf par y b (e :: fs₂))
      (.inner pp (front ++ (o, y) :: (some e.1, x) :: back))) = linksOf pages := by
    funext z
    by_cases hzy : z = y
    · subst hzy
      simp [linksOf, shiftPages, hp, PNode.links]
    by_cases hzx : z = x
    · subst hzx
      simp [linksOf, shiftPages, hq, PNode.links, hzy]
    by_cases hzpar : z = par
    · subst hzpar
      simp [linksOf, shiftPages, hpar, PNode.links, hparp, hparq]
    · simp [linksOf, shiftPages, hzy, hzx, hzpar, PNode.kids]
  rw [hlinks]
  exact h.chain.shift hlo' hhi'

theorem shiftInner (h : ChainedTree root first last pages g ls)
    (hp : pages p = some (.inner par cs₁)) (hq : pages q = some (.inner par ((o', c) :: cs₂)))
    (hpar : pages par = some (.inner pp (front ++ (o, p) :: (some sep, q) :: back)))
    (hcs : cs₁ ++ (some sep, c) :: cs₂ = ds₁ ++ (some sep', d) :: ds₂) (hne : ds₁ ≠ []) :
    ChainedTree root first last
      (shiftPages pages p q par (.inner par ds₁) (.inner par ((none, d) :: ds₂))
        (.inner pp (front ++ (o, p) :: (some sep', q) :: back))) ((g.join p q).cut p q sep') ls := by
  obtain ⟨hpq, hparp, hparq⟩ := h.ne_of_neighbours hpar
  obtain ⟨hheight, hlo, hmid, hsep, hhi⟩ := (h.shape.fits hpar).neighbours
  have hlinkp : linksOf pages p = none := by simp [linksOf, hp, PNode.links]
  have hlinkq : linksOf pages q = none := by simp [linksOf, hq, PNode.links]
  have hkidp : ∀ z, z ∈ cs₁.map Prod.snd ∨ z ∈ c :: cs₂.map Prod.snd →
      g.height z + 1 = g.height p := by
    rintro z (hz | hz)
    · exact (h.shape.fits hp).kid_height hz
    · rw [hheight]
      exact (h.shape.fits hq).kid_height hz
  have hp₁ : p ∉ cs₁.map Prod.snd := fun hmem => by
    have := hkidp p (.inl hmem)
    omega
  have hp₂ : p ∉ c :: cs₂.map Prod.snd := fun hmem => by
    have := hkidp p (.inr hmem)
    omega
  have hfits := Fits.joinInner hheight hmid hsep (h.shape.fits hp) (h.shape.fits hq) hp₁ hp₂ par
  have hkids : (ds₁ ++ (some sep', d) :: ds₂).map Prod.snd =
      cs₁.map Prod.snd ++ c :: cs₂.map Prod.snd := by
    rw [← hcs, List.map_append, List.map_cons]
  have hjoined := hfits
  rw [hcs] at hjoined
  obtain ⟨hlo', hhi', hfits₁, hfits₂⟩ := hjoined.cutInner hpq hne
    (by rw [hkids, List.mem_append, not_or]; exact ⟨hp₁, hp₂⟩)
    (fun hmem => by
      rw [hkids, List.mem_append] at hmem
      have := hkidp q hmem
      omega)
  have hhi' : Bound.at sep' < g.hi q := by simpa [Labels.join] using hhi'
  refine ⟨?_, ?_⟩
  · refine h.shape.shift (n := .inner par (cs₁ ++ (some sep, c) :: cs₂)) hp hq hpar
      (by simp [PNode.kids]) rfl hfits ?_ rfl rfl hlo' hhi' (hfits₁ _) (hfits₂ _)
    simp only [PNode.kids]
    rw [hcs, List.map_append, List.map_cons, List.map_cons]
  · have hlinks : linksOf (shiftPages pages p q par (.inner par ds₁)
        (.inner par ((none, d) :: ds₂)) (.inner pp (front ++ (o, p) :: (some sep', q) :: back))) =
        linksOf pages := by
      funext z
      by_cases hzp : z = p
      · subst hzp
        simp [linksOf, shiftPages, hp, PNode.links]
      by_cases hzq : z = q
      · subst hzq
        simp [linksOf, shiftPages, hq, PNode.links, hzp]
      by_cases hzpar : z = par
      · subst hzpar
        simp [linksOf, shiftPages, hpar, PNode.links, hparp, hparq]
      · simp only [linksOf, shiftPages, hzp, hzq, hzpar, if_false]
        split
        · cases pages z <;> simp
        · split
          · cases pages z <;> simp
          · rfl
    rw [hlinks]
    refine h.chain.relabel (fun z hz => ?_) (fun z hz => ?_)
    · have hzq : z ≠ q := fun heq => h.notMem_ls hlinkq (heq ▸ hz)
      simp [Labels.cut, Labels.join, hzq]
    · have hzq : z ≠ q := fun heq => h.notMem_ls hlinkq (heq ▸ hz)
      have hzp : z ≠ p := fun heq => h.notMem_ls hlinkp (heq ▸ hz)
      simp [Labels.cut, Labels.join, hzq, hzp]

/-- A new root above the old one. -/
theorem wrap (h : ChainedTree root first last pages g ls) (hn : pages root = some n)
    (hr : pages r = none) (hnil : pages nil = none) (hnr : nil ≠ r) :
    ChainedTree r first last (Function.update (Function.update pages root
      (some (n.withParent r))) r (some (.inner nil [(none, root)]))) (g.wrap root r) ls := by
  have hlinkr : linksOf pages r = none := by simp [linksOf, hr]
  refine ⟨h.shape.wrap hn hr hnil hnr, ?_⟩
  have hinner : linksOf (Function.update pages root (some (n.withParent r))) = linksOf pages :=
    linksOf_update (by simp [linksOf, hn])
  rw [linksOf_update (by simp [hinner, hlinkr, PNode.links]), hinner]
  refine h.chain.relabel (fun z hz => ?_) (fun z hz => ?_)
  all_goals
    have hzr : z ≠ r := fun heq => h.notMem_ls hlinkr (heq ▸ hz)
    simp [Labels.wrap, hzr]

/-- The only child of the root becomes the root. -/
theorem unwrap (h : ChainedTree root first last pages g ls)
    (hroot : pages root = some (.inner par [(o, c)])) (hm : pages c = some m)
    (hnil : pages nil = none) :
    ChainedTree c first last
      (Function.update (Function.update pages c (some (m.withParent nil))) root none) g ls := by
  have hlinkr : linksOf pages root = none := by simp [linksOf, hroot, PNode.links]
  refine ⟨h.shape.unwrap hroot hm hnil, ?_⟩
  have hkid : linksOf (Function.update pages c (some (m.withParent nil))) = linksOf pages :=
    linksOf_update (by simp [linksOf, hm])
  have hlinks : linksOf (Function.update (Function.update pages c (some (m.withParent nil))) root
      none) = linksOf pages := by
    funext z
    by_cases hz : z = root
    · subst hz
      rw [hlinkr]
      simp [linksOf]
    · rw [← hkid]
      simp [linksOf, hz]
  rw [hlinks]
  exact h.chain

/-- A leaf may hold other pairs of its range. -/
theorem replaceLeaf (h : ChainedTree root first last pages g ls)
    (hp : pages p = some (.leaf par a b es₁))
    (hes : Within (g.lo p) (es₂.map Prod.fst) (g.hi p)) :
    ChainedTree root first last (Function.update pages p (some (.leaf par a b es₂))) g ls := by
  have hfits : Fits g p (.leaf par a b es₂) := ⟨(h.shape.fits hp).1, hes⟩
  refine ⟨h.shape.replace hp rfl rfl hfits, ?_⟩
  rw [linksOf_update (by simp [linksOf, hp, PNode.links])]
  exact h.chain

/-- The tree of one leaf. -/
theorem single (hnil : nil ≠ p) (hes : (es.map Prod.fst).Pairwise (· < ·)) :
    ChainedTree p p p (Function.update (fun _ => none) p (some (.leaf nil p p es)))
      ⟨fun _ => 0, fun _ => ⊥, fun _ => ⊤⟩ [p] := by
  have hone : ∀ {x m}, Function.update (fun _ => none) p (some (PNode.leaf nil p p es)) x = some m →
      x = p ∧ m = .leaf nil p p es := by
    intro x m hx
    by_cases hxp : x = p
    · subst hxp
      rw [Function.update_self] at hx
      exact ⟨rfl, (Option.some.inj hx).symm⟩
    · rw [Function.update_of_ne hxp] at hx
      cases hx
  refine ⟨⟨?_, ?_, ?_, ?_, rfl, rfl⟩, ⟨?_, ?_, ?_, by simp, rfl, by simp, rfl⟩⟩
  · intro x m hx
    obtain ⟨rfl, rfl⟩ := hone hx
    exact ⟨rfl, hes, fun _ _ => bot_le, fun k _ => Bound.at_lt_top⟩
  · intro x m c hx hc
    obtain ⟨rfl, rfl⟩ := hone hx
    simp [PNode.kids] at hc
  · intro x m hx hroot
    exact absurd (hone hx).1 hroot
  · exact ⟨_, Function.update_self p _ _, by simp [PNode.parent, hnil]⟩
  · intro x
    by_cases hx : x = p
    · subst hx
      simp [linksOf, PNode.links]
    · simp [linksOf, hx]
  · exact ⟨rfl, bot_lt_top, rfl⟩
  · intro x a b hx
    obtain ⟨m, hm, hlinks⟩ := Option.bind_eq_some_iff.mp hx
    obtain ⟨rfl, rfl⟩ := hone hm
    simp only [PNode.links, Option.some.injEq, Prod.mk.injEq] at hlinks
    obtain ⟨rfl, rfl⟩ := hlinks
    exact ⟨by simp [around], x, by simp [linksOf, PNode.links]⟩

end ChainedTree

end PagedTree
