import Grmdb.PagedTree

namespace PagedTree

open Tiling

variable {π κ ρ : Type} [DecidableEq π]

/-- Page `q` takes over the upper part of the range of `p`. -/
def Labels.cut (g : Labels π κ) (p q : π) (sep : κ) : Labels π κ where
  height := Function.update g.height q (g.height p)
  lo := Function.update g.lo q (Bound.at sep)
  hi := Function.update (Function.update g.hi q (g.hi p)) p (Bound.at sep)

theorem Labels.cut_sameAt {g : Labels π κ} {p q x : π} {sep : κ} (hp : x ≠ p) (hq : x ≠ q) :
    g.SameAt (g.cut p q sep) x := by
  simp [SameAt, cut, hp, hq]

/-- The node of `p` is cut into `n₁`, which stays, and `n₂`, which goes to `q` with its children;
`up` is the new node of their parent page. -/
def cutPages (pages : π → Option (PNode π κ ρ)) (p q par : π) (n₁ n₂ up : PNode π κ ρ) :
    π → Option (PNode π κ ρ) := fun x =>
  if x = p then some n₁ else if x = q then some n₂ else if x = par then some up
  else if x ∈ n₂.kids then (pages x).map (PNode.withParent q) else pages x

section Cut

variable {pages : π → Option (PNode π κ ρ)} {p q par x : π} {n₁ n₂ up n' : PNode π κ ρ}

theorem cutPages_cases (hx : cutPages pages p q par n₁ n₂ up x = some n') :
    x = p ∧ n' = n₁ ∨ x ≠ p ∧ x = q ∧ n' = n₂ ∨ x ≠ p ∧ x ≠ q ∧ x = par ∧ n' = up ∨
      x ≠ p ∧ x ≠ q ∧ x ≠ par ∧ ∃ n, pages x = some n ∧
        (x ∈ n₂.kids ∧ n' = n.withParent q ∨ x ∉ n₂.kids ∧ n' = n) := by
  unfold cutPages at hx
  split at hx
  · next hp => exact .inl ⟨hp, (Option.some.inj hx).symm⟩
  split at hx
  · next hp hq => exact .inr (.inl ⟨hp, hq, (Option.some.inj hx).symm⟩)
  split at hx
  · next hp hq hpar => exact .inr (.inr (.inl ⟨hp, hq, hpar, (Option.some.inj hx).symm⟩))
  next hp hq hpar =>
  refine .inr (.inr (.inr ⟨hp, hq, hpar, ?_⟩))
  split at hx
  · next hk =>
    obtain ⟨n, hn, rfl⟩ := Option.map_eq_some_iff.mp hx
    exact ⟨n, hn, .inl ⟨hk, rfl⟩⟩
  · next hk => exact ⟨n', hx, .inr ⟨hk, rfl⟩⟩

theorem cutPages_left : cutPages pages p q par n₁ n₂ up p = some n₁ := by simp [cutPages]

theorem cutPages_right (hqp : q ≠ p) : cutPages pages p q par n₁ n₂ up q = some n₂ := by
  simp [cutPages, hqp]

theorem cutPages_parent (hp : par ≠ p) (hq : par ≠ q) :
    cutPages pages p q par n₁ n₂ up par = some up := by
  simp [cutPages, hp, hq]

theorem cutPages_moved (hp : x ≠ p) (hq : x ≠ q) (hpar : x ≠ par) (hk : x ∈ n₂.kids) :
    cutPages pages p q par n₁ n₂ up x = (pages x).map (PNode.withParent q) := by
  simp [cutPages, hp, hq, hpar, hk]

theorem cutPages_other (hp : x ≠ p) (hq : x ≠ q) (hpar : x ≠ par) (hk : x ∉ n₂.kids) :
    cutPages pages p q par n₁ n₂ up x = pages x := by
  simp [cutPages, hp, hq, hpar, hk]

end Cut

section StoresCut

variable {pages : π → Option (PNode π κ ρ)} {p q par x : π} {n n₁ n₂ u up : PNode π κ ρ} {k : κ}
  {r : ρ}

theorem stores_cutPages (hp : pages p = some n) (hq : pages q = none) (hpar : pages par = some u)
    (hu : u.entries = []) (hup : up.entries = []) (hpp : par ≠ p)
    (hentries : n.entries = n₁.entries ++ n₂.entries) :
    Stores (cutPages pages p q par n₁ n₂ up) k r ↔ Stores pages k r := by
  have hpq : p ≠ q := by
    rintro rfl
    rw [hq] at hp
    cases hp
  constructor
  · rintro ⟨x, m, hx, hm⟩
    rcases cutPages_cases hx with ⟨rfl, rfl⟩ | ⟨-, rfl, rfl⟩ | ⟨-, -, rfl, rfl⟩ |
      ⟨hxp, hxq, hxpar, m', hm', hcase⟩
    · exact ⟨x, n, hp, by simp [hentries, hm]⟩
    · exact ⟨p, n, hp, by simp [hentries, hm]⟩
    · simp [hup] at hm
    · refine ⟨x, m', hm', ?_⟩
      rcases hcase with ⟨-, rfl⟩ | ⟨-, rfl⟩ <;> simpa using hm
  · rintro ⟨x, m, hx, hm⟩
    have hxq : x ≠ q := by
      rintro rfl
      rw [hq] at hx
      cases hx
    by_cases hxp : x = p
    · subst hxp
      cases Option.some.inj (hx.symm.trans hp)
      rw [hentries] at hm
      rcases List.mem_append.mp hm with hm | hm
      · exact ⟨x, n₁, cutPages_left, hm⟩
      · exact ⟨q, n₂, cutPages_right hpq.symm, hm⟩
    · have hxpar : x ≠ par := by
        rintro rfl
        cases Option.some.inj (hx.symm.trans hpar)
        simp [hu] at hm
      by_cases hk : x ∈ n₂.kids
      · refine ⟨x, m.withParent q, ?_, by simpa using hm⟩
        rw [cutPages_moved hxp hxq hxpar hk, hx]
        rfl
      · exact ⟨x, m, by rw [cutPages_other hxp hxq hxpar hk, hx], hm⟩

end StoresCut

section FitsCut

variable [LinearOrder κ] {g : Labels π κ} {p q par a b c : π}

/-- A leaf cut in front of one of its pairs. -/
theorem Fits.cutLeaf {es₁ es₂ : List (κ × ρ)} {e : κ × ρ} (hpq : p ≠ q) (hne : es₁ ≠ [])
    (h : Fits g p (.leaf par a b (es₁ ++ e :: es₂))) :
    g.lo p < Bound.at e.1 ∧ Bound.at e.1 < g.hi p ∧
      (∀ par a b, Fits (g.cut p q e.1) p (.leaf par a b es₁)) ∧
      ∀ par a b, Fits (g.cut p q e.1) q (.leaf par a b (e :: es₂)) := by
  obtain ⟨hheight, hwithin⟩ := h
  rw [List.map_append, List.map_cons] at hwithin
  obtain ⟨hleft, hright⟩ := hwithin.cut
  obtain ⟨x, hx⟩ := List.exists_mem_of_ne_nil _ hne
  have hxm : x.1 ∈ es₁.map Prod.fst := List.mem_map_of_mem hx
  refine ⟨(hleft.ge _ hxm).trans_lt (hleft.lt _ hxm), hright.lt _ (by simp),
    fun _ _ _ => ⟨?_, ?_⟩, fun _ _ _ => ⟨?_, ?_⟩⟩
  · simpa [Labels.cut, hpq] using hheight
  · simpa [Labels.cut, hpq] using hleft
  · simpa [Labels.cut] using hheight
  · simpa [Labels.cut, hpq.symm] using hright

/-- An inner node cut in front of one of its children but the first. -/
theorem Fits.cutInner {cs₁ cs₂ : List (Option κ × π)} {sep : κ} (hpq : p ≠ q) (hne : cs₁ ≠ [])
    (h : Fits g p (.inner par (cs₁ ++ (some sep, c) :: cs₂) : PNode π κ ρ))
    (hp : p ∉ (cs₁ ++ (some sep, c) :: cs₂).map Prod.snd)
    (hq : q ∉ (cs₁ ++ (some sep, c) :: cs₂).map Prod.snd) :
    g.lo p < Bound.at sep ∧ Bound.at sep < g.hi p ∧
      (∀ par, Fits (g.cut p q sep) p (.inner par cs₁ : PNode π κ ρ)) ∧
      ∀ par, Fits (g.cut p q sep) q (.inner par ((none, c) :: cs₂) : PNode π κ ρ) := by
  obtain ⟨htiles, hkids⟩ := h
  have hsep : g.lo c = Bound.at sep := (hkids (some sep, c) (by simp)).2 sep rfl
  rw [List.map_append, List.map_cons] at htiles hp hq
  have hsame : ∀ x ∈ cs₁.map Prod.snd ++ c :: cs₂.map Prod.snd, g.SameAt (g.cut p q sep) x := by
    intro x hx
    refine Labels.cut_sameAt ?_ ?_
    · rintro rfl
      exact hp hx
    · rintro rfl
      exact hq hx
  obtain ⟨m, hleft, hright⟩ := tiles_append.mp htiles
  have hm : m = Bound.at sep := hright.1.symm.trans hsep
  subst hm
  have hleft' := hleft.congr (fun x hx => (hsame x (List.mem_append_left _ hx)).2.1)
    (fun x hx => (hsame x (List.mem_append_left _ hx)).2.2)
  have hright' := hright.congr (fun x hx => (hsame x (List.mem_append_right _ hx)).2.1)
    (fun x hx => (hsame x (List.mem_append_right _ hx)).2.2)
  refine ⟨hleft.lt (by simpa using hne), hright.lt (by simp), fun _ => ⟨?_, ?_⟩,
    fun _ => ⟨?_, ?_⟩⟩
  · simpa [Labels.cut, hpq] using hleft'
  · intro e he
    obtain ⟨hh, hl, -⟩ := hsame e.2 (List.mem_append_left _ (List.mem_map_of_mem he))
    rw [hh, hl]
    simpa [Labels.cut, hpq] using hkids e (by simp [he])
  · simpa [Labels.cut, hpq.symm] using hright'
  · intro e he
    have hx : e.2 ∈ c :: cs₂.map Prod.snd := List.mem_map_of_mem he
    obtain ⟨hh, hl, -⟩ := hsame e.2 (List.mem_append_right _ hx)
    rw [hh, hl]
    rcases List.mem_cons.mp he with rfl | he
    · simpa [Labels.cut] using (hkids (some sep, c) (by simp)).1
    · simpa [Labels.cut] using hkids e (by simp [he])

end FitsCut

section TreeShape

variable [LinearOrder κ] {root : π} {pages : π → Option (PNode π κ ρ)} {g : Labels π κ}
  {p q par pp : π} {o : Option κ} {sep : κ} {front back : List (Option κ × π)}
  {n n₁ n₂ : PNode π κ ρ}

theorem TreeShape.cut (h : TreeShape root pages g) (hp : pages p = some n)
    (hpar : pages par = some (.inner pp (front ++ (o, p) :: back))) (hq : pages q = none)
    (hnil : ∀ m, pages root = some m → m.parent ≠ q) (hkids : n.kids = n₁.kids ++ n₂.kids)
    (hn₁ : n₁.parent = par) (hn₂ : n₂.parent = par)
    (hlo : g.lo p < Bound.at sep) (hhi : Bound.at sep < g.hi p)
    (fits₁ : Fits (g.cut p q sep) p n₁) (fits₂ : Fits (g.cut p q sep) q n₂) :
    TreeShape root
      (cutPages pages p q par n₁ n₂ (.inner pp (front ++ (o, p) :: (some sep, q) :: back)))
      (g.cut p q sep) := by
  have present : ∀ {x m}, pages x = some m → x ≠ q := by
    rintro x m hx rfl
    rw [hq] at hx
    cases hx
  have pkid : p ∈ (PNode.inner pp (front ++ (o, p) :: back) : PNode π κ ρ).kids := by
    simp [PNode.kids]
  have hpq := present hp
  have hparq := present hpar
  have hparp : par ≠ p := (h.kid_ne hpar pkid).symm
  have hnpar : n.parent = par := h.kid_parent hpar pkid hp
  have parHeight := (h.fits hpar).kid_height pkid
  have lower : ∀ c ∈ n.kids, c ≠ p ∧ c ≠ q ∧ c ≠ par := by
    intro c hc
    obtain ⟨m, hm, -⟩ := h.down hp hc
    exact ⟨h.kid_ne hp hc, present hm, h.grandkid_ne hpar pkid hp hc⟩
  have sub₁ : ∀ c ∈ n₁.kids, c ∈ n.kids := fun c hc => by simp [hkids, hc]
  have sub₂ : ∀ c ∈ n₂.kids, c ∈ n.kids := fun c hc => by simp [hkids, hc]
  have apart : ∀ c ∈ n₁.kids, c ∉ n₂.kids := by
    have nodup := (h.fits hp).kids_nodup
    rw [hkids] at nodup
    exact fun c hc hc' => (List.nodup_append.mp nodup).2.2 c hc c hc' rfl
  have otherKid : ∀ {x m c m'}, x ≠ p → pages x = some m → c ∈ m.kids → pages c = some m' →
      c ∉ n₂.kids := by
    intro x m c m' hxp hx hc hm' hk
    exact hxp ((h.kid_parent hx hc hm').symm.trans (h.kid_parent hp (sub₂ c hk) hm'))
  have newKids : ∀ c, c ∈ (PNode.inner pp (front ++ (o, p) :: (some sep, q) :: back) :
      PNode π κ ρ).kids ↔ c = q ∨ c ∈ (PNode.inner pp (front ++ (o, p) :: back) :
      PNode π κ ρ).kids := by
    intro c
    simp only [PNode.kids, List.map_append, List.map_cons, List.mem_append, List.mem_cons]
    tauto
  have outside : ∀ {x m}, pages x = some m → x ≠ p → x ≠ par → ∀ c ∈ m.kids, c ≠ p := by
    rintro x m hx hxp hxpar c hc rfl
    exact hxpar ((h.kid_parent hx hc hp).symm.trans hnpar)
  refine ⟨?_, ?_, ?_, ?_, ?_, ?_⟩
  · intro x n' hx
    rcases cutPages_cases hx with ⟨rfl, rfl⟩ | ⟨-, rfl, rfl⟩ | ⟨-, -, rfl, rfl⟩ |
      ⟨hxp, hxq, hxpar, m, hm, hcase⟩
    · exact fits₁
    · exact fits₂
    · have old := h.fits hpar
      refine ⟨?_, fun e he => ?_⟩
      · have tiles := old.tiles
        rw [List.map_append, List.map_cons] at tiles ⊢
        have fresh : q ∉ front.map Prod.snd ++ p :: back.map Prod.snd := by
          intro hmem
          obtain ⟨m, hm, -⟩ := h.down hpar (c := q) (by simpa [PNode.kids] using hmem)
          exact present hm rfl
        have := tiles.cut fresh hlo hhi
        simpa [Labels.cut, hparq, hparp] using this
      · have same : ∀ e ∈ front ++ (o, p) :: back, e.2 ≠ q := by
          intro e he
          obtain ⟨m, hm, -⟩ := h.down hpar (c := e.2) (List.mem_map_of_mem he)
          exact present hm
        have cases : e ∈ front ++ (o, p) :: back ∨ e = (some sep, q) := by
          simp only [List.mem_append, List.mem_cons] at he ⊢
          tauto
        rcases cases with he | rfl
        · have := old.2 e he
          simpa [Labels.cut, same e he, hparq] using this
        · simpa [Labels.cut, hparq] using parHeight
    · have kidsSame : ∀ c ∈ m.kids, g.SameAt (g.cut p q sep) c := by
        intro c hc
        obtain ⟨m', hm', -⟩ := h.down hm hc
        exact Labels.cut_sameAt (outside hm hxp hxpar c hc) (present hm')
      have stays := (h.fits hm).congr (Labels.cut_sameAt hxp hxq) kidsSame
      rcases hcase with ⟨-, rfl⟩ | ⟨-, rfl⟩
      · exact fits_withParent.mpr stays
      · exact stays
  · intro x n' c hx hc
    rcases cutPages_cases hx with ⟨rfl, rfl⟩ | ⟨-, rfl, rfl⟩ | ⟨hxp, -, rfl, rfl⟩ |
      ⟨hxp, hxq, hxpar, m, hm, hcase⟩
    · obtain ⟨hcp, hcq, hcpar⟩ := lower c (sub₁ c hc)
      rw [cutPages_other hcp hcq hcpar (apart c hc)]
      exact h.down hp (sub₁ c hc)
    · obtain ⟨hcp, hcq, hcpar⟩ := lower c (sub₂ c hc)
      obtain ⟨m, hm, -⟩ := h.down hp (sub₂ c hc)
      rw [cutPages_moved hcp hcq hcpar hc, hm]
      exact ⟨m.withParent x, rfl, by simp⟩
    · rcases (newKids c).mp hc with rfl | hc
      · exact ⟨n₂, cutPages_right hpq.symm, hn₂⟩
      · by_cases hcp : c = p
        · subst hcp
          exact ⟨n₁, cutPages_left, hn₁⟩
        · obtain ⟨m, hm, parent⟩ := h.down hpar hc
          rw [cutPages_other hcp (present hm) (h.kid_ne hpar hc) (otherKid hxp hpar hc hm)]
          exact ⟨m, hm, parent⟩
    · have hc : c ∈ m.kids := by rcases hcase with ⟨-, rfl⟩ | ⟨-, rfl⟩ <;> simpa using hc
      obtain ⟨m', hm', parent⟩ := h.down hm hc
      by_cases hcpar : c = par
      · subst hcpar
        cases Option.some.inj (hm'.symm.trans hpar)
        exact ⟨_, cutPages_parent hparp hparq, parent⟩
      · rw [cutPages_other (outside hm hxp hxpar c hc) (present hm') hcpar
          (otherKid hxp hm hc hm')]
        exact ⟨m', hm', parent⟩
  · intro x n' hx hroot
    rcases cutPages_cases hx with ⟨rfl, rfl⟩ | ⟨-, rfl, rfl⟩ | ⟨hxp, -, rfl, rfl⟩ |
      ⟨hxp, hxq, hxpar, m, hm, hcase⟩
    · rw [hn₁]
      exact ⟨_, cutPages_parent hparp hparq, (newKids x).mpr (.inr pkid)⟩
    · rw [hn₂]
      exact ⟨_, cutPages_parent hparp hparq, (newKids x).mpr (.inl rfl)⟩
    · obtain ⟨m, hm, hk⟩ := h.up hpar hroot
      have above := (h.fits hm).kid_height hk
      simp only [PNode.parent] at hm above ⊢
      have hpp : pp ≠ p := by
        rintro rfl
        omega
      have hmoved : pp ∉ n₂.kids := by
        intro hmem
        have := (h.fits hp).kid_height (sub₂ pp hmem)
        omega
      have hpx : pp ≠ x := by
        rintro rfl
        omega
      rw [cutPages_other hpp (present hm) hpx hmoved]
      exact ⟨m, hm, hk⟩
    · rcases hcase with ⟨hk, rfl⟩ | ⟨hk, rfl⟩
      · rw [PNode.parent_withParent]
        exact ⟨n₂, cutPages_right hpq.symm, hk⟩
      · obtain ⟨m, hm', hmem⟩ := h.up hm hroot
        by_cases hyp : n'.parent = p
        · rw [hyp] at hm' ⊢
          cases Option.some.inj (hm'.symm.trans hp)
          rw [hkids] at hmem
          exact ⟨n₁, cutPages_left, (List.mem_append.mp hmem).resolve_right hk⟩
        by_cases hypar : n'.parent = par
        · rw [hypar] at hm' ⊢
          cases Option.some.inj (hm'.symm.trans hpar)
          exact ⟨_, cutPages_parent hparp hparq, (newKids x).mpr (.inr hmem)⟩
        by_cases hymoved : n'.parent ∈ n₂.kids
        · rw [cutPages_moved hyp (present hm') hypar hymoved, hm']
          exact ⟨_, rfl, by simpa using hmem⟩
        · rw [cutPages_other hyp (present hm') hypar hymoved]
          exact ⟨m, hm', hmem⟩
  · obtain ⟨m, hm, absent⟩ := h.rootAt
    have hrootp : root ≠ p := (h.kid_ne_root hpar pkid).symm
    have noMoved : ∀ {x}, pages x = none → x ∉ n₂.kids := by
      intro x hx hk
      obtain ⟨m, hm, -⟩ := h.down hp (sub₂ x hk)
      rw [hx] at hm
      cases hm
    have gone : cutPages pages p q par n₁ n₂
        (.inner pp (front ++ (o, p) :: (some sep, q) :: back)) m.parent = none := by
      rw [cutPages_other _ (hnil m hm) _ (noMoved absent)]
      · exact absent
      · rintro hmp
        rw [hmp, hp] at absent
        cases absent
      · rintro hmp
        rw [hmp, hpar] at absent
        cases absent
    by_cases hrootpar : root = par
    · subst hrootpar
      cases Option.some.inj (hm.symm.trans hpar)
      exact ⟨_, cutPages_parent hparp hparq, gone⟩
    · refine ⟨m, ?_, gone⟩
      rw [cutPages_other hrootp (present hm) hrootpar, hm]
      intro hk
      exact h.kid_ne_root hp (sub₂ root hk) rfl
  · obtain ⟨m, hm, -⟩ := h.rootAt
    simpa [Labels.cut, present hm] using h.rootLo
  · obtain ⟨m, hm, -⟩ := h.rootAt
    have hrootp : root ≠ p := (h.kid_ne_root hpar pkid).symm
    simpa [Labels.cut, present hm, hrootp] using h.rootHi

end TreeShape

end PagedTree
