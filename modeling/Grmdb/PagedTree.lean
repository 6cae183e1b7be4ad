import Grmdb.Tiling

namespace PagedTree

open Tiling

/-- A search tree node kept in a page: a leaf with its two neighbours, or an inner node with its
children. The first child of an inner node carries no separator. -/
inductive PNode (π κ ρ : Type) where
  | leaf (parent prev next : π) (entries : List (κ × ρ))
  | inner (parent : π) (children : List (Option κ × π))

namespace PNode

variable {π κ ρ : Type}

def parent : PNode π κ ρ → π
  | .leaf parent .. => parent
  | .inner parent _ => parent

def withParent (q : π) : PNode π κ ρ → PNode π κ ρ
  | .leaf _ prev next entries => .leaf q prev next entries
  | .inner _ children => .inner q children

def kids : PNode π κ ρ → List π
  | .leaf .. => []
  | .inner _ children => children.map Prod.snd

def entries : PNode π κ ρ → List (κ × ρ)
  | .leaf _ _ _ entries => entries
  | .inner .. => []

def links : PNode π κ ρ → Option (π × π)
  | .leaf _ prev next _ => some (prev, next)
  | .inner .. => none

def size : PNode π κ ρ → Nat
  | .leaf _ _ _ entries => entries.length
  | .inner _ children => children.length

def withPrev (q : π) : PNode π κ ρ → PNode π κ ρ
  | .leaf parent _ next entries => .leaf parent q next entries
  | .inner parent children => .inner parent children

@[simp] theorem parent_withParent (n : PNode π κ ρ) (q : π) : (n.withParent q).parent = q := by
  cases n <;> rfl

@[simp] theorem withParent_withParent (n : PNode π κ ρ) (p q : π) :
    (n.withParent p).withParent q = n.withParent q := by
  cases n <;> rfl

@[simp] theorem kids_withParent (n : PNode π κ ρ) (q : π) : (n.withParent q).kids = n.kids := by
  cases n <;> rfl

@[simp] theorem entries_withParent (n : PNode π κ ρ) (q : π) :
    (n.withParent q).entries = n.entries := by
  cases n <;> rfl

@[simp] theorem links_withParent (n : PNode π κ ρ) (q : π) : (n.withParent q).links = n.links := by
  cases n <;> rfl

@[simp] theorem size_withParent (n : PNode π κ ρ) (q : π) : (n.withParent q).size = n.size := by
  cases n <;> rfl

theorem withParent_self (n : PNode π κ ρ) {q : π} (h : n.parent = q) : n.withParent q = n := by
  subst h
  cases n <;> rfl

@[simp] theorem parent_withPrev (n : PNode π κ ρ) (q : π) : (n.withPrev q).parent = n.parent := by
  cases n <;> rfl

@[simp] theorem kids_withPrev (n : PNode π κ ρ) (q : π) : (n.withPrev q).kids = n.kids := by
  cases n <;> rfl

@[simp] theorem entries_withPrev (n : PNode π κ ρ) (q : π) :
    (n.withPrev q).entries = n.entries := by
  cases n <;> rfl

@[simp] theorem size_withPrev (n : PNode π κ ρ) (q : π) : (n.withPrev q).size = n.size := by
  cases n <;> rfl

end PNode

/-- What the invariant knows of each page beyond its bytes: the height of its subtree and the
range of keys the subtree is responsible for. -/
structure Labels (π κ : Type) where
  height : π → Nat
  lo : π → Bound κ
  hi : π → Bound κ

variable {π κ ρ : Type} [LinearOrder κ]

/-- The node `n` of page `p` is what its label says. -/
def Fits (g : Labels π κ) (p : π) : PNode π κ ρ → Prop
  | .leaf _ _ _ entries => g.height p = 0 ∧ Within (g.lo p) (entries.map Prod.fst) (g.hi p)
  | .inner _ children =>
    Tiles g.lo g.hi (g.lo p) (children.map Prod.snd) (g.hi p) ∧
      ∀ e ∈ children, g.height e.2 + 1 = g.height p ∧ ∀ k ∈ e.1, g.lo e.2 = Bound.at k

/-- The pages form one tree: parents and children agree, the root covers all keys. -/
structure TreeShape (root : π) (pages : π → Option (PNode π κ ρ)) (g : Labels π κ) : Prop where
  fits : ∀ {p n}, pages p = some n → Fits g p n
  down : ∀ {p n c}, pages p = some n → c ∈ n.kids → ∃ m, pages c = some m ∧ m.parent = p
  up : ∀ {p n}, pages p = some n → p ≠ root → ∃ m, pages n.parent = some m ∧ p ∈ m.kids
  rootAt : ∃ n, pages root = some n ∧ pages n.parent = none
  rootLo : g.lo root = ⊥
  rootHi : g.hi root = ⊤

/-- Every page holds the pairs of its node. -/
def Stores (pages : π → Option (PNode π κ ρ)) (k : κ) (r : ρ) : Prop :=
  ∃ p n, pages p = some n ∧ (k, r) ∈ n.entries

def Labels.SameAt (g g' : Labels π κ) (p : π) : Prop :=
  g'.height p = g.height p ∧ g'.lo p = g.lo p ∧ g'.hi p = g.hi p

theorem Fits.congr {g g' : Labels π κ} {p : π} {n : PNode π κ ρ} (h : Fits g p n)
    (here : g.SameAt g' p) (kids : ∀ c ∈ n.kids, g.SameAt g' c) : Fits g' p n := by
  obtain ⟨hheight, hlo, hhi⟩ := here
  cases n with
  | leaf parent prev next entries =>
    simp only [Fits, hheight, hlo, hhi]
    exact h
  | inner parent children =>
    simp only [Fits, hheight, hlo, hhi]
    refine ⟨h.1.congr (fun c hc => (kids c hc).2.1) (fun c hc => (kids c hc).2.2), fun e he => ?_⟩
    have same := kids e.2 (List.mem_map_of_mem he)
    rw [same.1, same.2.1]
    exact h.2 e he

@[simp] theorem fits_withPrev {g : Labels π κ} {p q : π} {n : PNode π κ ρ} :
    Fits g p (n.withPrev q) ↔ Fits g p n := by
  cases n <;> rfl

@[simp] theorem fits_withParent {g : Labels π κ} {p q : π} {n : PNode π κ ρ} :
    Fits g p (n.withParent q) ↔ Fits g p n := by
  cases n <;> rfl

theorem Fits.kid_height {g : Labels π κ} {p c : π} {n : PNode π κ ρ} (h : Fits g p n)
    (hc : c ∈ n.kids) : g.height c + 1 = g.height p := by
  cases n with
  | leaf parent prev next entries => simp [PNode.kids] at hc
  | inner parent children =>
    obtain ⟨e, he, rfl⟩ := List.mem_map.mp hc
    exact (h.2 e he).1

theorem Fits.tiles {g : Labels π κ} {p parent : π} {children : List (Option κ × π)}
    (h : Fits g p (.inner parent children : PNode π κ ρ)) :
    Tiles g.lo g.hi (g.lo p) (children.map Prod.snd) (g.hi p) := h.1

theorem Fits.kid_range {g : Labels π κ} {p c : π} {n : PNode π κ ρ} (h : Fits g p n)
    (hc : c ∈ n.kids) : g.lo p ≤ g.lo c ∧ g.lo c < g.hi c ∧ g.hi c ≤ g.hi p := by
  cases n with
  | leaf parent prev next entries => simp [PNode.kids] at hc
  | inner parent children => exact h.tiles.mem_bounds hc

theorem Fits.kids_nodup {g : Labels π κ} {p : π} {n : PNode π κ ρ} (h : Fits g p n) :
    n.kids.Nodup := by
  cases n with
  | leaf parent prev next entries => simp [PNode.kids]
  | inner parent children => exact h.tiles.nodup

theorem Fits.mem_range {g : Labels π κ} {p : π} {n : PNode π κ ρ} {k : κ} {r : ρ}
    (h : Fits g p n) (hk : (k, r) ∈ n.entries) : g.lo p ≤ Bound.at k ∧ Bound.at k < g.hi p := by
  cases n with
  | leaf parent prev next entries =>
    have hm : k ∈ entries.map Prod.fst := List.mem_map_of_mem hk
    exact ⟨h.2.ge k hm, h.2.lt k hm⟩
  | inner parent children => simp [PNode.entries] at hk

namespace TreeShape

variable {root : π} {pages : π → Option (PNode π κ ρ)} {g : Labels π κ} {p q c : π}
  {n m : PNode π κ ρ}

/-- A page is a child of its parent page and of no other. -/
theorem kid_parent (h : TreeShape root pages g) (hp : pages p = some n) (hc : c ∈ n.kids)
    (hm : pages c = some m) : m.parent = p := by
  obtain ⟨m', hm', parent⟩ := h.down hp hc
  cases Option.some.inj (hm'.symm.trans hm)
  exact parent

theorem kid_ne_root (h : TreeShape root pages g) (hp : pages p = some n) (hc : c ∈ n.kids) :
    c ≠ root := by
  rintro rfl
  obtain ⟨m, hm, absent⟩ := h.rootAt
  rw [h.kid_parent hp hc hm, hp] at absent
  cases absent

theorem kid_ne (h : TreeShape root pages g) (hp : pages p = some n) (hc : c ∈ n.kids) : c ≠ p := by
  rintro rfl
  have := (h.fits hp).kid_height hc
  omega

theorem grandkid_ne (h : TreeShape root pages g) (hp : pages p = some n) (hq : q ∈ n.kids)
    (hm : pages q = some m) (hc : c ∈ m.kids) : c ≠ p := by
  rintro rfl
  have hpq := (h.fits hp).kid_height hq
  have hqc := (h.fits hm).kid_height hc
  omega

end TreeShape

end PagedTree
