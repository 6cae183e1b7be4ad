import Grmdb.IndexHandle
import Grmdb.NodeSearch
import Grmdb.ChainedTree

namespace Grmdb

open PagedTree Tiling

variable {κ : Type}

/-- The children of an inner node without the key of slot 0, which nothing reads. -/
def viewKids : List (κ × Rid) → List (Option κ × PageNo)
  | [] => []
  | e :: es => (none, e.2.pageNo) :: es.map fun e => (some e.1, e.2.pageNo)

/-- What an index page means: the live part of it. -/
def IxNode.view (n : IxNode κ) : PNode PageNo κ Rid :=
  if n.isLeaf then .leaf n.parent n.prevLeaf n.nextLeaf n.entries
  else .inner n.parent (viewKids n.entries)

def IxFile.tree (s : IxFile κ) : PageNo → Option (PNode PageNo κ Rid) := fun p =>
  (s.pages p).map IxNode.view

theorem viewKids_snd (es : List (κ × Rid)) :
    (viewKids es).map Prod.snd = es.map fun e => e.2.pageNo := by
  cases es <;> simp [viewKids]

@[simp] theorem viewKids_length (es : List (κ × Rid)) : (viewKids es).length = es.length := by
  cases es <;> simp [viewKids]

theorem viewKids_append {front : List (κ × Rid)} (h : front ≠ []) (back : List (κ × Rid)) :
    viewKids (front ++ back) = viewKids front ++ back.map fun e => (some e.1, e.2.pageNo) := by
  cases front with
  | nil => exact absurd rfl h
  | cons e front => simp [viewKids]

namespace IxNode

variable {n : IxNode κ}

theorem view_leaf (h : n.isLeaf = true) :
    n.view = .leaf n.parent n.prevLeaf n.nextLeaf n.entries := by
  simp [view, h]

theorem view_inner (h : n.isLeaf = false) : n.view = .inner n.parent (viewKids n.entries) := by
  simp [view, h]

@[simp] theorem view_parent (n : IxNode κ) : n.view.parent = n.parent := by
  cases h : n.isLeaf <;> simp [view, h, PNode.parent]

theorem view_kids_leaf (h : n.isLeaf = true) : n.view.kids = [] := by
  simp [view_leaf h, PNode.kids]

theorem view_kids (h : n.isLeaf = false) : n.view.kids = n.entries.map fun e => e.2.pageNo := by
  simp [view_inner h, PNode.kids, viewKids_snd]

@[simp] theorem view_size (n : IxNode κ) : n.view.size = n.size := by
  cases h : n.isLeaf <;> simp [view, h, PNode.size, size]

theorem view_setParent (n : IxNode κ) (q : PageNo) :
    view { n with parent := q } = n.view.withParent q := by
  cases h : n.isLeaf <;> simp [view, h, PNode.withParent]

/-- The node of which `v` is the view, when `v` is a leaf. -/
theorem of_view_leaf {par a b : PageNo} {es : List (κ × Rid)} (h : n.view = .leaf par a b es) :
    n.isLeaf = true ∧ n.parent = par ∧ n.prevLeaf = a ∧ n.nextLeaf = b ∧ n.entries = es := by
  cases hl : n.isLeaf
  · simp [view, hl] at h
  · simpa [view, hl] using h

end IxNode

theorem view_setPrevLeaf (n : IxNode κ) (q : PageNo) :
    IxNode.view { n with prevLeaf := q } = n.view.withPrev q := by
  cases h : n.isLeaf <;> simp [IxNode.view, h, PNode.withPrev]

namespace IxFile

variable {s s' : IxFile κ} {p q x : PageNo} {n : IxNode κ}

theorem tree_eq_some {v : PNode PageNo κ Rid} :
    s.tree p = some v ↔ ∃ n, s.pages p = some n ∧ n.view = v := by
  simp [tree, Option.map_eq_some_iff]

theorem tree_eq_none : s.tree p = none ↔ s.pages p = none := by simp [tree]

theorem tree_of_pages (h : s.pages p = some n) : s.tree p = some n.view := by simp [tree, h]

theorem tree_write (s : IxFile κ) (p : PageNo) (n : IxNode κ) :
    (s.write p n).tree = Function.update s.tree p (some n.view) := by
  funext x
  by_cases h : x = p
  · simp [tree, write, h]
  · simp [tree, write, h]

theorem tree_release (s : IxFile κ) (p : PageNo) :
    (s.release p).tree = Function.update s.tree p none := by
  funext x
  by_cases h : x = p
  · simp [tree, release, h]
  · simp [tree, release, h]

/-- No page holds or ever held more than `b` entries. -/
def Bounded (s : IxFile κ) (b : Nat) : Prop :=
  s.peak ≤ b ∧ ∀ p n, s.pages p = some n → n.size ≤ b

theorem Bounded.write {b : Nat} (h : s.Bounded b) (hn : n.size ≤ b) : (s.write p n).Bounded b := by
  refine ⟨max_le h.1 hn, fun x m hm => ?_⟩
  by_cases hx : x = p
  · subst hx
    simp only [IxFile.write, Function.update_self, Option.some.injEq] at hm
    rwa [← hm]
  · simp only [IxFile.write, Function.update_of_ne hx] at hm
    exact h.2 x m hm

theorem Bounded.release {b : Nat} (h : s.Bounded b) : (s.release p).Bounded b := by
  refine ⟨h.1, fun x m hm => ?_⟩
  by_cases hx : x = p
  · subst hx
    simp [IxFile.release] at hm
  · simp only [IxFile.release, Function.update_of_ne hx] at hm
    exact h.2 x m hm

theorem Bounded.createNode {b : Nat} (h : s.Bounded b) : s.createNode.Bounded b := by
  refine ⟨h.1, fun x m hm => ?_⟩
  by_cases hx : x = s.nextPageNo
  · subst hx
    simp only [IxFile.createNode, Function.update_self, Option.some.injEq] at hm
    simp [← hm, IxNode.fresh, IxNode.size]
  · simp only [IxFile.createNode, Function.update_of_ne hx] at hm
    exact h.2 x m hm

/-- What `maintain_child` over children that are there does: it sets their parent fields. -/
theorem maintainChildren_spec {children : List PageNo}
    (there : ∀ c ∈ children, ∃ n, s.pages c = some n) :
    ∃ s', s.maintainChildren q children = some s' ∧
      s'.rootPage = s.rootPage ∧ s'.firstLeaf = s.firstLeaf ∧ s'.lastLeaf = s.lastLeaf ∧
      s'.nextPageNo = s.nextPageNo ∧ (∀ b, s.Bounded b → s'.Bounded b) ∧
      ∀ x, s'.pages x = if x ∈ children then (s.pages x).map fun n => { n with parent := q }
        else s.pages x := by
  induction children generalizing s with
  | nil => exact ⟨s, rfl, rfl, rfl, rfl, rfl, fun _ h => h, by simp⟩
  | cons c children ih =>
    obtain ⟨n, hn⟩ := there c (by simp)
    have step : s.setParent c q = some (s.write c { n with parent := q }) := by
      simp [setParent, hn]
    have there' : ∀ d ∈ children, ∃ m, (s.write c { n with parent := q }).pages d = some m := by
      intro d hd
      by_cases hdc : d = c
      · exact ⟨{ n with parent := q }, by simp [write, hdc]⟩
      · obtain ⟨m, hm⟩ := there d (by simp [hd])
        exact ⟨m, by simp [write, hdc, hm]⟩
    obtain ⟨s', run, root, first, last, next, bounded, pages⟩ := ih there'
    refine ⟨s', ?_, root, first, last, next, ?_, ?_⟩
    · rw [maintainChildren, List.foldlM_cons, step]
      exact run
    · exact fun b h => bounded b (h.write (h.2 c n hn))
    · intro x
      rw [pages x]
      by_cases hxc : x = c
      · subst hxc
        simp [write, hn]
      · simp [write, hxc]

end IxFile

end Grmdb
