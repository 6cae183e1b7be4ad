import Grmdb.IndexHandle
import Grmdb.DiskManager
import Grmdb.Runs

namespace Grmdb

open Runs

def IX_FILE_HDR_PAGE : PageNo := 0
def IX_LEAF_HEADER_PAGE : PageNo := 1
def IX_INIT_NUM_PAGES : PageNo := 3

/-- What the tree operations do to the pages of an open index: `create_node`, a change of a node
that was fetched, `release_node_handle` and new values in the file header. -/
inductive IxStep (κ : Type) where
  | createNode
  | write (p : PageNo) (n : IxNode κ)
  | release (p : PageNo)
  | setHeader (rootPage firstLeaf lastLeaf : PageNo)

/-- The file that a call leaves behind when it ends, with or without an error. -/
def IxResult.file {κ : Type} : IxResult κ → Option (IxFile κ)
  | .returned s => some s
  | .existsError s => some s
  | .failed => none

namespace IxFile

variable {κ : Type}

def step (s : IxFile κ) : IxStep κ → Option (IxFile κ)
  | .createNode => some s.createNode
  | .write p n => if (s.pages p).isSome then some (s.write p n) else none
  | .release p => some (s.release p)
  | .setHeader rootPage firstLeaf lastLeaf =>
    some { s with rootPage := rootPage, firstLeaf := firstLeaf, lastLeaf := lastLeaf }

/-- The pages that a walk from the root can come to; a page number that names no page leads
nowhere. -/
inductive Reachable (s : IxFile κ) : PageNo → Prop where
  | root {n : IxNode κ} (h : s.pages s.rootPage = some n) : Reachable s s.rootPage
  | child {p : PageNo} {n m : IxNode κ} {e : κ × Rid} (hp : Reachable s p)
      (hn : s.pages p = some n) (hinner : n.isLeaf = false) (he : e ∈ n.entries)
      (hm : s.pages e.2.pageNo = some m) : Reachable s e.2.pageNo

theorem Reachable.isSome {s : IxFile κ} {p : PageNo} (h : s.Reachable p) :
    (s.pages p).isSome := by
  cases h with
  | root h => simp [h]
  | child _ _ _ _ hm => simp [hm]

/-- `s'` comes from `s` by steps on pages. -/
def Steps (s s' : IxFile κ) : Prop := ∃ es, run step s es = some s'

namespace Steps

variable {s s' s'' : IxFile κ}

theorem refl (s : IxFile κ) : Steps s s := ⟨[], rfl⟩

theorem trans (h : Steps s s') (h' : Steps s' s'') : Steps s s'' := by
  obtain ⟨es, hes⟩ := h
  obtain ⟨es', hes'⟩ := h'
  refine ⟨es ++ es', ?_⟩
  rw [run_append, hes]
  exact hes'

theorem single {e : IxStep κ} (h : s.step e = some s') : Steps s s' := ⟨[e], by simp [run, h]⟩

theorem createNode (s : IxFile κ) : Steps s s.createNode := single (e := .createNode) rfl

theorem write {p : PageNo} (hp : (s.pages p).isSome) (n : IxNode κ) : Steps s (s.write p n) :=
  single (e := .write p n) (by simp [step, hp])

theorem release (s : IxFile κ) (p : PageNo) : Steps s (s.release p) :=
  single (e := .release p) rfl

theorem setHeader (s : IxFile κ) (rootPage firstLeaf lastLeaf : PageNo) :
    Steps s { s with rootPage := rootPage, firstLeaf := firstLeaf, lastLeaf := lastLeaf } :=
  single (e := .setHeader rootPage firstLeaf lastLeaf) rfl

end Steps

section Operations

variable {s s' : IxFile κ}

@[simp] theorem isSome_write (s : IxFile κ) (p q : PageNo) (n : IxNode κ) :
    ((s.write p n).pages q).isSome = (decide (q = p) || (s.pages q).isSome) := by
  by_cases h : q = p
  · simp [IxFile.write, h]
  · simp [IxFile.write, h]

@[simp] theorem isSome_createNode (s : IxFile κ) (q : PageNo) :
    (s.createNode.pages q).isSome = (decide (q = s.nextPageNo) || (s.pages q).isSome) := by
  by_cases h : q = s.nextPageNo
  · simp [IxFile.createNode, h]
  · simp [IxFile.createNode, h]

theorem steps_setParent {child parent : PageNo} (h : s.setParent child parent = some s') :
    Steps s s' := by
  obtain ⟨n, hn, rfl⟩ := Option.map_eq_some_iff.mp h
  exact Steps.write (by simp [hn]) _

theorem steps_maintainChildren {p : PageNo} {children : List PageNo}
    (h : s.maintainChildren p children = some s') : Steps s s' := by
  unfold maintainChildren at h
  induction children generalizing s with
  | nil =>
    cases Option.some.inj h
    exact Steps.refl _
  | cons child children ih =>
    rw [List.foldlM_cons] at h
    obtain ⟨mid, hmid, h⟩ := Option.bind_eq_some_iff.mp h
    exact (steps_setParent hmid).trans (ih h)

theorem steps_setPrevLeaf {p prev : PageNo} (h : s.setPrevLeaf p prev = some s') :
    Steps s s' := by
  obtain ⟨n, hn, rfl⟩ := Option.map_eq_some_iff.mp h
  exact Steps.write (by simp [hn]) _

theorem steps_split {L : IxLayout κ} {p : PageNo} (h : split L s p = some s') : Steps s s' := by
  obtain ⟨node, hnode, h⟩ := Option.bind_eq_some_iff.mp h
  have hp : (s.pages p).isSome := by simp [hnode]
  have hwrites : ∀ left right : IxNode κ,
      Steps s ((s.createNode.write p left).write s.nextPageNo right) := by
    intro left right
    refine (Steps.createNode s).trans ((Steps.write ?_ left).trans (Steps.write ?_ right))
    · simp [hp]
    · simp
  simp only at h
  split at h
  · obtain ⟨mid, hmid, h⟩ := Option.bind_eq_some_iff.mp h
    refine (hwrites _ _).trans ((steps_setPrevLeaf hmid).trans ?_)
    have h' := Option.some.inj h
    split at h'
    · rw [← h']
      exact Steps.setHeader mid mid.rootPage mid.firstLeaf _
    · rw [← h']
      exact Steps.refl mid
  · exact (hwrites _ _).trans (steps_maintainChildren h)

theorem steps_adjustRoot {L : IxLayout κ} {p : PageNo} (h : adjustRoot L s p = some s') :
    Steps s s' := by
  obtain ⟨node, -, h⟩ := Option.bind_eq_some_iff.mp h
  split at h
  · obtain ⟨mid, hmid, rfl⟩ := Option.map_eq_some_iff.mp h
    exact (Steps.setHeader s _ s.firstLeaf s.lastLeaf).trans
      ((steps_setParent hmid).trans (Steps.release mid p))
  · split at h
    · cases Option.some.inj h
      exact (Steps.setHeader s _ _ _).trans (Steps.release _ p)
    · cases Option.some.inj h
      exact Steps.refl s

/-- Two nodes next to each other in the tree are rewritten. -/
theorem steps_writes {p q : PageNo} (hp : (s.pages p).isSome) (hq : (s.pages q).isSome)
    (n m : IxNode κ) : Steps s ((s.write p n).write q m) :=
  (Steps.write hp n).trans (Steps.write (by simp [hq]) m)

variable [LinearOrder κ]

theorem steps_growRoot {L : IxLayout κ} {old new : PageNo} {key : κ}
    (h : (growRoot L s old key new).file = some s') : Steps s s' := by
  have hcreate : Steps s { s.createNode with rootPage := s.nextPageNo } :=
    (Steps.createNode s).trans (Steps.setHeader s.createNode s.nextPageNo _ _)
  unfold growRoot at h
  simp only at h
  split at h
  · cases h
  next mid hmid =>
    obtain ⟨mid₁, hmid₁, hmid₂⟩ := Option.bind_eq_some_iff.mp hmid
    have hparents := (steps_setParent hmid₁).trans (steps_setParent hmid₂)
    -- both children keep their page, so the new root is still there
    have hroot : (mid.pages s.nextPageNo).isSome := by
      obtain ⟨n₁, hn₁, rfl⟩ := Option.map_eq_some_iff.mp hmid₁
      obtain ⟨n₂, hn₂, rfl⟩ := Option.map_eq_some_iff.mp hmid₂
      simp
    refine hcreate.trans (hparents.trans ?_)
    split at h
    · cases Option.some.inj h
      exact Steps.write hroot _
    · cases Option.some.inj h
      exact Steps.write hroot _

theorem steps_insertIntoParent {L : IxLayout κ} {fuel : Nat} {old new : PageNo} {key : κ}
    (h : (insertIntoParent L fuel s old key new).file = some s') : Steps s s' := by
  induction fuel generalizing s old key new with
  | zero => cases h
  | succ fuel ih =>
    unfold insertIntoParent at h
    split at h
    · cases h
    next oldNode hold =>
      split at h
      · exact steps_growRoot h
      · split at h
        · cases h
        next node hnode =>
          have hparent : (s.pages oldNode.parent).isSome := by simp [hnode]
          split at h
          · cases Option.some.inj h
            exact Steps.refl _
          next node' _ =>
            simp only at h
            split at h
            · split at h
              · cases h
              next mid hsplit =>
                split at h
                · cases h
                · exact (Steps.write hparent _).trans ((steps_split hsplit).trans (ih h))
            · cases Option.some.inj h
              exact Steps.write hparent _

theorem steps_plantRoot {L : IxLayout κ} {key : κ} {value : Rid}
    (h : (plantRoot L s key value).file = some s') : Steps s s' := by
  have hcreate : Steps s { s.createNode with
      rootPage := s.nextPageNo, firstLeaf := s.nextPageNo, lastLeaf := s.nextPageNo } :=
    (Steps.createNode s).trans (Steps.setHeader s.createNode _ _ _)
  have hroot : (({ s.createNode with
      rootPage := s.nextPageNo, firstLeaf := s.nextPageNo,
      lastLeaf := s.nextPageNo } : IxFile κ).pages s.nextPageNo).isSome := by simp
  unfold plantRoot at h
  simp only at h
  split at h
  · cases Option.some.inj h
    exact hcreate.trans (Steps.write hroot _)
  · cases Option.some.inj h
    exact hcreate.trans (Steps.write hroot _)

/-- An insertion is made of page steps. -/
theorem steps_insertEntry {L : IxLayout κ} {key : κ} {value : Rid}
    (h : (insertEntry L s key value).file = some s') : Steps s s' := by
  unfold insertEntry at h
  split at h
  · exact steps_plantRoot h
  · split at h
    · cases h
    next p _ =>
      split at h
      · cases h
      next leaf hleaf =>
        have hp : (s.pages p).isSome := by simp [hleaf]
        split at h
        · cases Option.some.inj h
          exact Steps.refl s
        next node _ =>
          simp only at h
          split at h
          · split at h
            · cases h
            next mid hsplit =>
              split at h
              · cases h
              · exact (Steps.write hp _).trans
                  ((steps_split hsplit).trans (steps_insertIntoParent h))
          · cases Option.some.inj h
            exact Steps.write hp _

theorem steps_redistribute {L : IxLayout κ} {neighbor node parent : PageNo} {nb nd pr : IxNode κ}
    {index : Nat} (hnb : (s.pages neighbor).isSome) (hnd : (s.pages node).isSome)
    (hpr : (s.pages parent).isSome)
    (h : redistribute L s neighbor node parent nb nd pr index = some s') : Steps s s' := by
  -- a new parent of a moved child in between leaves the parent's page in place
  have hadopt : ∀ {n m k : IxNode κ} {child : PageNo} {mid : IxFile κ},
      ((s.write node n).write neighbor m).setParent child node = some mid →
      Steps s (mid.write parent k) := by
    intro n m k child mid hmid
    refine (steps_writes hnd hnb n m).trans ((steps_setParent hmid).trans (Steps.write ?_ k))
    obtain ⟨c, -, rfl⟩ := Option.map_eq_some_iff.mp hmid
    simp [hpr]
  have hleaf : ∀ n m k : IxNode κ,
      Steps s (((s.write node n).write neighbor m).write parent k) := by
    intro n m k
    exact (steps_writes hnd hnb n m).trans (Steps.write (by simp [hpr]) k)
  unfold redistribute at h
  split at h
  · split at h
    · obtain ⟨n, -, h⟩ := Option.bind_eq_some_iff.mp h
      obtain ⟨mid, hmid, rfl⟩ := Option.map_eq_some_iff.mp h
      exact hadopt hmid
    · obtain ⟨mid, hmid, rfl⟩ := Option.map_eq_some_iff.mp h
      exact hadopt hmid
  · split at h
    · obtain ⟨n, -, rfl⟩ := Option.map_eq_some_iff.mp h
      exact hleaf _ _ _
    · obtain ⟨n, -, rfl⟩ := Option.map_eq_some_iff.mp h
      exact hleaf _ _ _

omit [LinearOrder κ] in
theorem steps_coalesce {L : IxLayout κ} {left right parent : PageNo} {ln rn pr : IxNode κ}
    {index : Nat} (hleft : (s.pages left).isSome) (hpr : (s.pages parent).isSome)
    (h : coalesce L s left right parent ln rn pr index = some s') : Steps s s' := by
  unfold coalesce at h
  simp only at h
  split at h
  · obtain ⟨mid, hmid, rfl⟩ := Option.map_eq_some_iff.mp h
    refine (steps_writes hleft hpr _ _).trans ((Steps.write ?_ _).trans
      ((steps_setPrevLeaf hmid).trans ?_))
    · simp [hleft]
    · split
      · exact (Steps.setHeader mid mid.rootPage mid.firstLeaf _).trans (Steps.release _ right)
      · exact Steps.release mid right
  · obtain ⟨mid, hmid, rfl⟩ := Option.map_eq_some_iff.mp h
    exact (steps_writes hleft hpr _ _).trans
      ((steps_maintainChildren hmid).trans (Steps.release mid right))

theorem steps_coalesceOrRedistribute {L : IxLayout κ} {fuel : Nat} {p : PageNo}
    (h : coalesceOrRedistribute L fuel s p = some s') : Steps s s' := by
  induction fuel generalizing s p with
  | zero => cases h
  | succ fuel ih =>
    obtain ⟨node, hnode, h⟩ := Option.bind_eq_some_iff.mp h
    have hp : (s.pages p).isSome := by simp [hnode]
    split at h
    · exact steps_adjustRoot h
    · split at h
      · cases Option.some.inj h
        exact Steps.refl _
      · obtain ⟨pr, hpr, h⟩ := Option.bind_eq_some_iff.mp h
        obtain ⟨nb, hnb, h⟩ := Option.bind_eq_some_iff.mp h
        obtain ⟨mid, hmid, h⟩ := Option.bind_eq_some_iff.mp h
        have hparent : (s.pages node.parent).isSome := by simp [hpr]
        have hneighbor := Option.isSome_iff_exists.mpr ⟨nb, hnb⟩
        generalize pr.valueAt L (if pr.findChild p ≠ 0 then pr.findChild p - 1 else 1) =
          neighbor at hmid hneighbor
        refine Steps.trans ?_ (ih h)
        split at hmid
        · exact steps_redistribute hneighbor hp hparent hmid
        · split at hmid
          · exact steps_coalesce hp hparent hmid
          · exact steps_coalesce hneighbor hparent hmid

/-- A deletion is made of page steps. -/
theorem steps_deleteEntry {L : IxLayout κ} {key : κ} (h : deleteEntry L s key = some s') :
    Steps s s' := by
  obtain ⟨p, -, h⟩ := Option.bind_eq_some_iff.mp h
  obtain ⟨leaf, hleaf, h⟩ := Option.bind_eq_some_iff.mp h
  obtain ⟨pos, -, h⟩ := Option.bind_eq_some_iff.mp h
  have hp : (s.pages p).isSome := by simp [hleaf]
  split at h
  · have hrest := steps_coalesceOrRedistribute h
    exact (Steps.write hp _).trans hrest
  · cases Option.some.inj h
    exact Steps.refl _

end Operations

end IxFile

end Grmdb
