import Grmdb.IndexPages

namespace Grmdb

open Runs

/-- The index files with the descriptors they are open under and the counters that
`allocate_page` takes page numbers from. While an index is open, its `nextPageNo` is the counter
of its descriptor. -/
structure IxWorld (κ : Type) where
  files : Path → Option (IxFile κ)
  path2fd : Path → Option Fd
  fd2path : Fd → Option Path
  fd2pageno : Fd → PageNo

inductive IxEvent (κ : Type) where
  | createIndex (path : Path) (fd : Fd)
  | openIndex (path : Path) (fd : Fd)
  | closeIndex (fd : Fd)
  | destroyIndex (path : Path)
  | page (fd : Fd) (e : IxStep κ)
  | otherFile (fd : Fd) (pageNo : PageNo)
  | restart

/-- All pages of an index lie below the next page number, and so do the header pages. -/
def IxFile.Below {κ : Type} (s : IxFile κ) : Prop :=
  2 ≤ s.nextPageNo ∧ ∀ p, (s.pages p).isSome → p < s.nextPageNo

theorem IxFile.Below.step {κ : Type} {s s' : IxFile κ} (h : s.Below) {e : IxStep κ}
    (hs : s.step e = some s') : s'.Below := by
  obtain ⟨hnext, hpages⟩ := h
  cases e with
  | createNode =>
    cases Option.some.inj hs
    refine ⟨?_, fun p hp => ?_⟩
    · simp only [IxFile.createNode]
      lia
    · rw [IxFile.isSome_createNode, Bool.or_eq_true, decide_eq_true_eq] at hp
      simp only [IxFile.createNode]
      rcases hp with rfl | hp
      · lia
      · have := hpages p hp
        lia
  | write q n =>
    simp only [IxFile.step] at hs
    split at hs
    next hq =>
      cases Option.some.inj hs
      refine ⟨hnext, fun p hp => ?_⟩
      rw [IxFile.isSome_write, Bool.or_eq_true, decide_eq_true_eq] at hp
      rcases hp with rfl | hp
      · exact hpages p hq
      · exact hpages p hp
    next => cases hs
  | release q =>
    cases Option.some.inj hs
    refine ⟨hnext, fun p hp => ?_⟩
    by_cases hpq : p = q
    · simp [IxFile.release, hpq] at hp
    · simp only [IxFile.release, Function.update_of_ne hpq] at hp
      exact hpages p hp
  | setHeader rootPage firstLeaf lastLeaf =>
    cases Option.some.inj hs
    exact ⟨hnext, hpages⟩

namespace IxWorld

variable {κ : Type}

/-- A new process: nothing is open, the counters start at 0. -/
def boot (files : Path → Option (IxFile κ)) : IxWorld κ :=
  ⟨files, fun _ => none, fun _ => none, fun _ => 0⟩

/-- The index open under `fd`, with the page number that `create_node` gets next. -/
def handle (w : IxWorld κ) (fd : Fd) : Option (IxFile κ) :=
  ((w.fd2path fd).bind w.files).map fun s => { s with nextPageNo := w.fd2pageno fd }

def setHandle (w : IxWorld κ) (fd : Fd) (path : Path) (s : IxFile κ) : IxWorld κ :=
  { w with
    files := Function.update w.files path (some s)
    fd2pageno := Function.update w.fd2pageno fd s.nextPageNo }

/-- The operating system chooses any descriptor that is not in use. `otherFile` is what tables
and temporary files do to the counter of a descriptor. -/
def step (w : IxWorld κ) : IxEvent κ → Option (IxWorld κ)
  | .createIndex path fd =>
    match w.files path, w.path2fd path, w.fd2path fd with
    | none, none, none =>
      some { w with
        files := Function.update w.files path (some (IxFile.create κ))
        fd2pageno := Function.update w.fd2pageno fd (IX_INIT_NUM_PAGES - 1) }
    | _, _, _ => none
  | .openIndex path fd =>
    match w.files path, w.path2fd path, w.fd2path fd with
    | some _, none, none =>
      some { w with
        path2fd := Function.update w.path2fd path (some fd)
        fd2path := Function.update w.fd2path fd (some path)
        fd2pageno := Function.update w.fd2pageno fd (w.fd2pageno fd + 1) }
    | _, _, _ => none
  | .closeIndex fd =>
    match w.fd2path fd with
    | none => none
    | some path =>
      some { w with
        path2fd := Function.update w.path2fd path none
        fd2path := Function.update w.fd2path fd none }
  | .destroyIndex path =>
    match w.path2fd path with
    | some _ => none
    | none => some { w with files := Function.update w.files path none }
  | .page fd e =>
    match w.fd2path fd, w.handle fd with
    | some path, some s => (s.step e).map (w.setHandle fd path)
    | _, _ => none
  | .otherFile fd pageNo =>
    match w.fd2path fd with
    | some _ => none
    | none => some { w with fd2pageno := Function.update w.fd2pageno fd pageNo }
  | .restart => some (boot w.files)

/-- The number that the next `create_node` on an open index obtains is no header page and no
page of the tree. -/
def NoCollision (w : IxWorld κ) : Prop :=
  ∀ fd s, w.handle fd = some s →
    s.nextPageNo ≠ IX_FILE_HDR_PAGE ∧ s.nextPageNo ≠ IX_LEAF_HEADER_PAGE ∧
    ¬ s.Reachable s.nextPageNo

/-- When an index is opened, the counter of its descriptor has been at every page of the file
and past the first header page. -/
def OpenAbove (w : IxWorld κ) : IxEvent κ → Prop
  | .openIndex path fd => 1 ≤ w.fd2pageno fd ∧
      ∀ s, w.files path = some s → ∀ p, (s.pages p).isSome → p ≤ w.fd2pageno fd
  | _ => True

/-- A path is open under one descriptor, and every open index has its pages below the counter
of that descriptor. -/
structure Ordered (w : IxWorld κ) : Prop where
  paths : ∀ fd path, w.fd2path fd = some path ↔ w.path2fd path = some fd
  below : ∀ fd s, w.handle fd = some s → s.Below

theorem ordered_boot (files : Path → Option (IxFile κ)) : Ordered (boot files) := by
  constructor
  · intro fd path
    simp [boot]
  · intro fd s hs
    simp [boot, handle] at hs

namespace Ordered

variable {w w' : IxWorld κ}

theorem handle_eq {fd : Fd} {s : IxFile κ} (h : w.handle fd = some s) :
    ∃ path file, w.fd2path fd = some path ∧ w.files path = some file ∧
      s = { file with nextPageNo := w.fd2pageno fd } := by
  obtain ⟨file, hfile, rfl⟩ := Option.map_eq_some_iff.mp h
  obtain ⟨path, hpath, hfile⟩ := Option.bind_eq_some_iff.mp hfile
  exact ⟨path, file, hpath, hfile, rfl⟩

/-- Two open descriptors belong to different files. -/
theorem path_ne (h : Ordered w) {fd fd' : Fd} {path path' : Path} (hfd : w.fd2path fd = some path)
    (hfd' : w.fd2path fd' = some path') (hne : fd' ≠ fd) : path' ≠ path := by
  rintro rfl
  rw [h.paths] at hfd hfd'
  rw [hfd] at hfd'
  exact hne (Option.some.inj hfd').symm

theorem step (h : Ordered w) {e : IxEvent κ} (ho : w.OpenAbove e) (hs : w.step e = some w') :
    Ordered w' := by
  cases e with
  | createIndex path fd =>
    simp only [IxWorld.step] at hs
    split at hs
    next hfile hpath hfd =>
      cases Option.some.inj hs
      refine ⟨h.paths, fun fd' s hs => ?_⟩
      obtain ⟨path', file, hfd', hfile', rfl⟩ := handle_eq hs
      simp only at hfd' hfile' ⊢
      have hne : fd' ≠ fd := by
        rintro rfl
        rw [hfd] at hfd'
        cases hfd'
      have hpne : path' ≠ path := by
        rintro rfl
        rw [h.paths, hpath] at hfd'
        cases hfd'
      rw [Function.update_of_ne hpne] at hfile'
      rw [Function.update_of_ne hne]
      exact h.below fd' _ (by simp [handle, hfd', hfile'])
    · cases hs
  | openIndex path fd =>
    simp only [IxWorld.step] at hs
    split at hs
    next file hfile hpath hfd =>
      cases Option.some.inj hs
      refine ⟨fun fd' path' => ?_, fun fd' s hs => ?_⟩
      · simp only
        by_cases hf : fd' = fd
        · subst hf
          rw [Function.update_self]
          by_cases hp : path' = path
          · subst hp
            simp
          · rw [Function.update_of_ne hp, ← h.paths, hfd]
            simp [Ne.symm hp]
        · rw [Function.update_of_ne hf, h.paths]
          by_cases hp : path' = path
          · subst hp
            rw [Function.update_self, hpath]
            simp [Ne.symm hf]
          · rw [Function.update_of_ne hp]
      · obtain ⟨path', file', hfd', hfile', rfl⟩ := handle_eq hs
        simp only at hfd' hfile' ⊢
        by_cases hf : fd' = fd
        · subst hf
          rw [Function.update_self] at hfd'
          cases Option.some.inj hfd'
          obtain ⟨hone, hpages⟩ := ho
          simp only [Function.update_self]
          refine ⟨?_, fun p hp => ?_⟩
          · simp only
            lia
          · have := hpages file' hfile' p hp
            simp only
            lia
        · rw [Function.update_of_ne hf] at hfd' ⊢
          exact h.below fd' _ (by simp [handle, hfd', hfile'])
    · cases hs
  | closeIndex fd =>
    simp only [IxWorld.step] at hs
    split at hs
    · cases hs
    next path hpath =>
      cases Option.some.inj hs
      refine ⟨fun fd' path' => ?_, fun fd' s hs => ?_⟩
      · simp only
        by_cases hf : fd' = fd
        · subst hf
          rw [Function.update_self]
          by_cases hp : path' = path
          · subst hp
            simp
          · rw [Function.update_of_ne hp, ← h.paths, hpath]
            simp [Ne.symm hp]
        · rw [Function.update_of_ne hf]
          by_cases hp : path' = path
          · subst hp
            rw [Function.update_self]
            simp only [reduceCtorEq, iff_false]
            intro hfd'
            exact h.path_ne hpath hfd' hf rfl
          · rw [Function.update_of_ne hp]
            exact h.paths fd' path'
      · obtain ⟨path', file', hfd', hfile', rfl⟩ := handle_eq hs
        simp only at hfd' hfile' ⊢
        by_cases hf : fd' = fd
        · rw [hf, Function.update_self] at hfd'
          cases hfd'
        · rw [Function.update_of_ne hf] at hfd'
          exact h.below fd' _ (by simp [handle, hfd', hfile'])
  | destroyIndex path =>
    simp only [IxWorld.step] at hs
    split at hs
    · cases hs
    next hpath =>
      cases Option.some.inj hs
      refine ⟨h.paths, fun fd s hs => ?_⟩
      obtain ⟨path', file', hfd, hfile, rfl⟩ := handle_eq hs
      simp only at hfd hfile ⊢
      have hpne : path' ≠ path := by
        rintro rfl
        rw [h.paths, hpath] at hfd
        cases hfd
      rw [Function.update_of_ne hpne] at hfile
      exact h.below fd _ (by simp [handle, hfd, hfile])
  | page fd e =>
    simp only [IxWorld.step] at hs
    split at hs
    next path s hpath hhandle =>
      obtain ⟨s', hstep, rfl⟩ := Option.map_eq_some_iff.mp hs
      have hbelow := (h.below fd s hhandle).step hstep
      refine ⟨h.paths, fun fd' t ht => ?_⟩
      obtain ⟨path', file', hfd', hfile', rfl⟩ := handle_eq ht
      simp only [setHandle] at hfd' hfile' ⊢
      by_cases hf : fd' = fd
      · subst hf
        rw [hpath] at hfd'
        cases Option.some.inj hfd'
        rw [Function.update_self] at hfile' ⊢
        cases Option.some.inj hfile'
        exact hbelow
      · rw [Function.update_of_ne (h.path_ne hpath hfd' hf)] at hfile'
        rw [Function.update_of_ne hf]
        exact h.below fd' _ (by simp [handle, hfd', hfile'])
    · cases hs
  | otherFile fd pageNo =>
    simp only [IxWorld.step] at hs
    split at hs
    · cases hs
    next hfd =>
      cases Option.some.inj hs
      refine ⟨h.paths, fun fd' s hs => ?_⟩
      obtain ⟨path', file', hfd', hfile', rfl⟩ := handle_eq hs
      simp only at hfd' hfile' ⊢
      have hne : fd' ≠ fd := by
        rintro rfl
        rw [hfd] at hfd'
        cases hfd'
      rw [Function.update_of_ne hne]
      exact h.below fd' _ (by simp [handle, hfd', hfile'])
  | restart =>
    cases Option.some.inj hs
    exact ordered_boot w.files

theorem noCollision (h : Ordered w) : NoCollision w := by
  intro fd s hs
  obtain ⟨hnext, hpages⟩ := h.below fd s hs
  refine ⟨?_, ?_, fun hreach => ?_⟩
  · simp only [IX_FILE_HDR_PAGE]
    lia
  · simp only [IX_LEAF_HEADER_PAGE]
    lia
  · have := hpages s.nextPageNo hreach.isSome
    lia

end Ordered

/-- What the tree operations do to an open index, its page events do to the files. -/
theorem run_pages {w : IxWorld κ} {fd : Fd} {s s' : IxFile κ} (hs : w.handle fd = some s)
    (h : IxFile.Steps s s') :
    ∃ (es : List (IxStep κ)) (w' : IxWorld κ),
      run IxWorld.step w (es.map (.page fd)) = some w' ∧ w'.handle fd = some s' := by
  obtain ⟨es, hes⟩ := h
  refine ⟨es, ?_⟩
  induction es generalizing w s with
  | nil =>
    cases Option.some.inj hes
    exact ⟨w, rfl, hs⟩
  | cons e es ih =>
    obtain ⟨mid, hstep, hrest⟩ := run_cons_eq_some.mp hes
    obtain ⟨path, file, hpath, -, -⟩ := Ordered.handle_eq hs
    have hmid : (w.setHandle fd path mid).handle fd = some mid := by
      simp [handle, setHandle, hpath]
    obtain ⟨w', hrun, hw'⟩ := ih hmid hrest
    refine ⟨w', ?_, hw'⟩
    rw [List.map_cons]
    exact run_cons_eq_some.mpr ⟨_, by simp [IxWorld.step, hpath, hs, hstep], hrun⟩

end IxWorld

/-- In every run in which each index is opened under a descriptor whose counter has passed its
pages, `create_node` never obtains a header page or a page of the tree. The runs go down to the
page events, and insertions and deletions are made of these. -/
theorem index_pages_do_not_collide {κ : Type} [LinearOrder κ] (events : List (IxEvent κ))
    (w : IxWorld κ) (hrun : run IxWorld.step (IxWorld.boot fun _ => none) events = some w)
    (hopen : MeetsAll IxWorld.step IxWorld.OpenAbove (IxWorld.boot fun _ => none) events) :
    w.NoCollision ∧
    ∀ fd s, w.handle fd = some s → ∀ (L : IxLayout κ) (key : κ) (s' : IxFile κ),
      ((∃ value, (IxFile.insertEntry L s key value).file = some s') ∨ IxFile.deleteEntry L s key = some s') →
      ∃ (es : List (IxStep κ)) (w' : IxWorld κ),
      run IxWorld.step w (es.map (.page fd)) = some w' ∧ w'.handle fd = some s' := by
  constructor
  · have h : w.Ordered := run_invariant (fun _ _ _ hw ho hs => hw.step ho hs)
      (IxWorld.ordered_boot _) hopen hrun
    exact h.noCollision
  · rintro fd s hs L key s' (⟨value, hinsert⟩ | hdelete)
    · exact IxWorld.run_pages hs (IxFile.steps_insertEntry hinsert)
    · exact IxWorld.run_pages hs (IxFile.steps_deleteEntry hdelete)

theorem index_pages_do_not_collide_created : ∃ w,
    run IxWorld.step (IxWorld.boot fun _ => none)
      [.createIndex "i" 3, .openIndex "i" 3, .page 3 (.createNode : IxStep Nat)] = some w ∧
    w.NoCollision := by
  refine ⟨_, rfl, (index_pages_do_not_collide
    [.createIndex "i" 3, .openIndex "i" 3, .page 3 .createNode] _ rfl ?_).1⟩
  refine meetsAll_cons rfl trivial (meetsAll_cons rfl ?_ (meetsAll_cons rfl trivial trivial))
  refine ⟨by decide, fun s hs p hp => ?_⟩
  cases Option.some.inj hs
  cases hp

/-- An index with one leaf, closed and opened again by a new process, and then two more nodes. -/
def reopenedIndex : List (IxEvent Nat) :=
  [.createIndex "i" 3, .openIndex "i" 3, .page 3 .createNode,
    .page 3 (.write 3 ⟨IX_NO_PAGE, true, 3, 3, [(5, ⟨1, 0⟩)], []⟩), .page 3 (.setHeader 3 3 3),
    .closeIndex 3, .restart, .openIndex "i" 3]

/-- The constructor of the handle takes the old counter plus one, which is 1 in a new process:
the first new node gets the leaf header page, the third one the page of the root. -/
theorem index_pages_collide_after_restart :
    (∃ w, run IxWorld.step (IxWorld.boot fun _ => none) reopenedIndex = some w ∧
      ¬ w.NoCollision) ∧
    ∃ w s, run IxWorld.step (IxWorld.boot fun _ => none)
        (reopenedIndex ++ [.page 3 .createNode, .page 3 .createNode]) = some w ∧
      w.handle 3 = some s ∧ s.Reachable s.nextPageNo := by
  refine ⟨⟨_, rfl, fun h => ?_⟩, ⟨_, _, rfl, rfl, ?_⟩⟩
  · exact (h 3 _ rfl).2.1 rfl
  · exact IxFile.Reachable.root rfl

end Grmdb
