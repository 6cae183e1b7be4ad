import Grmdb.RecoverTwice

namespace Grmdb

open AssocMap Runs

/-- `open_file`: the next page number comes from the file header. -/
def RmFile.opened (f : RmFile) : RmFile := { f with fd2pageno := f.numPages }

def Db.opened (db : Db) : Db := fun tab => (db tab).map RmFile.opened

/-- How far recovery is: the LSNs that `redo` still goes through, or the queue of `undo`. -/
inductive RecoverPhase where
  | redo (left : Nat) (lsn : Lsn)
  | undo (queue : List Lsn)
  | done
  deriving DecidableEq

/-- The tables as the server has them and as they are on disk. `rolledBack` tells the pages on
which an INSERT record has been rolled back. -/
structure RecoverState where
  mem : Db
  disk : Db
  phase : RecoverPhase
  rolledBack : PageKey → Bool
  rolledBackOnDisk : PageKey → Bool

/-- `round` is one round of the loop that runs, `writePage` any write of a buffered page, `crash`
a crash with the restart behind it and `again` a recovery that follows on a finished one. -/
inductive RecoverEv where
  | round
  | writePage (key : PageKey)
  | crash
  | again

/-- Whether the redo of a record writes the file header to disk: `insert_redo` does for a page that
it fills, and `release_page_handle` for a page that is not the first free one. -/
def LogBody.redoWritesHeader (b : LogBody) (h : FileHead) (page : RmPage) : Bool :=
  match b with
  | .insert .. => (h.perPage : Int) ≤ page.numRecords + 1
  | .delete _ place =>
    page.numRecords = (h.perPage : Int) && place.rid.pageNo != place.firstFreePageNo
  | _ => false

def LogBody.undoWritesHeader (b : LogBody) (h : FileHead) (page : RmPage) : Bool :=
  match b with
  | .insert _ place =>
    page.numRecords = (h.perPage : Int) && place.rid.pageNo != h.firstFreePageNo
  | _ => false

/-- `write_page` of the file header of a table. -/
def Db.writeHeader (disk mem : Db) (tab : TabName) : Db :=
  Function.update disk tab ((disk tab).map fun f => ((mem.head tab).map f.withHead).getD f)

/-- `write_page` of a buffered page. -/
def Db.writePage (disk : Db) (key : PageKey) (page : RmPage) : Db :=
  Function.update disk key.1 ((disk key.1).map fun f => f.write key.2 page)

namespace RecoverState

/-- A record has been redone or rolled back: the disk after it, with the header where `writes` says
so of the header and the page before. -/
def diskAfter (s : RecoverState) (mem : Db) (r : LogRecord) (writes : FileHead → RmPage → Bool) :
    Db :=
  match r.body.place with
  | none => s.disk
  | some place =>
    match s.mem.head place.tableName, s.mem.page place.pageKey with
    | some h, some page =>
      if writes h page then s.disk.writeHeader mem place.tableName else s.disk
    | _, _ => s.disk

def firstPhase (log : List LogRecord) : RecoverPhase :=
  match firstLsn (analyze log).dpt with
  | none => .undo ((analyze log).att.map Prod.snd)
  | some first => .redo ((analyze log).lastLsn + 1 - first).toNat first

/-- A server that opens the tables on disk and recovers. -/
def started (log : List LogRecord) (disk : Db) (rolledBack : PageKey → Bool) : RecoverState :=
  ⟨disk.opened, disk, firstPhase log, rolledBack, rolledBack⟩

def redoRound (log : List LogRecord) (s : RecoverState) (left : Nat) (lsn : Lsn) :
    Option RecoverState :=
  (recordAt log lsn).bind fun r =>
    (redoRecord (analyze log).dpt lsn r s.mem).map fun mem =>
      let due := decide (r.DueIn (analyze log).dpt s.mem)
      let disk := s.diskAfter mem r fun h page => due && r.body.redoWritesHeader h page
      { s with mem := mem, disk := disk, phase := .redo left (lsn + 1) }

def undoRound (log : List LogRecord) (s : RecoverState) (queue : List Lsn) :
    Option RecoverState :=
  match queue.max? with
  | none => some { s with phase := .done }
  | some lsn =>
    if lsn = -1 then some { s with phase := .done }
    else
      (recordAt log lsn).bind fun r =>
        match r.body with
        | .begin => some { s with phase := .undo (queue.erase lsn) }
        | .insert .. | .delete .. | .update .. =>
          (undoRecord s.mem r).map fun mem =>
            { s with
              mem := mem
              disk := s.diskAfter mem r r.body.undoWritesHeader
              phase := .undo (r.prevLsn :: queue.erase lsn)
              rolledBack := fun key => s.rolledBack key || (r.body.isInsert && decide (r.On key)) }
        | _ => some s

def step (log : List LogRecord) (s : RecoverState) : RecoverEv → Option RecoverState
  | .round =>
    match s.phase with
    | .redo 0 _ => some { s with phase := .undo ((analyze log).att.map Prod.snd) }
    | .redo (left + 1) lsn => s.redoRound log left lsn
    | .undo queue => s.undoRound log queue
    | .done => none
  | .writePage key =>
    (s.mem.page key).map fun page =>
      { s with
        disk := s.disk.writePage key page
        rolledBackOnDisk := Function.update s.rolledBackOnDisk key (s.rolledBack key) }
  | .crash => some (started log s.disk s.rolledBackOnDisk)
  | .again => if s.phase = .done then some { s with phase := firstPhase log } else none

/-- No crash while the roll-back of an INSERT record is on disk, nor while the header of a table on
disk, with what is left to redo, comes to another than the one on `disk` did; and no second recovery
of a server that has rolled back an INSERT record. -/
def Harmless (log : List LogRecord) (disk : Db) (s : RecoverState) : RecoverEv → Prop
  | .crash => ∀ r ∈ log, ∀ place ∈ r.body.place, s.rolledBackOnDisk place.pageKey = false ∧
      s.disk.headAfter (analyze log).dpt (redoReads log) place.tableName =
        disk.headAfter (analyze log).dpt (redoReads log) place.tableName
  | .again => ∀ r ∈ log, ∀ place ∈ r.body.place, s.rolledBack place.pageKey = false
  | .round => True
  | .writePage _ => True

instance (log : List LogRecord) (disk : Db) (s : RecoverState) (e : RecoverEv) :
    Decidable (Harmless log disk s e) :=
  match e with
  | .crash => inferInstanceAs (Decidable (∀ r ∈ log, ∀ place ∈ r.body.place, _ ∧ _))
  | .again => inferInstanceAs (Decidable (∀ r ∈ log, ∀ place ∈ r.body.place, _))
  | .round => isTrue trivial
  | .writePage _ => isTrue trivial

end RecoverState

section Opened

variable (db : Db)

@[simp] theorem Db.opened_head (tab : TabName) : db.opened.head tab = db.head tab := by
  unfold Db.head Db.opened
  cases db tab <;> rfl

@[simp] theorem Db.opened_page (key : PageKey) : db.opened.page key = db.page key := by
  unfold Db.page Db.opened
  cases db key.1 <;> rfl

theorem Db.opened_shape : SameShape db db.opened :=
  ⟨fun tab => by rw [Db.opened_head], fun key => by rw [Db.opened_page]⟩

theorem Db.opened_headAfter (dpt : List (PageKey × Lsn)) (rs : List LogRecord) (tab : TabName) :
    db.opened.headAfter dpt rs tab = db.headAfter dpt rs tab := by
  have hdue : ∀ r : LogRecord, r.DueIn dpt db.opened ↔ r.DueIn dpt db := by
    intro r
    simp [LogRecord.DueIn]
  simp only [Db.headAfter, Db.lastDue, hdue, Db.opened_head, Db.opened_page]

end Opened

section Writes

variable {disk mem : Db} {tab : TabName} {key : PageKey} {page : RmPage}

theorem Db.writeHeader_page (k : PageKey) : (disk.writeHeader mem tab).page k = disk.page k := by
  unfold Db.writeHeader Db.page
  by_cases hk : k.1 = tab
  · subst hk
    rw [Function.update_self]
    cases hf : disk k.1 with
    | none => rfl
    | some f => cases mem.head k.1 <;> rfl
  · rw [Function.update_of_ne hk]

theorem Db.writeHeader_shape (h : SameShape disk mem) :
    SameShape disk (disk.writeHeader mem tab) := by
  refine ⟨fun t => ?_, fun k => by rw [Db.writeHeader_page]⟩
  unfold Db.writeHeader
  by_cases ht : t = tab
  · subst ht
    have hsize := h.sizes t
    cases hf : disk t with
    | none => simp [Db.head, hf]
    | some f =>
      cases hm : mem.head t with
      | none => simp [Db.head, hf]
      | some head =>
        have hhead : disk.head t = some f.head := by simp [Db.head, hf]
        rw [hhead, hm] at hsize
        simp only [Option.map_some, Option.some.injEq] at hsize
        simp [Db.head, hf, RmFile.head, RmFile.withHead, ← hsize]
  · simp [Db.head, ht]

theorem Db.writePage_page (hthere : (disk.page key).isSome = true) (k : PageKey) :
    (disk.writePage key page).page k = if k = key then some page else disk.page k := by
  obtain ⟨old, hold⟩ := Option.isSome_iff_exists.mp hthere
  obtain ⟨f, hf, -⟩ := Option.bind_eq_some_iff.mp hold
  have hwrite : disk.writePage key page = Function.update disk key.1 (some (f.write key.2 page)) := by
    simp [Db.writePage, hf]
  obtain ⟨tab, p⟩ := k
  obtain ⟨tab', p'⟩ := key
  rw [hwrite, Db.page_update]
  by_cases ht : tab = tab'
  · subst ht
    have hf' : disk tab = some f := hf
    by_cases hq : p = p'
    · simp [RmFile.write, hq]
    · simp [RmFile.write, hq, Db.page, hf']
  · simp [ht]

theorem Db.writePage_head (t : TabName) : (disk.writePage key page).head t = disk.head t := by
  unfold Db.writePage Db.head
  by_cases ht : t = key.1
  · subst ht
    rw [Function.update_self]
    cases disk key.1 <;> rfl
  · rw [Function.update_of_ne ht]

theorem Db.writePage_shape (hthere : (disk.page key).isSome = true) :
    SameShape disk (disk.writePage key page) := by
  refine ⟨fun t => by rw [Db.writePage_head], fun k => ?_⟩
  rw [Db.writePage_page hthere]
  split
  next hk => rw [hk, hthere, Option.isSome_some]
  next => rfl

end Writes

section Restore

variable {log : List LogRecord} {rs : List LogRecord} {disk start dbr mem : Db} {key : PageKey}
  {page : RmPage}

/-- `redo` makes of the page what it makes of the page on `disk`, but for what the records still
write. -/
def Restores (log rs : List LogRecord) (disk : Db) (key : PageKey) (page : RmPage) : Prop :=
  ∀ head first, disk.head key.1 = some head → disk.page key = some first →
    RmPage.OffBy rs key (replayAll (analyze log).dpt head key (redoReads log) first)
      (replayAll (analyze log).dpt head key (redoReads log) page)

/-- Tables from which `redo` comes to where it comes from those on `disk`. -/
structure Restorable (log rs : List LogRecord) (disk start : Db) : Prop where
  shape : SameShape disk start
  pages : ∀ key page, start.page key = some page → Restores log rs disk key page
  heads : ∀ tab, start.headAfter (analyze log).dpt (redoReads log) tab =
    disk.headAfter (analyze log).dpt (redoReads log) tab

theorem Restorable.opened (h : Restorable log rs disk start) :
    Restorable log rs disk start.opened := by
  refine ⟨h.shape.trans (Db.opened_shape start), fun key page hp => ?_, fun tab => ?_⟩
  · rw [Db.opened_page] at hp
    exact h.pages key page hp
  · rw [Db.opened_headAfter]
    exact h.heads tab

theorem Restorable.refl (log rs : List LogRecord) (disk : Db) : Restorable log rs disk disk := by
  refine ⟨SameShape.refl disk, fun key page hp head first _ hfirst => ?_, fun _ => rfl⟩
  cases Option.some.inj (hp.symm.trans hfirst)
  exact RmPage.OffBy.refl _ _ _

theorem exists_head_of_shape {db db' : Db} (h : SameShape db db') {tab : TabName}
    {head' : FileHead} (hhead : db'.head tab = some head') :
    ∃ head, db.head tab = some head ∧ head.recordSize = head'.recordSize := by
  have hsize := h.sizes tab
  rw [hhead, Option.map_some] at hsize
  exact Option.map_eq_some_iff.mp hsize

/-- A page half way through `redo` is as good as the page it was at the start. -/
theorem Restores.replayed {pre rest : List LogRecord} (hreads : redoReads log = pre ++ rest)
    {head' : FileHead} (hsize : ∀ head, disk.head key.1 = some head →
      head.recordSize = head'.recordSize) (h : Restores log rs disk key page) :
    Restores log rs disk key (replayAll (analyze log).dpt head' key pre page) := by
  intro head first hhead hfirst
  have hoff := h head first hhead hfirst
  have hmid : replayAll (analyze log).dpt head' key pre page =
      replayAll (analyze log).dpt head key pre page := replayAll_congr (hsize head hhead).symm
  rw [hmid, hreads, replayAll_again, ← hreads]
  exact hoff

variable (hredo : redoAll (analyze log).dpt (redoReads log) disk = some dbr)

include hredo in
/-- A page that has all the records of `redo` and differs from that of `dbr` in what the records
still write. -/
theorem Restores.of_offBy {page' : RmPage} (hpage : dbr.page key = some page')
    (hoff : RmPage.OffBy rs key page' page) : Restores log rs disk key page := by
  intro head first hhead hfirst
  have hlast := redoAll_page hredo hhead
  rw [hfirst, Option.map_some] at hlast
  cases Option.some.inj (hpage.symm.trans hlast)
  have hnone : replayAll (analyze log).dpt head key (redoReads log) page = page := by
    refine replayAll_of_not_due fun r hr hdue => ?_
    exact @not_due_replayAll (analyze log).dpt head key r (redoReads log) first hr
      ⟨hdue.1, hdue.2.1, hoff.lsn ▸ hdue.2.2⟩
  rw [hnone]
  exact hoff

include hredo in
theorem Restorable.redo (hsorted : (redoReads log).Pairwise fun q r => q.lsn < r.lsn)
    (h : Restorable log rs disk start)
    (hmem : redoAll (analyze log).dpt (redoReads log) start = some mem) : OffBy rs dbr mem := by
  have hshape : SameShape dbr mem :=
    (redoAll_shape hredo).symm.trans (h.shape.trans (redoAll_shape hmem))
  refine ⟨fun tab => ?_, hshape.pages, fun key page page' hp hp' => ?_⟩
  · rw [redoAll_head hsorted hredo, redoAll_head hsorted hmem, h.heads]
  · obtain ⟨last, hlast⟩ := Db.exists_head hp
    obtain ⟨head, hhead, -⟩ := exists_head_of_shape (redoAll_shape hredo) hlast
    obtain ⟨head', hhead', hsize⟩ := exists_head_of_shape h.shape.symm hhead
    rw [redoAll_page hredo hhead] at hp
    rw [redoAll_page hmem hhead'] at hp'
    obtain ⟨first, hfirst, rfl⟩ := Option.map_eq_some_iff.mp hp
    obtain ⟨first', hfirst', rfl⟩ := Option.map_eq_some_iff.mp hp'
    rw [replayAll_congr hsize]
    exact h.pages key first' hfirst' head first hhead hfirst

include hredo in
/-- Tables that have all the records of `redo`, with the headers that it ends with. -/
theorem Restorable.of_offBy (hsorted : (redoReads log).Pairwise fun q r => q.lsn < r.lsn)
    (hoff : OffBy rs dbr mem) : Restorable log rs disk mem := by
  refine ⟨(redoAll_shape hredo).trans hoff.shape, fun key page hp => ?_, fun tab => ?_⟩
  · obtain ⟨page', hp'⟩ := Option.isSome_iff_exists.mp
      ((hoff.there key).trans (Option.isSome_iff_exists.mpr ⟨page, hp⟩))
    exact Restores.of_offBy hredo hp' (hoff.pages key page' page hp' hp)
  · have hnone : mem.lastDue (analyze log).dpt (redoReads log) tab = none := by
      rw [Db.lastDue, List.getLast?_eq_none_iff, List.filter_eq_nil_iff]
      intro r hr hdue
      simp only [Bool.and_eq_true, decide_eq_true_eq] at hdue
      obtain ⟨⟨place, -, page, hp, hdue⟩, -⟩ := hdue
      obtain ⟨page', hp'⟩ := Option.isSome_iff_exists.mp
        ((hoff.there place.pageKey).trans (Option.isSome_iff_exists.mpr ⟨page, hp⟩))
      obtain ⟨last, hlast⟩ := Db.exists_head hp'
      obtain ⟨head, hhead, -⟩ := exists_head_of_shape (redoAll_shape hredo) hlast
      have hlsn := (hoff.pages _ page' page hp' hp).lsn
      rw [redoAll_page hredo hhead] at hp'
      obtain ⟨first, -, rfl⟩ := Option.map_eq_some_iff.mp hp'
      exact @not_due_replayAll (analyze log).dpt head _ r (redoReads log) first hr
        ⟨hdue.1, hdue.2.1, hlsn ▸ hdue.2.2⟩
    rw [Db.headAfter, hnone, ← redoAll_head hsorted hredo, hoff.heads]

end Restore

namespace RecoverState

section Survive

variable {log : List LogRecord} {fuel : Nat} {disk dbr db : Db} {s s' : RecoverState}
  {rest : List LogRecord}

/-- `undo` has all but `rest` behind it: the tables differ from those of an undisturbed recovery at
the same point in what `rest` writes. -/
def Undone (log : List LogRecord) (fuel : Nat) (dbr : Db) (rest : List LogRecord)
    (s : RecoverState) : Prop :=
  ∃ past mid, undone fuel log = past ++ rest ∧ undoAll past dbr = some mid ∧
    OffBy rest mid s.mem ∧
    ∀ key, s.rolledBack key = false → ∀ r ∈ past, r.On key → r.body.isInsert = false

/-- How far the loops are, and what the tables of the server have to do with it. The number bounds
the rounds that are left. -/
inductive Progress (log : List LogRecord) (fuel : Nat) (disk dbr : Db) (s : RecoverState) :
    Nat → Prop
  | redo (left : Nat) (lsn : Lsn) (start : Db) (pre : List LogRecord)
      (phase : s.phase = .redo left lsn)
      (range : ∀ l, lsn ≤ l → l < lsn + left → ∃ r, recordAt log l = some r ∧ r.lsn = l)
      (reads : redoReads log = pre ++ logFrom log left lsn)
      (restorable : Restorable log (undone fuel log) disk start)
      (mem : redoAll (analyze log).dpt pre start = some s.mem)
      (fresh : ∀ key, s.rolledBack key = false) :
      Progress log fuel disk dbr s (left + fuel + 2)
  | undo (queue : List Lsn) (left : Nat) (rest : List LogRecord) (phase : s.phase = .undo queue)
      (queued : undoneLoop log left queue = some rest) (undone : Undone log fuel dbr rest s) :
      Progress log fuel disk dbr s (left + 1)
  | done (phase : s.phase = .done) (undone : Undone log fuel dbr [] s) :
      Progress log fuel disk dbr s 0

/-- The disk can be recovered from but for the pages on which an INSERT record is rolled back, and
what the log does not name is as it was. -/
structure Inv (log : List LogRecord) (fuel : Nat) (disk dbr : Db) (s : RecoverState) : Prop where
  diskShape : SameShape disk s.disk
  memShape : SameShape disk s.mem
  diskPages : ∀ key, s.rolledBackOnDisk key = false → ∀ page, s.disk.page key = some page →
    Restores log (undone fuel log) disk key page
  flags : ∀ key, (∀ r ∈ log, ¬ r.On key) → s.rolledBack key = false
  flagsOnDisk : ∀ key, (∀ r ∈ log, ¬ r.On key) → s.rolledBackOnDisk key = false
  heads : ∀ tab, (∀ r ∈ log, r.body.place.map LogPlace.tableName ≠ some tab) →
    s.disk.head tab = disk.head tab
  progress : ∃ n, Progress log fuel disk dbr s n

variable (hdense : DenseLog log)
  (hredo : redoAll (analyze log).dpt (redoReads log) disk = some dbr)

include hredo in
theorem Undone.restores (h : Undone log fuel dbr rest s) {key : PageKey} {page : RmPage}
    (hpage : s.mem.page key = some page) (hkey : s.rolledBack key = false) :
    Restores log (undone fuel log) disk key page := by
  obtain ⟨past, mid, hsplit, hmid, hoff, hins⟩ := h
  obtain ⟨page₁, hp₁⟩ := Option.isSome_iff_exists.mp
    ((hoff.there key).trans (Option.isSome_iff_exists.mpr ⟨page, hpage⟩))
  obtain ⟨page₀, hp₀⟩ := Option.isSome_iff_exists.mp
    (((undoAll_shape hmid).pages key).trans (Option.isSome_iff_exists.mpr ⟨page₁, hp₁⟩))
  have hsub : past ⊆ undone fuel log := fun r hr => hsplit ▸ List.mem_append_left _ hr
  obtain ⟨page₁', hp₁', hback⟩ := undoAll_offBy hmid (hins key hkey) hsub hp₀
  cases Option.some.inj (hp₁.symm.trans hp₁')
  refine Restores.of_offBy hredo hp₀ (hback.trans ?_)
  exact (hoff.pages key page₁ page hp₁ hpage).mono fun r hr => hsplit ▸ List.mem_append_right _ hr

include hredo in
/-- A page that the server holds, where no INSERT record is rolled back, is good to be written. -/
theorem Progress.restores {n : Nat} (h : Progress log fuel disk dbr s n) {key : PageKey} {page : RmPage}
    (hpage : s.mem.page key = some page) (hkey : s.rolledBack key = false) :
    Restores log (undone fuel log) disk key page := by
  cases h with
  | redo left lsn start pre _ _ reads restorable mem _ =>
    obtain ⟨page₀, hp₀⟩ := Option.isSome_iff_exists.mp
      (((redoAll_shape mem).pages key).trans (Option.isSome_iff_exists.mpr ⟨page, hpage⟩))
    obtain ⟨head, hhead⟩ := Db.exists_head hp₀
    rw [redoAll_page mem hhead, hp₀, Option.map_some, Option.some.injEq] at hpage
    rw [← hpage]
    exact (restorable.pages key page₀ hp₀).replayed reads fun first hfirst =>
      restorable.shape.recordSize hfirst hhead
  | undo _ _ _ _ _ undone => exact undone.restores hredo hpage hkey
  | done _ undone => exact undone.restores hredo hpage hkey

include hdense hredo in
/-- A recovery that starts from tables that can be recovered from. -/
theorem Progress.first (h : Restorable log (undone fuel log) disk s.mem)
    (hqueue : undoneLoop log fuel ((analyze log).att.map Prod.snd) = some (undone fuel log))
    (hphase : s.phase = firstPhase log) (hfresh : ∀ key, s.rolledBack key = false) :
    ∃ n, Progress log fuel disk dbr s n := by
  unfold firstPhase at hphase
  cases hfirst : firstLsn (analyze log).dpt with
  | none =>
    rw [hfirst] at hphase
    have hreads : redoReads log = [] := by simp [redoReads, hfirst]
    have hoff := h.redo hredo (redoReads_sorted hdense) (by rw [hreads]; rfl)
    exact ⟨_, .undo _ _ _ hphase hqueue ⟨[], dbr, rfl, rfl, hoff, by simp⟩⟩
  | some first =>
    rw [hfirst] at hphase
    refine ⟨_, .redo _ first s.mem [] hphase (fun l => redo_range hdense hfirst) ?_ h rfl hfresh⟩
    simp [redoReads, hfirst]

theorem diskAfter_page (mem : Db) (r : LogRecord) (writes : FileHead → RmPage → Bool)
    (key : PageKey) : (s.diskAfter mem r writes).page key = s.disk.page key := by
  unfold diskAfter
  split
  · rfl
  · split
    · split
      · exact Db.writeHeader_page key
      · rfl
    · rfl

theorem diskAfter_shape {mem : Db} (h : SameShape s.disk mem) (r : LogRecord)
    (writes : FileHead → RmPage → Bool) : SameShape s.disk (s.diskAfter mem r writes) := by
  unfold diskAfter
  split
  · exact SameShape.refl _
  · split
    · split
      · exact Db.writeHeader_shape h
      · exact SameShape.refl _
    · exact SameShape.refl _

theorem diskAfter_head {mem : Db} {r : LogRecord} {writes : FileHead → RmPage → Bool}
    {tab : TabName} (h : r.body.place.map LogPlace.tableName ≠ some tab) :
    (s.diskAfter mem r writes).head tab = s.disk.head tab := by
  unfold diskAfter
  split
  · rfl
  next place hplace =>
    have hne : tab ≠ place.tableName := by
      rintro rfl
      simp [hplace] at h
    split
    · split
      · simp [Db.writeHeader, Db.head, hne]
      · rfl
    · rfl

/-- A table that the log does not name keeps its header. -/
theorem headAfter_of_unnamed {db : Db} {tab : TabName}
    (h : ∀ r ∈ log, r.body.place.map LogPlace.tableName ≠ some tab) :
    db.headAfter (analyze log).dpt (redoReads log) tab = db.head tab := by
  have hnone : db.lastDue (analyze log).dpt (redoReads log) tab = none := by
    rw [Db.lastDue, List.getLast?_eq_none_iff, List.filter_eq_nil_iff]
    intro r hr hdue
    simp only [Bool.and_eq_true, decide_eq_true_eq] at hdue
    exact h r (mem_redoReads hr) hdue.2
  rw [Db.headAfter, hnone]

/-- What a round changes: the tables of the server, at most headers on disk, and what is known of a
page of the log. -/
structure Moves (log : List LogRecord) (s s' : RecoverState) : Prop where
  mem : SameShape s.mem s'.mem
  disk : s'.disk = s.disk ∨ ∃ r ∈ log, ∃ writes, s'.disk = s.diskAfter s'.mem r writes
  flags : ∀ key, (∀ r ∈ log, ¬ r.On key) → s.rolledBack key = false → s'.rolledBack key = false
  flagsOnDisk : s'.rolledBackOnDisk = s.rolledBackOnDisk

theorem Inv.moves (h : Inv log fuel disk dbr s) (hmoves : Moves log s s') {n : Nat}
    (hprogress : Progress log fuel disk dbr s' n) : Inv log fuel disk dbr s' := by
  have hmem : SameShape s.disk s'.mem := h.diskShape.symm.trans (h.memShape.trans hmoves.mem)
  refine ⟨?_, h.memShape.trans hmoves.mem, fun key hkey page hpage => ?_,
    fun key hkey => hmoves.flags key hkey (h.flags key hkey),
    fun key hkey => hmoves.flagsOnDisk ▸ h.flagsOnDisk key hkey, fun tab htab => ?_, n, hprogress⟩
  · rcases hmoves.disk with hsame | ⟨r, -, writes, hdisk⟩
    · rw [hsame]
      exact h.diskShape
    · rw [hdisk]
      exact h.diskShape.trans (diskAfter_shape hmem r writes)
  · have hold : s.disk.page key = some page := by
      rcases hmoves.disk with hsame | ⟨r, -, writes, hdisk⟩
      · rw [← hsame]
        exact hpage
      · rw [← hpage, hdisk, diskAfter_page]
    exact h.diskPages key (hmoves.flagsOnDisk ▸ hkey) page hold
  · rcases hmoves.disk with hsame | ⟨r, hr, writes, hdisk⟩
    · rw [hsame]
      exact h.heads tab htab
    · rw [hdisk, diskAfter_head (htab r hr)]
      exact h.heads tab htab

/-- A round of `redo`. -/
theorem redoRound_progress {left : Nat} {lsn : Lsn} {start : Db} {pre : List LogRecord}
    (range : ∀ l, lsn ≤ l → l < lsn + (left + 1 : Nat) → ∃ r, recordAt log l = some r ∧ r.lsn = l)
    (reads : redoReads log = pre ++ logFrom log (left + 1) lsn)
    (restorable : Restorable log (undone fuel log) disk start)
    (mem : redoAll (analyze log).dpt pre start = some s.mem)
    (fresh : ∀ key, s.rolledBack key = false)
    (hredo : redoAll (analyze log).dpt (redoReads log) disk = some dbr) :
    ∃ s', s.redoRound log left lsn = some s' ∧ Moves log s s' ∧
      Progress log fuel disk dbr s' (left + fuel + 2) := by
  obtain ⟨r, hr, rfl⟩ := range lsn le_rfl (by lia)
  have hreads : redoReads log = (pre ++ [r]) ++ logFrom log left (r.lsn + 1) := by
    rw [reads, logFrom, hr, Option.toList_some, List.append_assoc]
  have hround : ∃ next, redoRecord (analyze log).dpt r.lsn r s.mem = some next := by
    obtain ⟨last, hlast⟩ := Option.isSome_iff_exists.mp (redoAll_isSome hredo restorable.shape)
    rw [hreads, redoAll_append, redoAll_append, mem, Option.bind_some, redoAll_cons] at hlast
    obtain ⟨mid, hmid, -⟩ := Option.bind_eq_some_iff.mp hlast
    obtain ⟨next, hnext, -⟩ := Option.bind_eq_some_iff.mp hmid
    exact ⟨next, hnext⟩
  obtain ⟨next, hnext⟩ := hround
  refine ⟨_, by rw [redoRound, hr, Option.bind_some, hnext, Option.map_some], ?_, ?_⟩
  · exact ⟨redoRecord_shape hnext, Or.inr ⟨r, mem_of_recordAt hr, _, rfl⟩, fun _ _ h => h, rfl⟩
  · refine .redo left (r.lsn + 1) start (pre ++ [r]) rfl ?_ hreads restorable ?_ fresh
    · intro l hl hlt
      exact range l (by lia) (by push_cast; lia)
    · rw [redoAll_append, mem, Option.bind_some, redoAll_cons, hnext]
      rfl

/-- A round of `undo` that rolls back a record. -/
theorem Undone.roll {r : LogRecord} (h : Undone log fuel dbr (r :: rest) s)
    (hundo : undoAll (undone fuel log) dbr = some db) :
    ∃ next, undoRecord s.mem r = some next ∧
      ∀ s' : RecoverState, s'.mem = next →
        (s'.rolledBack = fun key => s.rolledBack key || (r.body.isInsert && decide (r.On key))) →
        Undone log fuel dbr rest s' := by
  obtain ⟨past, mid, hsplit, hmid, hoff, hins⟩ := h
  have hround : ∃ mid', undoRecord mid r = some mid' := by
    rw [hsplit, undoAll_append, hmid, Option.bind_some, undoAll_cons] at hundo
    obtain ⟨mid', hmid', -⟩ := Option.bind_eq_some_iff.mp hundo
    exact ⟨mid', hmid'⟩
  obtain ⟨mid', hmid'⟩ := hround
  obtain ⟨next, hnext, hoff'⟩ := hoff.step hmid'
  refine ⟨next, hnext, fun s' hmem hflags => ⟨past ++ [r], mid', ?_, ?_, hmem ▸ hoff', ?_⟩⟩
  · rw [hsplit, List.append_assoc, List.singleton_append]
  · rw [undoAll_append, hmid, Option.bind_some, undoAll_cons, hmid']
    rfl
  · intro key hkey q hq hon
    rw [hflags, Bool.or_eq_false_iff] at hkey
    rcases List.mem_append.mp hq with hq | hq
    · exact hins key hkey.1 q hq hon
    · cases List.mem_singleton.mp hq
      have hnot := hkey.2
      simpa [hon] using hnot

/-- A round of `undo`. -/
theorem undoRound_progress {queue : List Lsn} {left : Nat} (hphase : s.phase = .undo queue)
    (hqueue : undoneLoop log left queue = some rest) (h : Undone log fuel dbr rest s)
    (hundo : undoAll (undone fuel log) dbr = some db) :
    ∃ s', s.undoRound log queue = some s' ∧ Moves log s s' ∧
      ∃ n ≤ left, Progress log fuel disk dbr s' n := by
  have hsame : ∀ phase, Moves log s { s with phase := phase } :=
    fun phase => ⟨SameShape.refl _, Or.inl rfl, fun _ _ h => h, rfl⟩
  have hlast : rest = [] → ∃ n ≤ left, Progress log fuel disk dbr { s with phase := .done } n := by
    rintro rfl
    exact ⟨0, Nat.zero_le left, .done rfl h⟩
  unfold undoRound
  cases left with
  | zero =>
    unfold undoneLoop at hqueue
    split at hqueue
    next hempty =>
      subst hempty
      exact ⟨_, rfl, hsame _, hlast (Option.some.inj hqueue).symm⟩
    next => cases hqueue
  | succ left =>
    unfold undoneLoop at hqueue
    cases hmax : queue.max? with
    | none =>
      rw [hmax] at hqueue
      exact ⟨_, rfl, hsame _, hlast (Option.some.inj hqueue).symm⟩
    | some lsn =>
      rw [hmax] at hqueue
      simp only at hqueue ⊢
      split at hqueue
      next hstop =>
        rw [if_pos hstop]
        exact ⟨_, rfl, hsame _, hlast (Option.some.inj hqueue).symm⟩
      next hgo =>
        rw [if_neg hgo]
        obtain ⟨r, hr, hqueue⟩ := Option.bind_eq_some_iff.mp hqueue
        rw [hr, Option.bind_some]
        -- A data record is the next of `rest`, whatever its kind.
        have data : (undoneLoop log left (r.prevLsn :: queue.erase lsn)).map (r :: ·) = some rest →
            ∃ s', ((undoRecord s.mem r).map fun mem =>
              { s with
                mem := mem
                disk := s.diskAfter mem r r.body.undoWritesHeader
                phase := .undo (r.prevLsn :: queue.erase lsn)
                rolledBack := fun key =>
                  s.rolledBack key || (r.body.isInsert && decide (r.On key)) }) = some s' ∧
              Moves log s s' ∧ ∃ n ≤ left + 1, Progress log fuel disk dbr s' n := by
          intro hmap
          obtain ⟨rest', hrest', rfl⟩ := Option.map_eq_some_iff.mp hmap
          obtain ⟨next, hnext, hundone⟩ := h.roll hundo
          simp only [hnext, Option.map_some]
          exact ⟨_, rfl, ⟨undoRecord_shape hnext, Or.inr ⟨r, mem_of_recordAt hr, _, rfl⟩,
            fun key hkey hold => by simp [hold, hkey r (mem_of_recordAt hr)], rfl⟩,
            left + 1, le_rfl, .undo _ left rest' rfl hrest' (hundone _ rfl rfl)⟩
        -- The other records leave the state.
        have other : undoneLoop log left queue = some rest →
            Moves log s s ∧ ∃ n ≤ left + 1, Progress log fuel disk dbr s n := fun hrest =>
          ⟨⟨SameShape.refl _, Or.inl rfl, fun _ _ h => h, rfl⟩, left + 1, le_rfl,
            .undo queue left rest hphase hrest h⟩
        cases hb : r.body with
        | insert _ _ | delete _ _ | update _ _ _ =>
          rw [hb] at hqueue data
          exact data hqueue
        | begin =>
          rw [hb] at hqueue
          exact ⟨_, rfl, hsame _, left + 1, le_rfl, .undo _ left rest rfl hqueue h⟩
        | commit =>
          rw [hb] at hqueue
          exact ⟨s, rfl, other hqueue⟩
        | abort =>
          rw [hb] at hqueue
          exact ⟨s, rfl, other hqueue⟩
        | checkpoint =>
          rw [hb] at hqueue
          exact ⟨s, rfl, other hqueue⟩

section Runs

variable (hdense : DenseLog log)
  (hredo : redoAll (analyze log).dpt (redoReads log) disk = some dbr)
  (hqueue : undoneLoop log fuel ((analyze log).att.map Prod.snd) = some (undone fuel log))
  (hundo : undoAll (undone fuel log) dbr = some db)

include hdense hredo hqueue hundo

/-- A server that is not through can take its next round. -/
theorem Progress.round {n : Nat} (h : Progress log fuel disk dbr s (n + 1)) :
    ∃ s', step log s .round = some s' ∧ Moves log s s' ∧
      ∃ m ≤ n, Progress log fuel disk dbr s' m := by
  generalize hn : n + 1 = k at h
  cases h with
  | redo left lsn start pre phase range reads restorable mem fresh =>
    cases left with
    | zero =>
      have hlast : redoAll (analyze log).dpt (redoReads log) start = some s.mem := by
        rw [reads, logFrom, List.append_nil]
        exact mem
      have hoff := restorable.redo hredo (redoReads_sorted hdense) hlast
      refine ⟨{ s with phase := .undo ((analyze log).att.map Prod.snd) }, by simp [step, phase],
        ⟨SameShape.refl _, Or.inl rfl, fun _ _ h => h, rfl⟩, fuel + 1, by omega, ?_⟩
      exact .undo _ fuel _ rfl hqueue ⟨[], dbr, rfl, rfl, hoff, by simp⟩
    | succ left =>
      obtain ⟨s', hs', hmoves, hprogress⟩ :=
        redoRound_progress range reads restorable mem fresh hredo
      exact ⟨s', by simp [step, phase, hs'], hmoves, _, by omega, hprogress⟩
  | undo queue left rest phase queued undone =>
    obtain ⟨s', hs', hmoves, m, hm, hprogress⟩ :=
      undoRound_progress phase queued undone hundo
    exact ⟨s', by simp [step, phase, hs'], hmoves, m, by omega, hprogress⟩
  | done phase undone => omega

omit hundo in
theorem Inv.start (h : Restorable log (undone fuel log) disk s.mem)
    (hdisk : SameShape disk s.disk)
    (hpages : ∀ key page, s.disk.page key = some page →
      Restores log (undone fuel log) disk key page)
    (hheads : ∀ tab, (∀ r ∈ log, r.body.place.map LogPlace.tableName ≠ some tab) →
      s.disk.head tab = disk.head tab)
    (hphase : s.phase = firstPhase log) (hfresh : ∀ key, s.rolledBack key = false)
    (hfresh' : ∀ key, s.rolledBackOnDisk key = false) : Inv log fuel disk dbr s :=
  ⟨hdisk, h.shape, fun key _ page hp => hpages key page hp, fun key _ => hfresh key,
    fun key _ => hfresh' key, hheads, Progress.first hdense hredo h hqueue hphase hfresh⟩

/-- What a step of a recovery keeps. -/
theorem Inv.step {e : RecoverEv} (h : Inv log fuel disk dbr s) (hgood : Harmless log disk s e)
    (hs : s.step log e = some s') : Inv log fuel disk dbr s' := by
  obtain ⟨n, hprogress⟩ := h.progress
  cases e with
  | round =>
    cases n with
    | zero =>
      cases hprogress with
      | done phase undone => simp [RecoverState.step, phase] at hs
    | succ n =>
      obtain ⟨s₁, hs₁, hmoves, m, -, hprogress'⟩ :=
        Progress.round hdense hredo hqueue hundo hprogress
      cases Option.some.inj (hs.symm.trans hs₁)
      exact h.moves hmoves hprogress'
  | writePage key =>
    obtain ⟨page, hpage, rfl⟩ := Option.map_eq_some_iff.mp hs
    have hthere : (s.disk.page key).isSome = true := by
      rw [← h.diskShape.pages, h.memShape.pages, hpage]
      rfl
    refine ⟨h.diskShape.trans (Db.writePage_shape hthere), h.memShape, ?_, h.flags, ?_, ?_, n, ?_⟩
    · intro k hk page' hp'
      simp only [Db.writePage_page hthere] at hp'
      by_cases hkey : k = key
      · subst hkey
        rw [if_pos rfl, Option.some.injEq] at hp'
        subst hp'
        exact hprogress.restores hredo hpage (by simpa using hk)
      · rw [if_neg hkey] at hp'
        exact h.diskPages k (by simpa [hkey] using hk) page' hp'
    · intro k hk
      by_cases hkey : k = key
      · subst hkey
        simpa using h.flags k hk
      · simpa [hkey] using h.flagsOnDisk k hk
    · intro tab htab
      simp only [Db.writePage_head]
      exact h.heads tab htab
    · cases hprogress with
      | redo left lsn start pre phase range reads restorable mem fresh =>
        exact .redo left lsn start pre phase range reads restorable mem fresh
      | undo queue left rest phase queued undone =>
        exact .undo queue left rest phase queued undone
      | done phase undone => exact .done phase undone
  | crash =>
    cases Option.some.inj hs
    have hflags : ∀ key, s.rolledBackOnDisk key = false := by
      intro key
      by_cases hnamed : ∃ r ∈ log, r.On key
      · obtain ⟨r, hr, hon⟩ := hnamed
        obtain ⟨place, hplace, rfl⟩ := hon.exists_place
        exact (hgood r hr place hplace).1
      · exact h.flagsOnDisk key fun r hr hon => hnamed ⟨r, hr, hon⟩
    have hheads : ∀ tab, s.disk.headAfter (analyze log).dpt (redoReads log) tab =
        disk.headAfter (analyze log).dpt (redoReads log) tab := by
      intro tab
      by_cases hnamed : ∃ r ∈ log, r.body.place.map LogPlace.tableName = some tab
      · obtain ⟨r, hr, htab⟩ := hnamed
        obtain ⟨place, hplace, rfl⟩ := Option.map_eq_some_iff.mp htab
        exact (hgood r hr place hplace).2
      · have hnone : ∀ r ∈ log, r.body.place.map LogPlace.tableName ≠ some tab :=
          fun r hr htab => hnamed ⟨r, hr, htab⟩
        rw [headAfter_of_unnamed hnone, headAfter_of_unnamed hnone, h.heads tab hnone]
    have hpages : ∀ key page, s.disk.page key = some page →
        Restores log (undone fuel log) disk key page :=
      fun key page hp => h.diskPages key (hflags key) page hp
    have hrest : Restorable log (undone fuel log) disk s.disk := ⟨h.diskShape, hpages, hheads⟩
    exact Inv.start hdense hredo hqueue hrest.opened h.diskShape hpages h.heads rfl hflags hflags
  | again =>
    simp only [RecoverState.step] at hs
    split at hs
    next hdone =>
      cases Option.some.inj hs
      cases hprogress with
      | redo _ _ _ _ phase => simp [phase] at hdone
      | undo _ _ _ phase => simp [phase] at hdone
      | done phase undone =>
        obtain ⟨past, mid, hsplit, hmid, hoff, hins⟩ := undone
        rw [List.append_nil] at hsplit
        subst hsplit
        have hfresh : ∀ key, s.rolledBack key = false := by
          intro key
          by_cases hnamed : ∃ r ∈ log, r.On key
          · obtain ⟨r, hr, hon⟩ := hnamed
            obtain ⟨place, hplace, rfl⟩ := hon.exists_place
            exact hgood r hr place hplace
          · exact h.flags key fun r hr hon => hnamed ⟨r, hr, hon⟩
        have hnone : ∀ r ∈ undone fuel log, r.body.isInsert = false := by
          intro r hr
          cases hplace : r.body.place with
          | none => cases hb : r.body <;> simp_all [LogBody.place, LogBody.isInsert]
          | some place => exact hins place.pageKey (hfresh _) r hr (LogRecord.on_place hplace)
        have hfar := (OffBy.of_undoAll hnone hmid).trans (hoff.mono (List.nil_subset _))
        have hrest := Restorable.of_offBy hredo (redoReads_sorted hdense) hfar
        exact ⟨h.diskShape, h.memShape, h.diskPages, h.flags, h.flagsOnDisk, h.heads,
          Progress.first hdense hredo hrest hqueue rfl hfresh⟩
    next => cases hs

/-- The rounds alone bring a recovery to its end. -/
theorem Inv.finish (h : Inv log fuel disk dbr s) : ∃ n s',
    run (RecoverState.step log) s (List.replicate n .round) = some s' ∧ s'.phase = .done ∧
      SameTables s'.mem db := by
  obtain ⟨n, hprogress⟩ := h.progress
  induction n using Nat.strong_induction_on generalizing s with
  | _ n ih =>
    cases n with
    | zero =>
      cases hprogress with
      | done phase undone =>
        obtain ⟨past, mid, hsplit, hmid, hoff, -⟩ := undone
        rw [List.append_nil] at hsplit
        subst hsplit
        cases Option.some.inj (hmid.symm.trans hundo)
        exact ⟨0, s, rfl, phase, hoff.sameTables⟩
    | succ n =>
      obtain ⟨mid, hmid, hmoves, m, hm, hnext⟩ :=
        Progress.round hdense hredo hqueue hundo hprogress
      obtain ⟨k, s', hrun, hdone, hsame⟩ := ih m (by omega) (h.moves hmoves hnext) hnext
      exact ⟨k + 1, s', run_cons_eq_some.mpr ⟨mid, hmid, hrun⟩, hdone, hsame⟩

end Runs

end Survive

section Samples

/-- A process logs the records, flushes them and crashes. -/
def loggedThen (records : List (TxnId × Lsn × LogBody)) : List LsnEv :=
  [.openDb 0, .serve] ++ records.map (fun r => .append (some r.1) r.2.1 r.2.2) ++
    [.flushLog, .crash]

/-- Table `t` with 512 byte records, seven to a page, and two pages of zeros. -/
def sampleDisk : Db := fun tab =>
  if tab = "t" then
    some ⟨512, 3, 2, 3, fun p => if p = 1 ∨ p = 2 then some (RmPage.zero 512) else none⟩
  else none

/-- One row is committed; another transaction has changed it and inserted one into page 2. -/
def twoTransactions : List (TxnId × Lsn × LogBody) :=
  [(0, -1, .begin), (0, 0, .insert [7] ⟨⟨1, 0⟩, "t", 2, 3⟩), (0, 1, .commit), (1, -1, .begin),
    (1, 3, .update [7] [8] ⟨⟨1, 0⟩, "t", 2, 3⟩), (1, 4, .insert [9] ⟨⟨2, 0⟩, "t", 2, 3⟩)]

/-- A crash in the middle of `redo`, and one in `undo` when the rolled back update is on disk and
the rolled back insert is not. -/
def twoCrashes : List RecoverEv :=
  List.replicate 3 .round ++ [.writePage ("t", 1), .crash] ++ List.replicate 6 .round ++
    [.writePage ("t", 2), .round, .round, .writePage ("t", 1), .crash] ++ List.replicate 4 .round

/-- Seven rows fill page 1 and the eighth opens page 2. -/
def eightRows : List (TxnId × Lsn × LogBody) :=
  [(0, -1, .begin), (0, 0, .insert [1] ⟨⟨1, 0⟩, "t", 1, 2⟩), (0, 1, .insert [2] ⟨⟨1, 1⟩, "t", 1, 2⟩),
    (0, 2, .insert [3] ⟨⟨1, 2⟩, "t", 1, 2⟩), (0, 3, .insert [4] ⟨⟨1, 3⟩, "t", 1, 2⟩),
    (0, 4, .insert [5] ⟨⟨1, 4⟩, "t", 1, 2⟩), (0, 5, .insert [6] ⟨⟨1, 5⟩, "t", 1, 2⟩),
    (0, 6, .insert [7] ⟨⟨1, 6⟩, "t", -1, 2⟩), (0, 7, .insert [8] ⟨⟨2, 0⟩, "t", 2, 3⟩),
    (0, 8, .commit)]

/-- The recovery ends in other tables than one undisturbed recovery. -/
def EndsElsewhere (records : List (TxnId × Lsn × LogBody)) (es : List RecoverEv) : Prop :=
  ∃ l db s, run LsnState.step LsnState.created (loggedThen records) = some l ∧
    recover 9 l.log.file sampleDisk.opened = some db ∧
    run (step l.log.file) (started l.log.file sampleDisk fun _ => false) es = some s ∧
    s.phase = .done ∧ ¬ SameTables s.mem db

/-- What `view` shows of the tables tells the two ends apart. -/
theorem endsElsewhere_of_view {α : Type} [DecidableEq α] {view : Db → α}
    (hview : ∀ db db', SameTables db db' → view db = view db')
    {records : List (TxnId × Lsn × LogBody)} {es : List RecoverEv}
    (h : (run LsnState.step LsnState.created (loggedThen records)).any (fun l =>
      (recover 9 l.log.file sampleDisk.opened).any fun db =>
        (run (step l.log.file) (started l.log.file sampleDisk fun _ => false) es).any fun s =>
          decide (s.phase = .done ∧ view s.mem ≠ view db)) = true) : EndsElsewhere records es := by
  obtain ⟨l, hl, h⟩ := (Option.any_eq_true _ _).mp h
  obtain ⟨db, hdb, h⟩ := (Option.any_eq_true _ _).mp h
  obtain ⟨s, hs, h⟩ := (Option.any_eq_true _ _).mp h
  obtain ⟨hdone, hne⟩ := of_decide_eq_true h
  exact ⟨l, db, s, hl, hdb, hs, hdone, fun hsame => hne (hview _ _ hsame)⟩

end Samples

end RecoverState

end Grmdb
