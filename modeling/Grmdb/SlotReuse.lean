import Grmdb.LockKept
import Grmdb.RecordReinsert
import Grmdb.UndoLog

namespace Grmdb

open UndoLog Runs

/-- A table with indexes: its file, its indexes and the key that each makes of a record. -/
structure SlotTable (κ : Type) where
  fd : Fd
  indexes : List IndexId
  keyOf : IndexId → Bytes → κ

/-- What a transaction does next: the calls that are left of `InsertExecutor::Next` or
`DeleteExecutor::Next`, or of a rollback. -/
inductive Task where
  | idle
  | insertRow (rec : Bytes)
  | insertKeys (rid : Rid) (rec : Bytes) (todo : List IndexId)
  | insertEntry (rid : Rid) (rec : Bytes) (index : IndexId) (todo : List IndexId)
  | dropRow (rid : Rid)
  | deleteRows (cond : Bytes → Bool) (rids : List Rid)
  | readRow (cond : Bytes → Bool) (rid : Rid) (rids : List Rid)
  | deleteRow (cond : Bytes → Bool) (rid : Rid) (old : Bytes) (rids : List Rid)
  | deleteKeys (cond : Bytes → Bool) (rid : Rid) (old : Bytes) (todo : List IndexId)
    (rids : List Rid)
  | deleteEntry (cond : Bytes → Bool) (rid : Rid) (old : Bytes) (index : IndexId)
    (todo : List IndexId) (rids : List Rid)
  | undoKeys (write : Write Rid Bytes) (todo : List IndexId)

def Task.isIdle : Task → Bool
  | .idle => true
  | _ => false

/-- The rid of an insert that has its slot and has not returned. -/
def Task.inserting : Task → Option Rid
  | .insertKeys rid _ _ | .insertEntry rid _ _ _ | .dropRow rid => some rid
  | _ => none

/-- The rid that `DeleteExecutor::Next` has asked for and has not deleted. -/
def Task.reading : Task → Option Rid
  | .readRow _ rid _ | .deleteRow _ rid _ _ => some rid
  | _ => none

/-- A record file with the lock manager, the indexes as maps and, for each transaction, its next
call and its write set, back first. `committed` is what the transactions that have committed
left; no operation reads it. -/
structure SlotState (κ : Type) where
  locks : LockState κ
  file : RmFile
  entries : IndexId → κ → Option Rid
  task : TxnId → Task
  writes : TxnId → List (Write Rid Bytes)
  committed : Rid → Option Bytes

inductive SlotEv (κ : Type) where
  | scan (e : LockEv κ)
  | insert (t : TxnId) (rec : Bytes)
  | delete (t : TxnId) (cond : Bytes → Bool) (rids : List Rid)
  | next (t : TxnId) (lsn : Lsn)
  | wake (t : TxnId)
  | commit (t : TxnId)
  | abort (t : TxnId)
  | calculateGaps (t : TxnId) (fd : Fd) (bounds : Nat → Nat → κ × κ)
  | unlock (t : TxnId) (id : LockDataId)

/-- The transaction of a lock call that scans make. -/
def LockEv.scanner {κ : Type} : LockEv κ → Option TxnId
  | .lockSharedOnRecord t _ _ | .lockISOnTable t _ | .lockGAPOnTable t _ _ _ _ => some t
  | _ => none

theorem LockEv.scanner_eq {κ : Type} {e : LockEv κ} {t u : TxnId} {fd : Fd} {rid : Rid}
    (ht : e.scanner = some t) (hu : e.recordCall = some (u, fd, rid)) : u = t := by
  cases e <;> simp_all [scanner, recordCall]

theorem Task.reading_of_isIdle {task : Task} (h : task.isIdle = true) : task.reading = none := by
  cases task <;> first | rfl | cases h

/-- The record file call by which `abort` takes a write back. -/
def RmFile.undoWrite (f : RmFile) : Write Rid Bytes → Option RmFile
  | .insert rid _ => f.deleteRecord rid none
  | .delete rid old => f.insertRecordAt rid old

namespace SlotState

variable {κ : Type}

def start (recordSize : Nat) : SlotState κ :=
  ⟨.fresh, RmFile.create recordSize, fun _ _ => none, fun _ => .idle, fun _ => [], fun _ => none⟩

def setTask (s : SlotState κ) (t : TxnId) (task : Task) : SlotState κ :=
  { s with task := Function.update s.task t task }

def setWrites (s : SlotState κ) (t : TxnId) (ws : List (Write Rid Bytes)) : SlotState κ :=
  { s with writes := Function.update s.writes t ws }

variable [LinearOrder κ]

def setEntry (s : SlotState κ) (i : IndexId) (key : κ) (value : Option Rid) : SlotState κ :=
  { s with entries := Function.update s.entries i (Function.update (s.entries i) key value) }

def lockCall (s : SlotState κ) (e : LockEv κ) : Option (SlotState κ) :=
  (s.locks.step e).map fun locks => { s with locks := locks }

/-- The next call of a transaction that runs. -/
def forward (T : SlotTable κ) (s : SlotState κ) (t : TxnId) (lsn : Lsn) :
    Task → Option (SlotState κ)
  | .idle => none
  | .insertRow rec =>
    (s.file.insertRecord rec (some lsn)).map fun r =>
      (({ s with file := r.1 }.setWrites t (.insert r.2 rec :: s.writes t)).setTask t
        (.insertKeys r.2 rec T.indexes))
  | .insertKeys _ _ [] => some (s.setTask t .idle)
  | .insertKeys rid rec (i :: todo) =>
    (s.lockCall (.lockExclusiveOnRecordGap t T.fd rid i (T.keyOf i rec))).map fun s =>
      s.setTask t (.insertEntry rid rec i todo)
  | .insertEntry rid rec i todo =>
    match s.entries i (T.keyOf i rec) with
    | none => some ((s.setEntry i (T.keyOf i rec) (some rid)).setTask t (.insertKeys rid rec todo))
    | some _ => some (s.setTask t (.dropRow rid))
  | .dropRow rid =>
    (s.file.deleteRecord rid (some lsn)).bind fun file =>
      ((({ s with file := file }.setWrites t (s.writes t).tail).setTask t .idle).lockCall
        (.finish t))
  | .deleteRows _ [] => some (s.setTask t .idle)
  | .deleteRows cond (rid :: rids) =>
    (s.lockCall (.lockSharedOnRecord t T.fd rid)).map fun s => s.setTask t (.readRow cond rid rids)
  | .readRow cond rid rids =>
    (s.file.getRecord rid).map fun old => s.setTask t (.deleteRow cond rid old rids)
  | .deleteRow cond rid old rids =>
    if cond old then
      (s.file.deleteRecord rid (some lsn)).map fun file =>
        (({ s with file := file }.setWrites t (.delete rid old :: s.writes t)).setTask t
          (.deleteKeys cond rid old T.indexes rids))
    else some (s.setTask t (.deleteKeys cond rid old T.indexes rids))
  | .deleteKeys cond _ _ [] rids => some (s.setTask t (.deleteRows cond rids))
  | .deleteKeys cond rid old (i :: todo) rids =>
    (s.lockCall (.lockExclusiveOnRecordGap t T.fd rid i (T.keyOf i old))).map fun s =>
      s.setTask t (.deleteEntry cond rid old i todo rids)
  | .deleteEntry cond rid old i todo rids =>
    some ((s.setEntry i (T.keyOf i old) none).setTask t (.deleteKeys cond rid old todo rids))
  | .undoKeys _ _ => none

/-- The index call of `abort` for a write that it has taken back in the file. -/
def undoEntry (T : SlotTable κ) (s : SlotState κ) (i : IndexId) : Write Rid Bytes → SlotState κ
  | .insert _ rec => s.setEntry i (T.keyOf i rec) none
  | .delete rid old =>
    match s.entries i (T.keyOf i old) with
    | none => s.setEntry i (T.keyOf i old) (some rid)
    | some _ => s

/-- The next call of `abort`. -/
def backward (T : SlotTable κ) (s : SlotState κ) (t : TxnId) : Task → Option (SlotState κ)
  | .undoKeys w (i :: todo) => some ((s.undoEntry T i w).setTask t (.undoKeys w todo))
  | _ =>
    match s.writes t with
    | [] => none
    | w :: ws =>
      (s.file.undoWrite w).map fun file =>
        ({ s with file := file }.setWrites t ws).setTask t (.undoKeys w T.indexes)

/-- The rollback has come to its end. -/
def undone (s : SlotState κ) (t : TxnId) : Bool :=
  (s.writes t).isEmpty &&
    match s.task t with
    | .undoKeys _ (_ :: _) => false
    | _ => true

/-- Statements, commits and rollbacks start between two statements; `next` is the next call of
the one that is under way. When a rollback has undone the keys of a write, it calculates the gaps
of the locked tables again. -/
def step (T : SlotTable κ) (s : SlotState κ) : SlotEv κ → Option (SlotState κ)
  | .scan e => e.scanner.bind fun t => if (s.task t).isIdle then s.lockCall e else none
  | .insert t rec =>
    if (s.task t).isIdle then
      (s.lockCall (.lockIXOnTable t T.fd)).map fun s => s.setTask t (.insertRow rec)
    else none
  | .delete t cond rids =>
    if (s.task t).isIdle then
      (s.lockCall (.lockIXOnTable t T.fd)).map fun s => s.setTask t (.deleteRows cond rids)
    else none
  | .next t lsn =>
    match s.locks.phase t with
    | .running => s.forward T t lsn (s.task t)
    | .finishing => s.backward T t (s.task t)
    | .waiting _ => none
  | .wake t => s.lockCall (.wake t)
  | .commit t =>
    if (s.task t).isIdle then
      (s.lockCall (.finish t)).map fun s =>
        { s with committed := UndoLog.commit s.committed (s.writes t) }.setWrites t []
    else none
  | .abort t => if (s.task t).isIdle then s.lockCall (.finish t) else none
  | .calculateGaps t fd bounds =>
    match s.task t with
    | .undoKeys _ [] =>
      if .table fd ∈ s.locks.lockSet t then
        (s.locks.locks (.table fd)).map fun q =>
          { s with locks := s.locks.put (.table fd) (q.calculateGaps bounds) }
      else none
    | _ => none
  | .unlock t id => if s.undone t then s.lockCall (.unlock t id) else none

/-- The lock call of an event, if it makes one. -/
def lockEv (T : SlotTable κ) (s : SlotState κ) : SlotEv κ → Option (LockEv κ)
  | .scan e => some e
  | .insert t _ | .delete t _ _ => some (.lockIXOnTable t T.fd)
  | .next t _ =>
    match s.locks.phase t, s.task t with
    | .running, .insertKeys rid rec (i :: _) =>
      some (.lockExclusiveOnRecordGap t T.fd rid i (T.keyOf i rec))
    | .running, .dropRow _ => some (.finish t)
    | .running, .deleteRows _ (rid :: _) => some (.lockSharedOnRecord t T.fd rid)
    | .running, .deleteKeys _ rid old (i :: _) _ =>
      some (.lockExclusiveOnRecordGap t T.fd rid i (T.keyOf i old))
    | _, _ => none
  | .wake t => some (.wake t)
  | .commit t | .abort t => some (.finish t)
  | .calculateGaps _ _ _ => none
  | .unlock t id => some (.unlock t id)

/-- The transaction that calls `insert_record` for an INSERT in the step. -/
def inserter (s : SlotState κ) : SlotEv κ → Option TxnId
  | .next t _ =>
    match s.locks.phase t, s.task t with
    | .running, .insertRow _ => some t
    | _, _ => none
  | _ => none

/-- The transaction that calls `delete_record` for a DELETE in the step, with the rid and the row as
it has read it. -/
def deleter (s : SlotState κ) : SlotEv κ → Option (TxnId × Rid × Bytes)
  | .next t _ =>
    match s.locks.phase t, s.task t with
    | .running, .deleteRow cond rid old _ => if cond old then some (t, rid, old) else none
    | _, _ => none
  | _ => none

/-- The calls that a statement makes before it has the record lock go to slots that no lock of
another transaction is about, and no call takes the lock of a deleted row away. -/
structure SlotsApart (T : SlotTable κ) (s : SlotState κ) (e : SlotEv κ) : Prop where
  /-- The first clear bit of the page at the head of the free list is a free slot, for which no
  other transaction has a request. -/
  insert : ∀ t page, s.inserter e = some t → s.file.pages s.file.firstFreePageNo = some page →
    page.bitmap (firstBit false page.bitmap s.file.perPage) = false ∧
      ∀ r ∈ (s.locks.queue (.record T.fd ⟨s.file.firstFreePageNo,
        firstBit false page.bitmap s.file.perPage⟩)).requestQueue, r.txnId = t
  /-- A row is still as the statement read it, and no other open transaction has inserted it. -/
  delete : ∀ t rid old, s.deleter e = some (t, rid, old) →
    s.file.record rid = some old ∧ ∀ u, u ≠ t → .insert rid old ∉ s.writes u
  /-- `wait_die` does not take the request for a row from the transaction that has deleted it. -/
  spares : ∀ call t rid old, s.lockEv T e = some call → call.recordCall = some (t, T.fd, rid) →
    .delete rid old ∈ s.writes t → (s.locks.queue (.record T.fd rid)).Spares t

/-- What is to hold while transactions run side by side. -/
structure SlotsSafe (s : SlotState κ) : Prop where
  /-- No insert returns with the rid of a row that another open transaction has deleted. -/
  returns : ∀ t u rid rec old, s.task t = .insertKeys rid rec [] → u ≠ t →
    .delete rid old ∉ s.writes u
  /-- A rollback finds each of its writes as it left it, and takes it back. -/
  restores : ∀ t w ws, s.writes t = w :: ws → s.file.record w.slot = w.after ∧
    ∃ file, s.file.undoWrite w = some file ∧
      file.record = Function.update s.file.record w.slot w.before
  /-- The rows of an open transaction are as it left them last. -/
  latest : ∀ t rid v, lastWrite (s.writes t) rid = some v → s.file.record rid = v
  /-- All other rows are what the committed transactions left. -/
  kept : ∀ rid, (∀ t, ¬ Wrote (s.writes t) rid) → s.file.record rid = s.committed rid

end SlotState

namespace RmFile

variable {f f' : RmFile}

theorem undoWrite_puts {w : Write Rid Bytes} (hrun : f.undoWrite w = some f') :
    f.Puts f' w.slot w.before := by
  cases w with
  | insert rid rec => exact deleteRecord_puts hrun
  | delete rid old => exact insertRecordAt_puts hrun

/-- `insert_record` takes the first clear bit of the page at the head of the free list, or a slot of
a new page. -/
theorem insertRecord_slot {free : List PageNo} {buf : Bytes} {ctx : Option Lsn} {rid : Rid}
    (h : Chained f free) (hrun : f.insertRecord buf ctx = some (f', rid)) :
    (∃ page, f.pages f.firstFreePageNo = some page ∧
      rid = ⟨f.firstFreePageNo, firstBit false page.bitmap f.perPage⟩) ∨
    f.pages rid.pageNo = none := by
  obtain ⟨page, hp, he⟩ := Option.map_eq_some_iff.mp hrun
  obtain ⟨-, rfl⟩ := Prod.mk.inj he
  by_cases hne : f.firstFreePageNo = RM_NO_PAGE
  · right
    have hnew : f.createPageHandle.firstFreePageNo = f.fd2pageno := by
      simp [RmFile.createPageHandle, hne, RmFile.createNewPageHandle]
    rw [hnew]
    exact h.next_absent
  · left
    have hsame : f.createPageHandle = f := by simp [RmFile.createPageHandle, hne]
    rw [hsame] at hp ⊢
    exact ⟨page, hp, rfl⟩

end RmFile

namespace SlotState

variable {κ : Type} {s s' : SlotState κ} {t : TxnId}

/-- A step of locks, indexes and tasks, by which no insert gets a slot. -/
structure Quiet (s s' : SlotState κ) : Prop where
  file : s'.file = s.file
  writes : s'.writes = s.writes
  committed : s'.committed = s.committed
  task : ∀ t rid, (s'.task t).inserting = some rid → (s.task t).inserting = some rid

theorem Quiet.refl (s : SlotState κ) : Quiet s s := ⟨rfl, rfl, rfl, fun _ _ h => h⟩

theorem Quiet.trans {s'' : SlotState κ} (h : Quiet s s') (h' : Quiet s' s'') : Quiet s s'' :=
  ⟨h'.file.trans h.file, h'.writes.trans h.writes, h'.committed.trans h.committed,
    fun t rid hr => h.task t rid (h'.task t rid hr)⟩

theorem quiet_setTask {task : Task}
    (h : ∀ rid, task.inserting = some rid → (s.task t).inserting = some rid) :
    Quiet s (s.setTask t task) := by
  refine ⟨rfl, rfl, rfl, fun u rid hu => ?_⟩
  by_cases hut : u = t
  · subst hut
    exact h rid (by simpa [setTask] using hu)
  · simpa [setTask, hut] using hu

/-- The latest write of `t` is taken back in the file. -/
structure TakesBack (s s' : SlotState κ) (t : TxnId) (w : Write Rid Bytes)
    (ws : List (Write Rid Bytes)) : Prop where
  was : s.writes t = w :: ws
  writes : s'.writes = Function.update s.writes t ws
  committed : s'.committed = s.committed
  task : ∀ u rid, (s'.task u).inserting = some rid → u ≠ t ∧ (s.task u).inserting = some rid

/-- What a run in which slots are kept apart keeps. -/
structure Inv (s : SlotState κ) : Prop where
  file : ∃ free, s.file.Low free
  holds : Holds s.committed s.writes s.file.record
  paged : ∀ {t rid}, Wrote (s.writes t) rid → (s.file.pages rid.pageNo).isSome
  owns : ∀ {t rid}, (s.task t).inserting = some rid → ∃ rec ws, s.writes t = .insert rid rec :: ws

theorem inv_start {recordSize : Nat} (hsize : recordSize ≤ RM_MAX_RECORD_SIZE) :
    (start recordSize : SlotState κ).Inv := by
  refine ⟨⟨[], RmFile.low_create hsize⟩, ?_, fun h => absurd h not_wrote_nil, ?_⟩
  · have hnone : (RmFile.create recordSize).record = fun _ => none := rfl
    show Holds (fun _ => none) (fun _ => []) (RmFile.create recordSize).record
    rw [hnone]
    exact holds_start _
  · intro t rid h
    simp [start, Task.inserting] at h

theorem Inv.quiet (hi : s.Inv) (hq : Quiet s s') : s'.Inv := by
  refine ⟨hq.file ▸ hi.file, ?_, fun h => ?_, fun h => ?_⟩
  · rw [hq.committed, hq.writes, hq.file]
    exact hi.holds
  · rw [hq.file]
    exact hi.paged (hq.writes ▸ h)
  · rw [hq.writes]
    exact hi.owns (hq.task _ _ h)

/-- A statement of `t` writes a slot that no other open transaction has written. -/
theorem Inv.write (hi : s.Inv) {w : Write Rid Bytes} (hfile : ∃ free, s'.file.Low free)
    (hputs : s.file.Puts s'.file w.slot w.after) (hbefore : s.file.record w.slot = w.before)
    (alone : ∀ u, u ≠ t → ¬ Wrote (s.writes u) w.slot)
    (hwrites : s'.writes = Function.update s.writes t (w :: s.writes t))
    (hcommitted : s'.committed = s.committed)
    (htask : ∀ u rid, (s'.task u).inserting = some rid →
      u ≠ t ∧ (s.task u).inserting = some rid ∨ u = t ∧ ∃ rec, w = .insert rid rec) : s'.Inv := by
  refine ⟨hfile, ?_, fun {u rid} h => ?_, fun {u rid} h => ?_⟩
  · rw [hcommitted, hwrites, hputs.record]
    exact hi.holds.write hbefore alone
  · rw [hwrites] at h
    by_cases hu : u = t
    · subst hu
      rw [Function.update_self] at h
      rcases wrote_cons.mp h with rfl | h
      · exact hputs.there
      · exact hputs.pages _ (hi.paged h)
    · rw [Function.update_of_ne hu] at h
      exact hputs.pages _ (hi.paged h)
  · rcases htask u rid h with ⟨hu, hold⟩ | ⟨rfl, rec, rfl⟩
    · rw [hwrites, Function.update_of_ne hu]
      exact hi.owns hold
    · exact ⟨rec, s.writes u, by rw [hwrites, Function.update_self]⟩

/-- The latest write of `t` is taken back. -/
theorem Inv.takeBack (hi : s.Inv) {w : Write Rid Bytes} {ws : List (Write Rid Bytes)}
    (hfile : ∃ free, s'.file.Low free) (hputs : s.file.Puts s'.file w.slot w.before)
    (hback : TakesBack s s' t w ws) : s'.Inv := by
  refine ⟨hfile, ?_, fun {u rid} h => ?_, fun {u rid} h => ?_⟩
  · rw [hback.committed, hback.writes, hputs.record]
    exact hi.holds.undo hback.was
  · rw [hback.writes] at h
    refine hputs.pages _ (hi.paged (?_ : Wrote (s.writes u) rid))
    by_cases hu : u = t
    · subst hu
      rw [Function.update_self] at h
      rw [hback.was]
      exact wrote_cons.mpr (.inr h)
    · rwa [Function.update_of_ne hu] at h
  · obtain ⟨hu, hold⟩ := hback.task u rid h
    rw [hback.writes, Function.update_of_ne hu]
    exact hi.owns hold

theorem low_undoWrite {w : Write Rid Bytes} {f f' : RmFile} (h : ∃ free, f.Low free)
    (hafter : f.record w.slot = w.after) (hrun : f.undoWrite w = some f') :
    ∃ free, f'.Low free := by
  cases w with
  | insert rid rec =>
    have hrec : f.record rid = some rec := hafter
    exact RmFile.low_deleteRecord h (by simp [hrec]) hrun
  | delete rid old =>
    exact RmFile.low_insertRecordAt h hafter hrun

/-- The head of a write set is in the file as it was left. -/
theorem Inv.head (hi : s.Inv) {w : Write Rid Bytes} {ws : List (Write Rid Bytes)}
    (hw : s.writes t = w :: ws) : s.file.record w.slot = w.after := by
  have hown := hi.holds.undoable t
  rw [hw] at hown
  exact hown.1

theorem Inv.safe (hi : s.Inv) : s.SlotsSafe := by
  refine ⟨fun t u rid rec old htask hu hmem => ?_, fun t w ws hw => ?_, fun t rid v hv => ?_,
    fun rid hnone => hi.holds.untouched hnone⟩
  · obtain ⟨rec', ws, hw⟩ := hi.owns (show (s.task t).inserting = some rid by
      rw [htask]
      rfl)
    have hmine : Wrote (s.writes t) rid := by
      rw [hw]
      exact wrote_cons.mpr (.inl rfl)
    exact hi.holds.apart hu ⟨_, hmem, rfl⟩ hmine
  · have hmine : Wrote (s.writes t) w.slot := by
      rw [hw]
      exact wrote_cons.mpr (.inl rfl)
    obtain ⟨page, hp⟩ := Option.isSome_iff_exists.mp (hi.paged hmine)
    have hrun : ∃ file, s.file.undoWrite w = some file := by
      cases w with
      | insert rid rec => exact ⟨_, Option.map_eq_some_iff.mpr ⟨page, hp, rfl⟩⟩
      | delete rid old => exact ⟨_, Option.map_eq_some_iff.mpr ⟨page, hp, rfl⟩⟩
    obtain ⟨file, hfile⟩ := hrun
    exact ⟨hi.head hw, file, hfile, (RmFile.undoWrite_puts hfile).record⟩
  · exact hi.holds.last hv

variable [LinearOrder κ] {T : SlotTable κ}

theorem lockCall_eq {e : LockEv κ} (h : s.lockCall e = some s') :
    ∃ locks, s' = { s with locks := locks } := by
  obtain ⟨locks, -, rfl⟩ := Option.map_eq_some_iff.mp h
  exact ⟨locks, rfl⟩

theorem quiet_lockCall {e : LockEv κ} (h : s.lockCall e = some s') : Quiet s s' := by
  obtain ⟨locks, rfl⟩ := lockCall_eq h
  exact ⟨rfl, rfl, rfl, fun _ _ h => h⟩

theorem quiet_setEntry (i : IndexId) (key : κ) (v : Option Rid) : Quiet s (s.setEntry i key v) :=
  ⟨rfl, rfl, rfl, fun _ _ h => h⟩

theorem quiet_undoEntry (i : IndexId) (w : Write Rid Bytes) : Quiet s (s.undoEntry T i w) := by
  cases w with
  | insert rid rec => exact quiet_setEntry _ _ _
  | delete rid old =>
    simp only [undoEntry]
    split
    · exact quiet_setEntry _ _ _
    · exact Quiet.refl s

/-- What a step does to the file and the write sets. -/
inductive Effect (T : SlotTable κ) (s s' : SlotState κ) (e : SlotEv κ) : Prop where
  | quiet (h : Quiet s s')
  | insert (t : TxnId) (lsn : Lsn) (rec : Bytes) (rid : Rid) (he : e = .next t lsn)
    (hphase : s.locks.phase t = .running) (htask : s.task t = .insertRow rec)
    (hfile : s.file.insertRecord rec (some lsn) = some (s'.file, rid))
    (hwrites : s'.writes = Function.update s.writes t (.insert rid rec :: s.writes t))
    (hcommitted : s'.committed = s.committed)
    (hnext : s'.task = Function.update s.task t (.insertKeys rid rec T.indexes))
  | delete (t : TxnId) (lsn : Lsn) (cond : Bytes → Bool) (rid : Rid) (old : Bytes)
    (rids : List Rid) (he : e = .next t lsn) (hphase : s.locks.phase t = .running)
    (htask : s.task t = .deleteRow cond rid old rids) (hcond : cond old = true)
    (hfile : s.file.deleteRecord rid (some lsn) = some s'.file)
    (hwrites : s'.writes = Function.update s.writes t (.delete rid old :: s.writes t))
    (hcommitted : s'.committed = s.committed)
    (hnext : s'.task = Function.update s.task t (.deleteKeys cond rid old T.indexes rids))
  | drop (t : TxnId) (lsn : Lsn) (rid : Rid) (he : e = .next t lsn)
    (htask : s.task t = .dropRow rid)
    (hfile : s.file.deleteRecord rid (some lsn) = some s'.file)
    (hwrites : s'.writes = Function.update s.writes t (s.writes t).tail)
    (hback : ∀ w ws, s.writes t = w :: ws → TakesBack s s' t w ws)
  | undo (t : TxnId) (lsn : Lsn) (w : Write Rid Bytes) (ws : List (Write Rid Bytes))
    (he : e = .next t lsn) (hfile : s.file.undoWrite w = some s'.file) (hback : TakesBack s s' t w ws)
  | commit (t : TxnId) (he : e = .commit t) (htask : (s.task t).isIdle = true)
    (hfile : s'.file = s.file)
    (hwrites : s'.writes = Function.update s.writes t [])
    (hcommitted : s'.committed = UndoLog.commit s.committed (s.writes t))
    (hnext : s'.task = s.task)

theorem effect_forward {lsn : Lsn} (hphase : s.locks.phase t = .running)
    (h : s.forward T t lsn (s.task t) = some s') : Effect T s s' (.next t lsn) := by
  have lock : ∀ {e : LockEv κ} {task : Task},
      (∀ rid, task.inserting = some rid → (s.task t).inserting = some rid) →
      ((s.lockCall e).map fun s => s.setTask t task) = some s' → Quiet s s' := by
    intro e task htask h
    obtain ⟨s₁, hs₁, rfl⟩ := Option.map_eq_some_iff.mp h
    have hq := quiet_lockCall hs₁
    refine hq.trans (quiet_setTask fun rid hr => ?_)
    obtain ⟨locks, rfl⟩ := lockCall_eq hs₁
    exact htask rid hr
  cases htask : s.task t with
  | idle =>
    rw [htask] at h
    simp [forward] at h
  | insertRow rec =>
    rw [htask] at h
    obtain ⟨⟨file, rid⟩, hf, rfl⟩ := Option.map_eq_some_iff.mp h
    exact .insert t lsn rec rid rfl hphase htask hf rfl rfl rfl
  | insertKeys rid rec todo =>
    rw [htask] at h
    cases todo with
    | nil =>
      cases Option.some.inj h
      exact .quiet (quiet_setTask (by simp [Task.inserting]))
    | cons i todo => exact .quiet (lock (by simp [htask, Task.inserting]) h)
  | insertEntry rid rec i todo =>
    rw [htask] at h
    simp only [forward] at h
    split at h
    · cases Option.some.inj h
      exact .quiet ((quiet_setEntry _ _ _).trans (quiet_setTask (by
        simp [setEntry, htask, Task.inserting])))
    · cases Option.some.inj h
      exact .quiet (quiet_setTask (by simp [htask, Task.inserting]))
  | dropRow rid =>
    rw [htask] at h
    obtain ⟨file, hf, h⟩ := Option.bind_eq_some_iff.mp h
    obtain ⟨locks, rfl⟩ := lockCall_eq h
    refine .drop t lsn rid rfl htask hf rfl fun w ws hw => ⟨hw, ?_, rfl, fun u rid' hu => ?_⟩
    · simp [setTask, setWrites, hw]
    · by_cases hut : u = t
      · subst hut
        simp [setTask, Task.inserting] at hu
      · exact ⟨hut, by simpa [setTask, setWrites, hut] using hu⟩
  | deleteRows cond rids =>
    rw [htask] at h
    cases rids with
    | nil =>
      cases Option.some.inj h
      exact .quiet (quiet_setTask (by simp [Task.inserting]))
    | cons rid rids => exact .quiet (lock (by simp [Task.inserting]) h)
  | readRow cond rid rids =>
    rw [htask] at h
    obtain ⟨old, -, rfl⟩ := Option.map_eq_some_iff.mp h
    exact .quiet (quiet_setTask (by simp [Task.inserting]))
  | deleteRow cond rid old rids =>
    rw [htask] at h
    simp only [forward] at h
    split at h
    next hcond =>
      obtain ⟨file, hf, rfl⟩ := Option.map_eq_some_iff.mp h
      exact .delete t lsn cond rid old rids rfl hphase htask hcond hf rfl rfl rfl
    next =>
      cases Option.some.inj h
      exact .quiet (quiet_setTask (by simp [Task.inserting]))
  | deleteKeys cond rid old todo rids =>
    rw [htask] at h
    cases todo with
    | nil =>
      cases Option.some.inj h
      exact .quiet (quiet_setTask (by simp [Task.inserting]))
    | cons i todo => exact .quiet (lock (by simp [Task.inserting]) h)
  | deleteEntry cond rid old i todo rids =>
    rw [htask] at h
    cases Option.some.inj h
    exact .quiet ((quiet_setEntry _ _ _).trans (quiet_setTask (by simp [Task.inserting])))
  | undoKeys w todo =>
    rw [htask] at h
    simp [forward] at h

theorem effect_backward {lsn : Lsn} (h : s.backward T t (s.task t) = some s') :
    Effect T s s' (.next t lsn) := by
  unfold backward at h
  split at h
  next w i todo _ =>
    cases Option.some.inj h
    exact .quiet ((quiet_undoEntry i w).trans (quiet_setTask (by simp [Task.inserting])))
  next =>
    split at h
    next => simp at h
    next w ws hw =>
      obtain ⟨file, hf, rfl⟩ := Option.map_eq_some_iff.mp h
      refine .undo t lsn w ws rfl hf ⟨hw, rfl, rfl, fun u rid hu => ?_⟩
      by_cases hut : u = t
      · subst hut
        simp [setTask, Task.inserting] at hu
      · exact ⟨hut, by simpa [setTask, setWrites, hut] using hu⟩

theorem effect_step {e : SlotEv κ} (h : s.step T e = some s') : Effect T s s' e := by
  cases e with
  | scan e =>
    obtain ⟨t, -, h⟩ := Option.bind_eq_some_iff.mp h
    split at h
    · exact .quiet (quiet_lockCall h)
    · simp at h
  | insert t rec =>
    simp only [step] at h
    split at h
    · obtain ⟨s₁, hs₁, rfl⟩ := Option.map_eq_some_iff.mp h
      exact .quiet ((quiet_lockCall hs₁).trans (quiet_setTask (by simp [Task.inserting])))
    · simp at h
  | delete t cond rids =>
    simp only [step] at h
    split at h
    · obtain ⟨s₁, hs₁, rfl⟩ := Option.map_eq_some_iff.mp h
      exact .quiet ((quiet_lockCall hs₁).trans (quiet_setTask (by simp [Task.inserting])))
    · simp at h
  | next t lsn =>
    simp only [step] at h
    split at h
    next hphase => exact effect_forward hphase h
    next => exact effect_backward h
    next => simp at h
  | wake t => exact .quiet (quiet_lockCall h)
  | commit t =>
    simp only [step] at h
    split at h
    next hidle =>
      obtain ⟨s₁, hs₁, rfl⟩ := Option.map_eq_some_iff.mp h
      obtain ⟨locks, rfl⟩ := lockCall_eq hs₁
      exact .commit t rfl hidle rfl rfl rfl rfl
    next => simp at h
  | abort t =>
    simp only [step] at h
    split at h
    · exact .quiet (quiet_lockCall h)
    · simp at h
  | calculateGaps t fd bounds =>
    simp only [step] at h
    split at h
    · split at h
      · obtain ⟨q, -, rfl⟩ := Option.map_eq_some_iff.mp h
        exact .quiet ⟨rfl, rfl, rfl, fun _ _ hu => hu⟩
      · simp at h
    · simp at h
  | unlock t id =>
    simp only [step] at h
    split at h
    · exact .quiet (quiet_lockCall h)
    · simp at h

/-- What a step does to the locks, and for which rows deletes have asked after it. -/
structure LockEffect (T : SlotTable κ) (s s' : SlotState κ) (e : SlotEv κ) : Prop where
  locks : (s.lockEv T e = none ∧ s'.locks.phase = s.locks.phase ∧
      ∀ fd rid, s'.locks.queue (.record fd rid) = s.locks.queue (.record fd rid)) ∨
    ∃ call, s.lockEv T e = some call ∧ s.locks.step call = some s'.locks
  reading : ∀ u rid, (s'.task u).reading = some rid →
    (s.task u).reading = some rid ∧
      (∀ call, s.lockEv T e = some call → call.recordCall ≠ some (u, T.fd, rid)) ∨
    s.lockEv T e = some (.lockSharedOnRecord u T.fd rid)

theorem LockEffect.of_call {e : SlotEv κ} {call : LockEv κ} (hcall : s.lockEv T e = some call)
    (hlocks : s.locks.step call = some s'.locks)
    (hreading : ∀ u rid, (s'.task u).reading = some rid →
      (s.task u).reading = some rid ∧ call.recordCall ≠ some (u, T.fd, rid) ∨
        call = .lockSharedOnRecord u T.fd rid) : LockEffect T s s' e := by
  refine ⟨.inr ⟨call, hcall, hlocks⟩, fun u rid hu => ?_⟩
  rcases hreading u rid hu with ⟨hold, hne⟩ | rfl
  · refine .inl ⟨hold, fun call' hcall' => ?_⟩
    cases Option.some.inj (hcall.symm.trans hcall')
    exact hne
  · exact .inr hcall

theorem LockEffect.of_still {e : SlotEv κ} (hcall : s.lockEv T e = none)
    (hlocks : s'.locks = s.locks)
    (hreading : ∀ u rid, (s'.task u).reading = some rid → (s.task u).reading = some rid) :
    LockEffect T s s' e :=
  ⟨.inl ⟨hcall, by rw [hlocks], fun _ _ => by rw [hlocks]⟩,
    fun u rid hu => .inl ⟨hreading u rid hu, by simp [hcall]⟩⟩

theorem lockCall_step {call : LockEv κ} (h : s.lockCall call = some s') :
    s.locks.step call = some s'.locks ∧ s'.task = s.task := by
  obtain ⟨locks, hlocks, rfl⟩ := Option.map_eq_some_iff.mp h
  exact ⟨hlocks, rfl⟩

omit [LinearOrder κ] in
/-- After a step to a task that has asked for no row, only what was asked for before is. -/
theorem reading_setTask {task : Task} (h : task.reading = none) {u : TxnId} {rid : Rid}
    (hu : ((s.setTask t task).task u).reading = some rid) :
    u ≠ t ∧ (s.task u).reading = some rid := by
  by_cases hut : u = t
  · subst hut
    simp [setTask, h] at hu
  · exact ⟨hut, by simpa [setTask, hut] using hu⟩

theorem lockEffect_forward {lsn : Lsn} (hphase : s.locks.phase t = .running)
    (h : s.forward T t lsn (s.task t) = some s') : LockEffect T s s' (.next t lsn) := by
  -- An exclusive call of `t`.
  have exclusive : ∀ {rid : Rid} {i : IndexId} {key : κ} {task : Task}, task.reading = none →
      s.lockEv T (.next t lsn) = some (.lockExclusiveOnRecordGap t T.fd rid i key) →
      ((s.lockCall (.lockExclusiveOnRecordGap t T.fd rid i key)).map fun s => s.setTask t task) =
        some s' → LockEffect T s s' (.next t lsn) := by
    intro rid i key task hnone hcall h
    obtain ⟨s₁, hs₁, rfl⟩ := Option.map_eq_some_iff.mp h
    obtain ⟨hlocks, htask⟩ := lockCall_step hs₁
    refine .of_call hcall hlocks fun u rid' hu => ?_
    obtain ⟨hut, hold⟩ := reading_setTask hnone hu
    exact .inl ⟨htask ▸ hold, by simp [LockEv.recordCall, Ne.symm hut]⟩
  -- A step without a lock call, behind which `t` reads no row.
  have still : ∀ {s₁ : SlotState κ} {task : Task}, task.reading = none →
      s.lockEv T (.next t lsn) = none → s₁.locks = s.locks → s₁.task = s.task →
        LockEffect T s (s₁.setTask t task) (.next t lsn) := by
    intro s₁ task hnone hcall hlocks hsame
    refine .of_still hcall hlocks fun u rid hu => ?_
    rw [← hsame]
    exact (reading_setTask hnone hu).2
  cases htask : s.task t with
  | idle =>
    rw [htask] at h
    simp [forward] at h
  | insertRow rec =>
    rw [htask] at h
    obtain ⟨⟨file, rid⟩, -, rfl⟩ := Option.map_eq_some_iff.mp h
    exact still rfl (by simp [lockEv, hphase, htask]) rfl rfl
  | insertKeys rid rec todo =>
    rw [htask] at h
    cases todo with
    | nil =>
      cases Option.some.inj h
      exact still rfl (by simp [lockEv, hphase, htask]) rfl rfl
    | cons i todo => exact exclusive rfl (by simp [lockEv, hphase, htask]) h
  | insertEntry rid rec i todo =>
    rw [htask] at h
    simp only [forward] at h
    split at h
    · cases Option.some.inj h
      exact still rfl (by simp [lockEv, hphase, htask]) rfl rfl
    · cases Option.some.inj h
      exact still rfl (by simp [lockEv, hphase, htask]) rfl rfl
  | dropRow rid =>
    rw [htask] at h
    obtain ⟨file, -, h⟩ := Option.bind_eq_some_iff.mp h
    obtain ⟨hlocks, hsame⟩ := lockCall_step h
    have hcall : s.lockEv T (.next t lsn) = some (.finish t) := by simp [lockEv, hphase, htask]
    refine .of_call hcall hlocks fun u rid' hu => ?_
    rw [hsame] at hu
    exact .inl ⟨(reading_setTask rfl hu).2, by simp [LockEv.recordCall]⟩
  | deleteRows cond rids =>
    rw [htask] at h
    cases rids with
    | nil =>
      cases Option.some.inj h
      exact still rfl (by simp [lockEv, hphase, htask]) rfl rfl
    | cons rid rids =>
      obtain ⟨s₁, hs₁, rfl⟩ := Option.map_eq_some_iff.mp h
      obtain ⟨hlocks, hsame⟩ := lockCall_step hs₁
      refine .of_call (by simp [lockEv, hphase, htask]) hlocks fun u rid' hu => ?_
      by_cases hut : u = t
      · subst hut
        simp only [setTask, Function.update_self, Task.reading, Option.some.injEq] at hu
        exact .inr (by rw [hu])
      · rw [show ((s₁.setTask t (.readRow cond rid rids)).task u) = s.task u by
          simp [setTask, hut, hsame]] at hu
        exact .inl ⟨hu, by simp [LockEv.recordCall, Ne.symm hut]⟩
  | readRow cond rid rids =>
    rw [htask] at h
    obtain ⟨old, -, rfl⟩ := Option.map_eq_some_iff.mp h
    refine .of_still (by simp [lockEv, hphase, htask]) rfl fun u rid' hu => ?_
    by_cases hut : u = t
    · subst hut
      simpa [setTask, htask, Task.reading] using hu
    · simpa [setTask, hut] using hu
  | deleteRow cond rid old rids =>
    rw [htask] at h
    simp only [forward] at h
    split at h
    next hcond =>
      obtain ⟨file, -, rfl⟩ := Option.map_eq_some_iff.mp h
      exact still rfl (by simp [lockEv, hphase, htask]) rfl rfl
    next =>
      cases Option.some.inj h
      exact still rfl (by simp [lockEv, hphase, htask]) rfl rfl
  | deleteKeys cond rid old todo rids =>
    rw [htask] at h
    cases todo with
    | nil =>
      cases Option.some.inj h
      exact still rfl (by simp [lockEv, hphase, htask]) rfl rfl
    | cons i todo => exact exclusive rfl (by simp [lockEv, hphase, htask]) h
  | deleteEntry cond rid old i todo rids =>
    rw [htask] at h
    cases Option.some.inj h
    exact still rfl (by simp [lockEv, hphase, htask]) rfl rfl
  | undoKeys w todo =>
    rw [htask] at h
    simp [forward] at h

theorem lockEffect_backward {lsn : Lsn} (hphase : s.locks.phase t = .finishing)
    (h : s.backward T t (s.task t) = some s') : LockEffect T s s' (.next t lsn) := by
  have hcall : s.lockEv T (.next t lsn) = none := by simp [lockEv, hphase]
  unfold backward at h
  split at h
  next w i todo _ =>
    cases Option.some.inj h
    have hsame : (s.undoEntry T i w).locks = s.locks ∧ (s.undoEntry T i w).task = s.task := by
      cases w with
      | insert rid rec => exact ⟨rfl, rfl⟩
      | delete rid old =>
        simp only [undoEntry]
        split <;> exact ⟨rfl, rfl⟩
    refine .of_still hcall hsame.1 fun u rid hu => ?_
    rw [← hsame.2]
    exact (reading_setTask rfl hu).2
  next =>
    split at h
    next => simp at h
    next w ws hw =>
      obtain ⟨file, -, rfl⟩ := Option.map_eq_some_iff.mp h
      refine .of_still hcall rfl fun u rid hu => ?_
      exact (reading_setTask (show (Task.undoKeys w T.indexes).reading = none from rfl) hu).2

theorem lockEffect_step {e : SlotEv κ} (h : s.step T e = some s') : LockEffect T s s' e := by
  -- A lock call that is about no record.
  have call : ∀ {c : LockEv κ} {s₁ : SlotState κ}, s.lockEv T e = some c → c.recordCall = none →
      s.lockCall c = some s₁ → s'.locks = s₁.locks →
      (∀ u rid, (s'.task u).reading = some rid → (s₁.task u).reading = some rid) →
        LockEffect T s s' e := by
    intro c s₁ hc hnone hs₁ hlocks hreading
    obtain ⟨hstep, htask⟩ := lockCall_step hs₁
    refine .of_call hc (hlocks ▸ hstep) fun u rid hu => ?_
    exact .inl ⟨htask ▸ hreading u rid hu, by simp [hnone]⟩
  cases e with
  | scan e =>
    obtain ⟨t, ht, h⟩ := Option.bind_eq_some_iff.mp h
    split at h
    next hidle =>
      obtain ⟨hstep, htask⟩ := lockCall_step h
      have hcall : s.lockEv T (.scan e) = some e := rfl
      refine .of_call hcall hstep fun u rid hu => .inl ⟨htask ▸ hu, fun hrec => ?_⟩
      rw [htask, LockEv.scanner_eq ht hrec, Task.reading_of_isIdle hidle] at hu
      cases hu
    next => simp at h
  | insert t rec =>
    simp only [step] at h
    split at h
    · obtain ⟨s₁, hs₁, rfl⟩ := Option.map_eq_some_iff.mp h
      exact call rfl rfl hs₁ rfl fun u rid hu => (reading_setTask rfl hu).2
    · simp at h
  | delete t cond rids =>
    simp only [step] at h
    split at h
    · obtain ⟨s₁, hs₁, rfl⟩ := Option.map_eq_some_iff.mp h
      exact call rfl rfl hs₁ rfl fun u rid hu => (reading_setTask rfl hu).2
    · simp at h
  | next t lsn =>
    simp only [step] at h
    split at h
    next hphase => exact lockEffect_forward hphase h
    next hphase => exact lockEffect_backward hphase h
    next => simp at h
  | wake t => exact call rfl rfl h rfl fun _ _ hu => hu
  | commit t =>
    simp only [step] at h
    split at h
    · obtain ⟨s₁, hs₁, rfl⟩ := Option.map_eq_some_iff.mp h
      exact call rfl rfl hs₁ rfl fun _ _ hu => hu
    · simp at h
  | abort t =>
    simp only [step] at h
    split at h
    · exact call rfl rfl h rfl fun _ _ hu => hu
    · simp at h
  | calculateGaps t fd bounds =>
    simp only [step] at h
    split at h
    · split at h
      · obtain ⟨q, -, rfl⟩ := Option.map_eq_some_iff.mp h
        exact ⟨.inl ⟨rfl, rfl, fun _ _ => LockState.queue_put_other (by simp) _⟩,
          fun u rid hu => .inl ⟨hu, by simp [lockEv]⟩⟩
      · simp at h
    · simp at h
  | unlock t id =>
    simp only [step] at h
    split at h
    · exact call rfl rfl h rfl fun _ _ hu => hu
    · simp at h

/-- A deleter keeps a request for each row that it has deleted or is about to delete, until it has
rolled back. -/
structure LocksKept (T : SlotTable κ) (s : SlotState κ) : Prop where
  held : ∀ {t rid old}, .delete rid old ∈ s.writes t → (s.locks.queue (.record T.fd rid)).Asks t
  reading : ∀ {t rid}, (s.task t).reading = some rid →
    s.locks.phase t = .finishing ∨ (s.locks.queue (.record T.fd rid)).Asks t

omit [LinearOrder κ] in
theorem locksKept_start (recordSize : Nat) : LocksKept T (start recordSize) :=
  ⟨fun h => by simp [start] at h, fun h => by simp [start, Task.reading] at h⟩

/-- A step that unlocks is made in a rollback or after a commit, when no write is left. -/
theorem unlock_of_lockEv {e : SlotEv κ} {id : LockDataId} (h : s.step T e = some s')
    (hcall : s.lockEv T e = some (.unlock t id)) :
    s.writes t = [] ∧ s.locks.phase t = .finishing := by
  cases e with
  | scan e =>
    cases Option.some.inj hcall
    simp [step, LockEv.scanner] at h
  | unlock t' id' =>
    cases Option.some.inj hcall
    simp only [step] at h
    split at h
    next hundone =>
      refine ⟨?_, ?_⟩
      · simp only [undone, Bool.and_eq_true, List.isEmpty_iff] at hundone
        exact hundone.1
      · have hstep := (lockCall_step h).1
        simp only [LockState.step] at hstep
        split at hstep
        next hphase => exact hphase.1
        next => simp at hstep
    next => simp at h
  | next t' lsn =>
    simp only [lockEv] at hcall
    split at hcall <;> cases hcall
  | insert => cases hcall
  | delete => cases hcall
  | wake => cases hcall
  | commit => cases hcall
  | abort => cases hcall
  | calculateGaps => cases hcall

/-- A request of a transaction that does not unlock stays through a step that spares it. -/
theorem asks_step {e : SlotEv κ} (h : s.step T e = some s') {u : TxnId} {rid : Rid}
    (hask : (s.locks.queue (.record T.fd rid)).Asks u)
    (hunlock : s.writes u ≠ [] ∨ s.locks.phase u ≠ .finishing)
    (hspares : ∀ call, s.lockEv T e = some call → call.recordCall = some (u, T.fd, rid) →
      (s.locks.queue (.record T.fd rid)).Spares u) :
    (s'.locks.queue (.record T.fd rid)).Asks u := by
  rcases (lockEffect_step h).locks with ⟨-, -, hqueue⟩ | ⟨call, hcall, hlocks⟩
  · rw [hqueue]
    exact hask
  · refine LockState.asks_step hlocks hask ?_ (hspares call hcall)
    rintro rfl
    obtain ⟨hnil, hphase⟩ := unlock_of_lockEv h hcall
    rcases hunlock with hne | hne
    · exact hne hnil
    · exact hne hphase

/-- A delete is in a write set from the call of `delete_record` on. -/
theorem delete_of_step {e : SlotEv κ} (h : s.step T e = some s') {u : TxnId} {rid : Rid}
    {old : Bytes} (hmem : .delete rid old ∈ s'.writes u) :
    .delete rid old ∈ s.writes u ∨
      s.locks.phase u = .running ∧ (s.task u).reading = some rid ∧ s.lockEv T e = none := by
  cases effect_step h with
  | quiet hq => exact .inl (hq.writes ▸ hmem)
  | insert t lsn rec rid' he hphase htask hfile hwrites hcommitted hnext =>
    rw [hwrites] at hmem
    by_cases hut : u = t
    · subst hut
      rw [Function.update_self] at hmem
      exact .inl (by simpa using hmem)
    · exact .inl (by rwa [Function.update_of_ne hut] at hmem)
  | delete t lsn cond rid' old' rids he hphase htask hcond hfile hwrites hcommitted hnext =>
    rw [hwrites] at hmem
    by_cases hut : u = t
    · subst hut
      rw [Function.update_self, List.mem_cons] at hmem
      rcases hmem with heq | hmem
      · cases heq
        exact .inr ⟨hphase, by rw [htask]; rfl, by simp [he, lockEv, hphase, htask]⟩
      · exact .inl hmem
    · exact .inl (by rwa [Function.update_of_ne hut] at hmem)
  | drop t lsn rid' he htask hfile hwrites hback =>
    rw [hwrites] at hmem
    by_cases hut : u = t
    · subst hut
      rw [Function.update_self] at hmem
      exact .inl (List.mem_of_mem_tail hmem)
    · exact .inl (by rwa [Function.update_of_ne hut] at hmem)
  | undo t lsn w ws he hfile hback =>
    rw [hback.writes] at hmem
    by_cases hut : u = t
    · subst hut
      rw [Function.update_self] at hmem
      rw [hback.was]
      exact .inl (List.mem_cons_of_mem w hmem)
    · exact .inl (by rwa [Function.update_of_ne hut] at hmem)
  | commit t he htask hfile hwrites hcommitted hnext =>
    rw [hwrites] at hmem
    by_cases hut : u = t
    · subst hut
      simp at hmem
    · exact .inl (by rwa [Function.update_of_ne hut] at hmem)

/-- A transaction that finishes stays so. -/
theorem finishing_step {e : SlotEv κ} (h : s.step T e = some s') {u : TxnId}
    (hu : s.locks.phase u = .finishing) : s'.locks.phase u = .finishing := by
  rcases (lockEffect_step h).locks with ⟨-, hphase, -⟩ | ⟨call, -, hlocks⟩
  · rw [hphase, hu]
  · exact LockState.finishing_step hlocks hu

theorem locksKept_step {e : SlotEv κ} (hk : LocksKept T s) (hgood : s.SlotsApart T e)
    (h : s.step T e = some s') : LocksKept T s' := by
  refine ⟨fun {u rid old} hmem => ?_, fun {u rid} hu => ?_⟩
  · rcases delete_of_step h hmem with hold | ⟨hphase, hread, hnone⟩
    · exact asks_step h (hk.held hold) (.inl (List.ne_nil_of_mem hold))
        fun call hcall hrec => hgood.spares call u rid old hcall hrec hold
    · have hask := (hk.reading hread).resolve_left (by rw [hphase]; simp)
      exact asks_step h hask (.inr (by rw [hphase]; simp)) fun call hcall => by
        rw [hnone] at hcall
        cases hcall
  · rcases (lockEffect_step h).reading u rid hu with ⟨hold, hother⟩ | hshared
    · by_cases hphase : s.locks.phase u = .finishing
      · exact .inl (finishing_step h hphase)
      · have hask := (hk.reading hold).resolve_left hphase
        exact .inr (asks_step h hask (.inr hphase) fun call hcall hrec =>
          absurd hrec (hother call hcall))
    · rcases (lockEffect_step h).locks with ⟨hnone, -, -⟩ | ⟨call, hcall, hlocks⟩
      · rw [hshared] at hnone
        cases hnone
      · cases Option.some.inj (hshared.symm.trans hcall)
        exact LockState.asks_of_shared hlocks

omit [LinearOrder κ] in
/-- The slot that `insert_record` takes holds no row, and no other open transaction has written
it: one that had would have deleted the row, and kept a request for it. -/
theorem slot_of_insertRecord {e : SlotEv κ} (hi : s.Inv) (hk : LocksKept T s)
    (hgood : s.SlotsApart T e) {lsn : Lsn} {rec : Bytes} {file : RmFile} {rid : Rid}
    (hinserter : s.inserter e = some t) (hfile : s.file.insertRecord rec (some lsn) = some (file, rid)) :
    s.file.record rid = none ∧ ∀ u, u ≠ t → ¬ Wrote (s.writes u) rid := by
  obtain ⟨free, hlow⟩ := hi.file
  rcases RmFile.insertRecord_slot hlow.toChained hfile with ⟨page, hp, rfl⟩ | habsent
  · obtain ⟨hclear, halone⟩ := hgood.insert t page hinserter hp
    have hnone : s.file.record ⟨s.file.firstFreePageNo,
        firstBit false page.bitmap s.file.perPage⟩ = none := by
      simp [RmFile.record, hp, hclear]
    refine ⟨hnone, fun u hu hwrote => ?_⟩
    obtain ⟨v, hv⟩ := Option.ne_none_iff_exists'.mp
      (fun hlast => lastWrite_eq_none.mp hlast hwrote)
    have hempty := hi.holds.last hv
    rw [hnone] at hempty
    subst hempty
    obtain ⟨old, hmem⟩ := delete_of_lastWrite hv
    obtain ⟨r, hr, hru⟩ := hk.held hmem
    exact hu (hru.symm.trans (halone r hr))
  · refine ⟨by simp [RmFile.record, habsent], fun u _ hwrote => ?_⟩
    have hpage := hi.paged hwrote
    simp [habsent] at hpage

omit [LinearOrder κ] in
/-- The row that `delete_record` takes out has been written by no other open transaction. -/
theorem slot_of_deleteRecord (hi : s.Inv) {rid : Rid} {old : Bytes}
    (hlive : s.file.record rid = some old)
    (alone : ∀ u, u ≠ t → .insert rid old ∉ s.writes u) : ∀ u, u ≠ t → ¬ Wrote (s.writes u) rid := by
  intro u hu hwrote
  obtain ⟨v, hv⟩ := Option.ne_none_iff_exists'.mp
    (fun hlast => lastWrite_eq_none.mp hlast hwrote)
  have hold := hi.holds.last hv
  rw [hlive] at hold
  subst hold
  exact alone u hu (insert_of_lastWrite hv)

theorem inv_step {e : SlotEv κ} (hi : s.Inv) (hk : LocksKept T s) (hgood : s.SlotsApart T e)
    (h : s.step T e = some s') : s'.Inv := by
  cases effect_step h with
  | quiet hq => exact hi.quiet hq
  | insert t lsn rec rid he hphase htask hfile hwrites hcommitted hnext =>
    have hinserter : s.inserter e = some t := by simp [he, inserter, hphase, htask]
    obtain ⟨hfree, alone⟩ := slot_of_insertRecord hi hk hgood hinserter hfile
    obtain ⟨free, hlow⟩ := hi.file
    refine hi.write (w := .insert rid rec) (hlow.insertRecord hfile)
      (RmFile.insertRecord_puts hlow.toChained hfile) hfree alone hwrites hcommitted
      fun u rid' hu => ?_
    rw [hnext] at hu
    by_cases hut : u = t
    · subst hut
      simp only [Function.update_self, Task.inserting, Option.some.injEq] at hu
      exact .inr ⟨rfl, rec, by rw [hu]⟩
    · rw [Function.update_of_ne hut] at hu
      exact .inl ⟨hut, hu⟩
  | delete t lsn cond rid old rids he hphase htask hcond hfile hwrites hcommitted hnext =>
    have hdeleter : s.deleter e = some (t, rid, old) := by
      simp [he, deleter, hphase, htask, hcond]
    obtain ⟨hlive, hnew⟩ := hgood.delete t rid old hdeleter
    have alone := slot_of_deleteRecord hi hlive hnew
    refine hi.write (w := .delete rid old) (RmFile.low_deleteRecord hi.file (by simp [hlive]) hfile)
      (RmFile.deleteRecord_puts hfile) hlive alone hwrites hcommitted fun u rid' hu => ?_
    rw [hnext] at hu
    by_cases hut : u = t
    · subst hut
      simp [Task.inserting] at hu
    · rw [Function.update_of_ne hut] at hu
      exact .inl ⟨hut, hu⟩
  | drop t lsn rid he htask hfile hwrites hback =>
    obtain ⟨rec, ws, hw⟩ := hi.owns (show (s.task t).inserting = some rid by
      rw [htask]
      rfl)
    have hrec : s.file.record rid = some rec := hi.head hw
    exact hi.takeBack (w := .insert rid rec) (RmFile.low_deleteRecord hi.file (by simp [hrec]) hfile)
      (RmFile.deleteRecord_puts hfile) (hback _ _ hw)
  | undo t lsn w ws he hfile hback =>
    exact hi.takeBack (low_undoWrite hi.file (hi.head hback.was) hfile)
      (RmFile.undoWrite_puts hfile) hback
  | commit t he htask hfile hwrites hcommitted hnext =>
    refine ⟨hfile ▸ hi.file, ?_, fun {u rid} hw => ?_, fun {u rid} hu => ?_⟩
    · rw [hcommitted, hwrites, hfile]
      exact hi.holds.commit t
    · rw [hwrites] at hw
      rw [hfile]
      by_cases hut : u = t
      · subst hut
        simp at hw
      · rw [Function.update_of_ne hut] at hw
        exact hi.paged hw
    · rw [hnext] at hu
      have hut : u ≠ t := by
        rintro rfl
        cases htu : s.task u <;> simp_all [Task.isIdle, Task.inserting]
      rw [hwrites, Function.update_of_ne hut]
      exact hi.owns hu

def rowTable : SlotTable Int := ⟨5, [1], fun _ rec => (rec.headD 0).toNat⟩

/-- A step of transactions below `n`, as far as it has to be checked to keep slots apart. -/
def ApartBelow (n : Nat) (T : SlotTable κ) (s : SlotState κ) (e : SlotEv κ) : Prop :=
  (∀ t ∈ s.inserter e, t < n ∧ ∀ page ∈ s.file.pages s.file.firstFreePageNo,
    page.bitmap (firstBit false page.bitmap s.file.perPage) = false ∧
      ∀ r ∈ (s.locks.queue (.record T.fd ⟨s.file.firstFreePageNo,
        firstBit false page.bitmap s.file.perPage⟩)).requestQueue, r.txnId = t) ∧
  (∀ c ∈ s.deleter e, c.1 < n ∧ s.file.record c.2.1 = some c.2.2 ∧
    ∀ u < n, u ≠ c.1 → .insert c.2.1 c.2.2 ∉ s.writes u) ∧
  ∀ call ∈ s.lockEv T e, ∀ c ∈ call.recordCall, (s.locks.queue (.record c.2.1 c.2.2)).Spares c.1

instance (n : Nat) (T : SlotTable κ) (s : SlotState κ) (e : SlotEv κ) :
    Decidable (ApartBelow n T s e) :=
  inferInstanceAs (Decidable (_ ∧ _ ∧ _))

omit [LinearOrder κ] in
theorem ApartBelow.apart {n : Nat} {e : SlotEv κ} (h : s.ApartBelow n T e)
    (hnone : ∀ u, n ≤ u → s.writes u = []) : s.SlotsApart T e := by
  obtain ⟨hinsert, hdelete, hspares⟩ := h
  refine ⟨fun t page ht hp => (hinsert t ht).2 page hp, fun t rid old hc => ?_,
    fun call t rid old hcall hrec _ => hspares call hcall (t, T.fd, rid) hrec⟩
  obtain ⟨-, hlive, hbelow⟩ := hdelete (t, rid, old) hc
  refine ⟨hlive, fun u hu => ?_⟩
  rcases Nat.lt_or_ge u n with hlt | hge
  · exact hbelow u hlt hu
  · simp [hnone u hge]

theorem ApartBelow.none_left {n : Nat} {e : SlotEv κ} (h : s.ApartBelow n T e)
    (hstep : s.step T e = some s') (hnone : ∀ u, n ≤ u → s.writes u = []) :
    ∀ u, n ≤ u → s'.writes u = [] := by
  intro u hu
  have hempty := hnone u hu
  cases effect_step hstep with
  | quiet hq => rw [hq.writes, hempty]
  | insert t lsn rec rid he hphase htask hfile hwrites hcommitted hnext =>
    have ht := (h.1 t (by simp [he, inserter, hphase, htask])).1
    rw [hwrites, Function.update_of_ne (by lia), hempty]
  | delete t lsn cond rid old rids he hphase htask hcond hfile hwrites hcommitted hnext =>
    have ht := (h.2.1 (t, rid, old) (by simp [he, deleter, hphase, htask, hcond])).1
    rw [hwrites, Function.update_of_ne (by simp only at ht; lia), hempty]
  | drop t lsn rid he htask hfile hwrites hback =>
    rw [hwrites]
    by_cases hut : u = t
    · subst hut
      simp [hempty]
    · rw [Function.update_of_ne hut, hempty]
  | undo t lsn w ws he hfile hback =>
    rw [hback.writes]
    by_cases hut : u = t
    · subst hut
      rw [hback.was] at hempty
      cases hempty
    · rw [Function.update_of_ne hut, hempty]
  | commit t he htask hfile hwrites hcommitted hnext =>
    rw [hwrites]
    by_cases hut : u = t
    · simp [hut]
    · rw [Function.update_of_ne hut, hempty]

theorem meetsAll_of_below {n : Nat} {tr : List (SlotEv κ)}
    (all : MeetsAll (step T) (ApartBelow n T) s tr) (hnone : ∀ u, n ≤ u → s.writes u = []) :
    MeetsAll (step T) (SlotsApart T) s tr := by
  induction tr generalizing s with
  | nil => trivial
  | cons e tr ih =>
    exact ⟨all.1.apart hnone, fun s' hs => ih (all.2 s' hs) (all.1.none_left hs hnone)⟩

/-- T0 inserts three rows and commits. T1 inserts a fourth one, T2 deletes the second one and puts
a row of its own into the slot, T1 deletes its row again, and T2 rolls back. -/
def ownSlots : List (SlotEv Int) :=
  [.insert 0 [7], .next 0 1, .next 0 1, .next 0 1, .next 0 1,
    .insert 0 [8], .next 0 2, .next 0 2, .next 0 2, .next 0 2,
    .insert 0 [9], .next 0 3, .next 0 3, .next 0 3, .next 0 3, .commit 0,
    .unlock 0 (.record 5 ⟨1, 0⟩), .unlock 0 (.record 5 ⟨1, 1⟩), .unlock 0 (.record 5 ⟨1, 2⟩),
    .unlock 0 (.table 5),
    .insert 1 [4], .next 1 5, .next 1 5, .next 1 5, .next 1 5,
    .delete 2 (fun old => old = [8]) [⟨1, 1⟩], .next 2 6, .next 2 6, .next 2 6, .next 2 6, .next 2 6,
    .next 2 6, .next 2 6,
    .insert 2 [6], .next 2 7, .next 2 7, .next 2 7, .next 2 7,
    .delete 1 (fun old => old = [4]) [⟨1, 3⟩], .next 1 8, .next 1 8, .next 1 8, .next 1 8, .next 1 8,
    .next 1 8, .next 1 8,
    .abort 2, .next 2 0, .next 2 0, .next 2 0, .next 2 0, .unlock 2 (.record 5 ⟨1, 1⟩),
    .unlock 2 (.table 5)]

theorem ownSlots_below : MeetsAll (step rowTable) (ApartBelow 3 rowTable) (start 1) ownSlots := by
  decide +kernel

/-- The row of T0 is deleted by T2, its slot is taken by T1, which is older and waits for the
lock, and T2 rolls back before T1 goes on and returns. -/
def takenSlot : List (SlotEv Int) :=
  [.insert 0 [7], .next 0 1, .next 0 1, .next 0 1, .next 0 1, .commit 0,
    .unlock 0 (.record 5 ⟨1, 0⟩), .unlock 0 (.table 5),
    .delete 2 (fun _ => true) [⟨1, 0⟩], .next 2 3, .next 2 3, .next 2 3, .next 2 3, .next 2 3,
    .next 2 3, .next 2 3,
    .insert 1 [9], .next 1 5, .next 1 5,
    .abort 2, .next 2 0, .next 2 0, .unlock 2 (.record 5 ⟨1, 0⟩), .unlock 2 (.table 5),
    .wake 1, .next 1 5, .next 1 5]

end SlotState

end Grmdb
