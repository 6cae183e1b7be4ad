import Grmdb.IndexKey
import Grmdb.LogRecord

namespace Grmdb

abbrev Path := String

structure PageId where
  fd : Fd
  pageNo : PageNo
  deriving DecidableEq, Repr

def INVALID_PAGE_ID : PageNo := -1

def MAX_FD : Fd := 8192

/-- The `PAGE_SIZE` bytes of a page. -/
def PageData : Type := { b : Bytes // b.length = PAGE_SIZE }

instance : DecidableEq PageData :=
  inferInstanceAs (DecidableEq { b : Bytes // b.length = PAGE_SIZE })

def PageData.fill (x : UInt8) : PageData := ⟨List.replicate PAGE_SIZE x, by simp⟩

def PageData.zero : PageData := PageData.fill 0

/-- `get_page_lsn`: the LSN stands in the first four bytes. -/
def PageData.lsn (d : PageData) : Lsn := readInt d.val

/-- A file of `size` bytes by its pages. Behind its end there is nothing but zeros, which a
write further on turns into pages. -/
structure DiskFile where
  size : Nat
  page : Nat → PageData
  beyond : ∀ p, size ≤ p * PAGE_SIZE → page p = PageData.zero

def DiskFile.empty : DiskFile := ⟨0, fun _ => PageData.zero, fun _ _ => rfl⟩

def DiskFile.write (f : DiskFile) (p : Nat) (d : PageData) : DiskFile where
  size := max f.size ((p + 1) * PAGE_SIZE)
  page := Function.update f.page p d
  beyond := by
    intro q hq
    have hne : q ≠ p := by
      rintro rfl
      have hle := (le_max_right _ _).trans hq
      have hpos : 0 < PAGE_SIZE := by decide
      rw [Nat.add_mul] at hle
      omega
    rw [Function.update_of_ne hne]
    exact f.beyond q ((le_max_left _ _).trans hq)

def DiskFile.read (f : DiskFile) (p : Nat) : Option PageData :=
  if (p + 1) * PAGE_SIZE ≤ f.size then some (f.page p) else none

/-- The disk manager with the files behind it. `fd2path_` is the first part of `openFiles`: a
path is open at most once, so a file stands either under its descriptor or, closed, under its
path. -/
structure DiskManager where
  openFiles : Fd → Option (Path × DiskFile)
  closedFiles : Path → Option DiskFile
  path2fd : Path → Option Fd
  fd2pageno : Fd → PageNo

/-- No file is open yet; every entry of `fd2pageno_` starts at 0. -/
def DiskManager.start (files : Path → Option DiskFile) : DiskManager :=
  ⟨fun _ => none, files, fun _ => none, fun _ => 0⟩

/-- `write_page` of a whole page; `none` is the exception of a failed `lseek` or `write`. -/
def DiskManager.writePage (dm : DiskManager) (id : PageId) (d : PageData) : Option DiskManager :=
  match dm.openFiles id.fd with
  | none => none
  | some (path, file) =>
    if id.pageNo < 0 then none
    else
      some { dm with
        openFiles :=
          Function.update dm.openFiles id.fd (some (path, file.write id.pageNo.toNat d)) }

def DiskManager.readPage (dm : DiskManager) (id : PageId) : Option PageData :=
  match dm.openFiles id.fd with
  | none => none
  | some (_, file) => if id.pageNo < 0 then none else file.read id.pageNo.toNat

/-- `allocate_page`: the counter before the increment; `none` is the failed assertion. -/
def DiskManager.allocatePage (dm : DiskManager) (fd : Fd) : Option (PageNo × DiskManager) :=
  if 0 ≤ fd ∧ fd < MAX_FD then
    some (dm.fd2pageno fd,
      { dm with fd2pageno := Function.update dm.fd2pageno fd (dm.fd2pageno fd + 1) })
  else none

def DiskManager.setFd2pageno (dm : DiskManager) (fd : Fd) (startPageNo : PageNo) : DiskManager :=
  { dm with fd2pageno := Function.update dm.fd2pageno fd startPageNo }

/-- `create_file`, refused when a file of this name is there. -/
def DiskManager.createFile (dm : DiskManager) (path : Path) : Option DiskManager :=
  match dm.closedFiles path, dm.path2fd path with
  | none, none =>
    some { dm with closedFiles := Function.update dm.closedFiles path (some DiskFile.empty) }
  | _, _ => none

/-- `destroy_file`, refused for an open file and for one that is not there. -/
def DiskManager.destroyFile (dm : DiskManager) (path : Path) : Option DiskManager :=
  match dm.path2fd path, dm.closedFiles path with
  | none, some _ => some { dm with closedFiles := Function.update dm.closedFiles path none }
  | _, _ => none

/-- `open_file` when the operating system answers with the descriptor `fd`, any that is not in
use. -/
def DiskManager.openFile (dm : DiskManager) (path : Path) (fd : Fd) : Option DiskManager :=
  match dm.path2fd path, dm.closedFiles path, dm.openFiles fd with
  | none, some file, none =>
    if fd < 0 then none
    else
      some { dm with
        openFiles := Function.update dm.openFiles fd (some (path, file))
        closedFiles := Function.update dm.closedFiles path none
        path2fd := Function.update dm.path2fd path (some fd) }
  | _, _, _ => none

def DiskManager.closeFile (dm : DiskManager) (fd : Fd) : Option DiskManager :=
  match dm.openFiles fd with
  | none => none
  | some (path, file) =>
    some { dm with
      openFiles := Function.update dm.openFiles fd none
      closedFiles := Function.update dm.closedFiles path (some file)
      path2fd := Function.update dm.path2fd path none }

/-- The bytes of a page of an open file, zeros behind its end. -/
def DiskManager.page (dm : DiskManager) (id : PageId) : Option PageData :=
  (dm.openFiles id.fd).map fun file => file.2.page id.pageNo.toNat

section Pages

variable {dm dm' : DiskManager} {id : PageId} {d : PageData}

/-- A write sets its own page and no other one. -/
theorem DiskManager.page_writePage (h : dm.writePage id d = some dm') (q : PageId)
    (hq : 0 ≤ q.pageNo) : dm'.page q = if q = id then some d else dm.page q := by
  unfold writePage at h
  split at h
  · cases h
  next path file hfile =>
    split at h
    · cases h
    next hpos =>
      cases Option.some.inj h
      simp only [page]
      by_cases hfd : q.fd = id.fd
      · rw [hfd, Function.update_self, hfile]
        by_cases hno : q.pageNo = id.pageNo
        · have hqid : q = id := by
            obtain ⟨qfd, qno⟩ := q
            simp only at hfd hno
            rw [hfd, hno]
          simp [hqid, DiskFile.write]
        · have hne : q ≠ id := fun e => hno (by rw [e])
          have hnat : q.pageNo.toNat ≠ id.pageNo.toNat := by lia
          simp [hne, DiskFile.write, Function.update_of_ne hnat]
      · have hne : q ≠ id := fun e => hfd (by rw [e])
        simp [hne, Function.update_of_ne hfd]

theorem DiskManager.writePage_pageNo (h : dm.writePage id d = some dm') : 0 ≤ id.pageNo := by
  unfold writePage at h
  split at h
  · cases h
  next =>
    split at h
    · cases h
    next hpos => lia

theorem DiskManager.writePage_isOpen (h : dm.writePage id d = some dm') (fd : Fd) :
    (dm'.openFiles fd).isSome = (dm.openFiles fd).isSome := by
  unfold writePage at h
  split at h
  · cases h
  next path file hfile =>
    split at h
    · cases h
    next =>
      cases Option.some.inj h
      by_cases hfd : fd = id.fd
      · simp [hfd, hfile]
      · simp [Function.update_of_ne hfd]

theorem DiskManager.allocatePage_eq {fd : Fd} {n : PageNo}
    (h : dm.allocatePage fd = some (n, dm')) : n = dm.fd2pageno fd := by
  unfold allocatePage at h
  split at h
  · cases Option.some.inj h
    rfl
  · cases h

theorem DiskManager.allocatePage_openFiles {fd : Fd} {n : PageNo}
    (h : dm.allocatePage fd = some (n, dm')) : dm'.openFiles = dm.openFiles := by
  unfold allocatePage at h
  split at h
  · cases Option.some.inj h
    rfl
  · cases h

theorem DiskManager.createFile_openFiles {path : Path} (h : dm.createFile path = some dm') :
    dm'.openFiles = dm.openFiles := by
  unfold createFile at h
  split at h
  · cases Option.some.inj h
    rfl
  · cases h

theorem DiskManager.destroyFile_openFiles {path : Path} (h : dm.destroyFile path = some dm') :
    dm'.openFiles = dm.openFiles := by
  unfold destroyFile at h
  split at h
  · cases Option.some.inj h
    rfl
  · cases h

theorem DiskManager.closeFile_openFiles {fd : Fd} (h : dm.closeFile fd = some dm') :
    dm'.openFiles = Function.update dm.openFiles fd none := by
  unfold closeFile at h
  split at h
  · cases h
  · cases Option.some.inj h
    rfl

theorem DiskManager.openFile_openFiles {path : Path} {fd : Fd}
    (h : dm.openFile path fd = some dm') :
    dm.openFiles fd = none ∧ ∃ file, dm'.openFiles = Function.update dm.openFiles fd (some file) := by
  unfold openFile at h
  split at h
  next hfd =>
    split at h
    · cases h
    · cases Option.some.inj h
      exact ⟨hfd, _, rfl⟩
  · cases h

theorem DiskManager.readPage_eq (h : dm.readPage id = some d) :
    dm.page id = some d ∧ 0 ≤ id.pageNo := by
  unfold readPage at h
  split at h
  · cases h
  next path file hfile =>
    split at h
    · cases h
    next hpos =>
      simp only [DiskFile.read] at h
      split at h
      · cases Option.some.inj h
        exact ⟨by simp [page, hfile], by lia⟩
      · cases h

end Pages

end Grmdb
