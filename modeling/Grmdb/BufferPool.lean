import Grmdb.AssocMap
import Grmdb.DiskManager
import Grmdb.LogManager
import Grmdb.Replacer

namespace Grmdb

open AssocMap

structure Page where
  id : PageId
  data : PageData
  isDirty : Bool
  pinCount : Nat
  deriving DecidableEq

/-- A dirty page goes to disk before its frame is given away. -/
def Page.writeBack (page : Page) (disk : DiskManager) : Option DiskManager :=
  if page.isDirty then disk.writePage page.id page.data else some disk

/-- `BufferPoolManager` with the disk and the log it works on. `page_table_` is the list of its
entries; `pages_` has `poolSize` frames. -/
structure BufferPool (ρ : Type) where
  poolSize : Nat
  pages : FrameId → Page
  pageTable : List (PageId × FrameId)
  freeList : List FrameId
  replacer : ρ
  disk : DiskManager
  log : Option LogManager

namespace BufferPool

variable {ρ : Type}

/-- The constructor puts every frame on the free list. `fd` is what the uninitialised
descriptor of a fresh `PageId` happens to be. -/
def start (poolSize : Nat) (fd : Fd) (replacer : ρ) (disk : DiskManager)
    (log : Option LogManager) : BufferPool ρ where
  poolSize := poolSize
  pages := fun _ => ⟨⟨fd, INVALID_PAGE_ID⟩, PageData.zero, false, 0⟩
  pageTable := []
  freeList := List.range poolSize
  replacer := replacer
  disk := disk
  log := log

def setPage (s : BufferPool ρ) (f : FrameId) (page : Page) : BufferPool ρ :=
  { s with pages := Function.update s.pages f page }

variable [Replacer ρ]

def findVictimPage (s : BufferPool ρ) : Option (FrameId × BufferPool ρ) :=
  match s.freeList with
  | [] =>
    match Replacer.victim s.replacer with
    | none => none
    | some (f, replacer) => some (f, { s with replacer := replacer })
  | f :: freeList => some (f, { s with freeList := freeList })

omit [Replacer ρ] in
/-- `update_page`; `none` stands for an exception of the disk manager, here and below. -/
def updatePage (s : BufferPool ρ) (newPageId : PageId) (f : FrameId) : Option (BufferPool ρ) := do
  let page := s.pages f
  let log := s.log.map fun lm => if lm.persistLsn < page.data.lsn then lm.flushLogToDisk else lm
  let disk ← page.writeBack s.disk
  return { s with
    log := log
    disk := disk
    pageTable := assign newPageId f (erase page.id s.pageTable)
    pages := Function.update s.pages f ⟨newPageId, PageData.zero, false, 0⟩ }

/-- `pin_count_++` with `replacer_->pin`. -/
def pinFrame (s : BufferPool ρ) (f : FrameId) : BufferPool ρ :=
  { s.setPage f { s.pages f with pinCount := (s.pages f).pinCount + 1 } with
    replacer := Replacer.pin s.replacer f }

/-- The frame that `fetch_page` answers with, `none` for `nullptr`, and the pool after it. -/
def fetchPage (s : BufferPool ρ) (id : PageId) : Option (Option FrameId × BufferPool ρ) :=
  match lookup id s.pageTable with
  | some f => some (some f, s.pinFrame f)
  | none =>
    match s.findVictimPage with
    | none => some (none, s)
    | some (f, s) => do
      let s ← s.updatePage id f
      let data ← s.disk.readPage id
      return (some f, (s.setPage f { s.pages f with data := data }).pinFrame f)

/-- What becomes of the frame in `unpin_page`. -/
def unpinFrame (s : BufferPool ρ) (f : FrameId) (isDirty : Bool) : BufferPool ρ :=
  let page := s.pages f
  let page := { page with pinCount := page.pinCount - 1 }
  { s.setPage f (if isDirty then { page with isDirty := true } else page) with
    replacer := if page.pinCount = 0 then Replacer.unpin s.replacer f else s.replacer }

def unpinPage (s : BufferPool ρ) (id : PageId) (isDirty : Bool) : Bool × BufferPool ρ :=
  match lookup id s.pageTable with
  | none => (false, s)
  | some f => if (s.pages f).pinCount = 0 then (false, s) else (true, s.unpinFrame f isDirty)

omit [Replacer ρ] in
/-- The page goes to disk, dirty or not, and is clean afterwards. -/
def flushFrame (s : BufferPool ρ) (id : PageId) (f : FrameId) : Option (BufferPool ρ) := do
  let disk ← s.disk.writePage id (s.pages f).data
  return { s.setPage f { s.pages f with isDirty := false } with disk := disk }

omit [Replacer ρ] in
def flushPage (s : BufferPool ρ) (id : PageId) : Option (Bool × BufferPool ρ) :=
  match lookup id s.pageTable with
  | none => some (false, s)
  | some f => do
    let s ← s.flushFrame id f
    return (true, s)

/-- The new page with its frame, `none` for `nullptr`. -/
def newPage (s : BufferPool ρ) (fd : Fd) :
    Option (Option (PageId × FrameId) × BufferPool ρ) :=
  match s.findVictimPage with
  | none => some (none, s)
  | some (f, s) => do
    let (pageNo, disk) ← s.disk.allocatePage fd
    let id : PageId := ⟨fd, pageNo⟩
    let s ← updatePage { s with disk := disk } id f
    let s := s.pinFrame f
    let disk ← s.disk.writePage id (s.pages f).data
    return (some (id, f), { s with disk := disk })

omit [Replacer ρ] in
/-- The frame leaves the page table for the free list; it stays where it is in the replacer. -/
def dropFrame (s : BufferPool ρ) (id : PageId) (f : FrameId) (disk : DiskManager) :
    BufferPool ρ :=
  { s with
    disk := disk
    pageTable := erase id s.pageTable
    freeList := s.freeList ++ [f]
    pages := Function.update s.pages f ⟨⟨-1, INVALID_PAGE_ID⟩, PageData.zero, false, 0⟩ }

omit [Replacer ρ] in
def deletePage (s : BufferPool ρ) (id : PageId) : Option (Bool × BufferPool ρ) :=
  match lookup id s.pageTable with
  | none => some (true, s)
  | some f =>
    if 0 < (s.pages f).pinCount then some (false, s)
    else do
      let disk ← (s.pages f).writeBack s.disk
      return (true, s.dropFrame id f disk)

omit [Replacer ρ] in
def flushAllPages (s : BufferPool ρ) (fd : Fd) : Option (BufferPool ρ) :=
  s.pageTable.foldlM (fun s entry => if fd = entry.1.fd then s.flushFrame entry.1 entry.2 else some s)
    s

omit [Replacer ρ] in
/-- A client changes the bytes of a page through the pointer it was given. -/
def write (s : BufferPool ρ) (id : PageId) (data : PageData) : Option (BufferPool ρ) :=
  match lookup id s.pageTable with
  | none => none
  | some f => some (s.setPage f { s.pages f with data := data })

end BufferPool

inductive PoolCall where
  | fetchPage (id : PageId)
  | newPage (fd : Fd)
  | unpinPage (id : PageId) (isDirty : Bool)
  | flushPage (id : PageId)
  | flushAllPages (fd : Fd)
  | deletePage (id : PageId)
  | write (id : PageId) (data : PageData)
  deriving DecidableEq

/-- One call of a client, or one change it makes to a page. -/
def BufferPool.call {ρ : Type} [Replacer ρ] (s : BufferPool ρ) : PoolCall → Option (BufferPool ρ)
  | .fetchPage id => (s.fetchPage id).map (·.2)
  | .newPage fd => (s.newPage fd).map (·.2)
  | .unpinPage id isDirty => some (s.unpinPage id isDirty).2
  | .flushPage id => (s.flushPage id).map (·.2)
  | .flushAllPages fd => s.flushAllPages fd
  | .deletePage id => (s.deletePage id).map (·.2)
  | .write id data => s.write id data

namespace BufferPool

section Steps

variable {ρ : Type} [Replacer ρ] {s s' : BufferPool ρ}

omit [Replacer ρ] in
theorem updatePage_eq {id : PageId} {f : FrameId} (h : s.updatePage id f = some s') :
    ∃ disk log, (s.pages f).writeBack s.disk = some disk ∧
      s' = { s with
        log := log
        disk := disk
        pageTable := assign id f (erase (s.pages f).id s.pageTable)
        pages := Function.update s.pages f ⟨id, PageData.zero, false, 0⟩ } := by
  obtain ⟨disk, hdisk, hs⟩ := Option.bind_eq_some_iff.mp h
  cases Option.some.inj hs
  exact ⟨disk, _, hdisk, rfl⟩

/-- A page `id` with the bytes `data` has got the frame `f`, which held another page or none. -/
structure Installs (s : BufferPool ρ) (f : FrameId) (id : PageId) (data : PageData)
    (s' : BufferPool ρ) : Prop where
  victim : ∃ s₁, s.findVictimPage = some (f, s₁) ∧ s'.freeList = s₁.freeList ∧
    s'.replacer = Replacer.pin s₁.replacer f
  poolSize : s'.poolSize = s.poolSize
  pageTable : s'.pageTable = assign id f (erase (s.pages f).id s.pageTable)
  pages : s'.pages = Function.update s.pages f ⟨id, data, false, 1⟩

theorem findVictimPage_eq {f : FrameId} (h : s.findVictimPage = some (f, s')) :
    ∃ freeList replacer, s' = { s with freeList := freeList, replacer := replacer } := by
  unfold findVictimPage at h
  split at h
  next hfree =>
    split at h
    · cases h
    · cases Option.some.inj h
      exact ⟨s.freeList, _, rfl⟩
  next =>
    cases Option.some.inj h
    exact ⟨_, s.replacer, rfl⟩

/-- What `fetch_page` can do: the page is in the pool, or no frame is free, or the page is read
into the frame it gets. -/
theorem fetchPage_cases {id : PageId} {r : Option FrameId} (h : s.fetchPage id = some (r, s')) :
    (∃ f, lookup id s.pageTable = some f ∧ r = some f ∧ s' = s.pinFrame f) ∨
    (lookup id s.pageTable = none ∧ r = none ∧ s' = s) ∨
    ∃ f data, lookup id s.pageTable = none ∧ r = some f ∧ s.Installs f id data s' ∧
      (s.pages f).writeBack s.disk = some s'.disk ∧ s'.disk.readPage id = some data := by
  unfold fetchPage at h
  split at h
  next f hf =>
    cases Option.some.inj h
    exact Or.inl ⟨f, hf, rfl, rfl⟩
  next hnone =>
    split at h
    · cases Option.some.inj h
      exact Or.inr (Or.inl ⟨hnone, rfl, rfl⟩)
    next f s₁ hv =>
      obtain ⟨s₂, hup, h⟩ := Option.bind_eq_some_iff.mp h
      obtain ⟨data, hdata, h⟩ := Option.bind_eq_some_iff.mp h
      cases Option.some.inj h
      obtain ⟨freeList, replacer, rfl⟩ := findVictimPage_eq hv
      obtain ⟨disk, log, hdisk, rfl⟩ := updatePage_eq hup
      refine Or.inr (Or.inr ⟨f, data, hnone, rfl, ⟨⟨_, hv, rfl, rfl⟩, rfl, rfl, ?_⟩, hdisk, hdata⟩)
      simp [pinFrame, setPage]

/-- What `new_page` can do. -/
theorem newPage_cases {fd : Fd} {r : Option (PageId × FrameId)}
    (h : s.newPage fd = some (r, s')) :
    (r = none ∧ s' = s) ∨
    ∃ f pageNo disk₀ disk₁, s.disk.allocatePage fd = some (pageNo, disk₀) ∧
      r = some (⟨fd, pageNo⟩, f) ∧ s.Installs f ⟨fd, pageNo⟩ PageData.zero s' ∧
      (s.pages f).writeBack disk₀ = some disk₁ ∧
      disk₁.writePage ⟨fd, pageNo⟩ PageData.zero = some s'.disk := by
  unfold newPage at h
  split at h
  · cases Option.some.inj h
    exact Or.inl ⟨rfl, rfl⟩
  next f s₁ hv =>
    obtain ⟨⟨pageNo, disk₀⟩, halloc, h⟩ := Option.bind_eq_some_iff.mp h
    obtain ⟨s₂, hup, h⟩ := Option.bind_eq_some_iff.mp h
    obtain ⟨disk, hwrite, h⟩ := Option.bind_eq_some_iff.mp h
    cases Option.some.inj h
    obtain ⟨freeList, replacer, rfl⟩ := findVictimPage_eq hv
    obtain ⟨disk₁, log, hdisk, rfl⟩ := updatePage_eq hup
    refine Or.inr ⟨f, pageNo, disk₀, disk₁, halloc, rfl, ⟨⟨_, hv, rfl, rfl⟩, rfl, rfl, ?_⟩,
      hdisk, ?_⟩
    · simp [pinFrame, setPage]
    · simpa [pinFrame, setPage] using hwrite

omit [Replacer ρ] in
/-- What `delete_page` can do to the pool. -/
theorem deletePage_cases {id : PageId} {b : Bool} (h : s.deletePage id = some (b, s')) :
    s' = s ∨
    ∃ f disk, lookup id s.pageTable = some f ∧ (s.pages f).pinCount = 0 ∧
      (s.pages f).writeBack s.disk = some disk ∧ s' = s.dropFrame id f disk := by
  unfold deletePage at h
  split at h
  · cases Option.some.inj h
    exact Or.inl rfl
  next f hf =>
    split at h
    · cases Option.some.inj h
      exact Or.inl rfl
    next hpin =>
      obtain ⟨disk, hdisk, h⟩ := Option.bind_eq_some_iff.mp h
      cases Option.some.inj h
      exact Or.inr ⟨f, disk, hf, by omega, hdisk, rfl⟩

/-- What `unpin_page` can do to the pool. -/
theorem unpinPage_cases (s : BufferPool ρ) (id : PageId) (isDirty : Bool) :
    ((∀ f, lookup id s.pageTable = some f → (s.pages f).pinCount = 0) ∧
      (s.unpinPage id isDirty).2 = s) ∨
    ∃ f, lookup id s.pageTable = some f ∧ 0 < (s.pages f).pinCount ∧
      (s.unpinPage id isDirty).2 = s.unpinFrame f isDirty := by
  unfold unpinPage
  split
  next hnone =>
    refine Or.inl ⟨fun f hf => ?_, rfl⟩
    rw [hnone] at hf
    cases hf
  next f hf =>
    split
    next hpin =>
      refine Or.inl ⟨fun g hg => ?_, rfl⟩
      rw [hf] at hg
      cases Option.some.inj hg
      exact hpin
    next hpin => exact Or.inr ⟨f, hf, Nat.pos_of_ne_zero hpin, rfl⟩

omit [Replacer ρ] in
theorem flushFrame_eq {id : PageId} {f : FrameId} (h : s.flushFrame id f = some s') :
    ∃ disk, s.disk.writePage id (s.pages f).data = some disk ∧
      s' = { s.setPage f { s.pages f with isDirty := false } with disk := disk } := by
  obtain ⟨disk, hdisk, hs⟩ := Option.bind_eq_some_iff.mp h
  cases Option.some.inj hs
  exact ⟨disk, hdisk, rfl⟩

omit [Replacer ρ] in
theorem flushPage_cases {id : PageId} {b : Bool} (h : s.flushPage id = some (b, s')) :
    s' = s ∨ ∃ f, lookup id s.pageTable = some f ∧ s.flushFrame id f = some s' := by
  unfold flushPage at h
  split at h
  · cases Option.some.inj h
    exact Or.inl rfl
  next f hf =>
    obtain ⟨s₁, hs, h⟩ := Option.bind_eq_some_iff.mp h
    cases Option.some.inj h
    exact Or.inr ⟨f, hf, hs⟩

omit [Replacer ρ] in
theorem write_eq {id : PageId} {data : PageData} (h : s.write id data = some s') :
    ∃ f, lookup id s.pageTable = some f ∧ s' = s.setPage f { s.pages f with data := data } := by
  unfold write at h
  split at h
  · cases h
  next f hf =>
    cases Option.some.inj h
    exact ⟨f, hf, rfl⟩

omit [Replacer ρ] in
/-- What flushing one entry of `page_table_` keeps, `flush_all_pages` keeps. -/
theorem flushAllPages_induct {P : BufferPool ρ → Prop} {fd : Fd} (start : P s)
    (keep : ∀ t t' id f, P t → (id, f) ∈ s.pageTable → t.flushFrame id f = some t' → P t')
    (h : s.flushAllPages fd = some s') : P s' := by
  have fold : ∀ (l : List (PageId × FrameId)) (t : BufferPool ρ), (∀ e ∈ l, e ∈ s.pageTable) →
      P t → l.foldlM (fun t entry => if fd = entry.1.fd then t.flushFrame entry.1 entry.2
        else some t) t = some s' → P s' := by
    intro l
    induction l with
    | nil =>
      intro t _ ht h
      cases Option.some.inj h
      exact ht
    | cons e l ih =>
      intro t hl ht h
      rw [List.foldlM_cons] at h
      obtain ⟨t', hstep, h⟩ := Option.bind_eq_some_iff.mp h
      have hrest : ∀ e' ∈ l, e' ∈ s.pageTable := fun e' he' => hl e' (List.mem_cons_of_mem e he')
      refine ih t' hrest ?_ h
      split at hstep
      · exact keep t t' e.1 e.2 ht (hl e List.mem_cons_self) hstep
      · cases Option.some.inj hstep
        exact ht
  exact fold s.pageTable s (fun _ => id) start h

end Steps

end BufferPool

end Grmdb
