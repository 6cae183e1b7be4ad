import Grmdb.PoolCoherence

namespace Grmdb

open AssocMap

/-- What disturbs the disk during one call of the pool: the page that a throwing write leaves on
disk, and what a throwing read leaves in the frame. `none` is a disk call that is not disturbed. -/
structure DiskFaults where
  write : PageId → Option PageData
  read : PageId → Option PageData

def DiskFaults.none : DiskFaults := ⟨fun _ => Option.none, fun _ => Option.none⟩

/-- Whether `write_page` returns, and the disk after it. -/
def DiskFaults.writePage (k : DiskFaults) (disk : DiskManager) (id : PageId) (d : PageData) :
    Bool × DiskManager :=
  match k.write id with
  | some torn => (false, (disk.writePage id torn).getD disk)
  | Option.none =>
    match disk.writePage id d with
    | Option.none => (false, disk)
    | some disk' => (true, disk')

/-- Whether `read_page` returns, and the bytes in the frame after it. -/
def DiskFaults.readPage (k : DiskFaults) (disk : DiskManager) (id : PageId) (data : PageData) :
    Bool × PageData :=
  match k.read id with
  | some left => (false, left)
  | Option.none =>
    match disk.readPage id with
    | Option.none => (false, data)
    | some d => (true, d)

theorem DiskFaults.none_writePage (disk : DiskManager) (id : PageId) (d : PageData) :
    none.writePage disk id d =
      ((disk.writePage id d).isSome, (disk.writePage id d).getD disk) := by
  simp only [writePage, none]
  cases disk.writePage id d <;> rfl

theorem DiskFaults.none_readPage (disk : DiskManager) (id : PageId) (data : PageData) :
    none.readPage disk id data = ((disk.readPage id).isSome, (disk.readPage id).getD data) := by
  simp only [readPage, none]
  cases disk.readPage id <;> rfl

theorem DiskFaults.page_writePage {k : DiskFaults} {disk : DiskManager} {id q : PageId}
    {d : PageData} (hne : q ≠ id) (hpos : 0 ≤ q.pageNo) :
    (k.writePage disk id d).2.page q = disk.page q := by
  have keep : ∀ d', ((disk.writePage id d').getD disk).page q = disk.page q := by
    intro d'
    cases h : disk.writePage id d' with
    | none => rfl
    | some disk' => rw [Option.getD_some, DiskManager.page_writePage h q hpos, if_neg hne]
  unfold writePage
  cases k.write id with
  | some torn => exact keep torn
  | none =>
    have hkeep := keep d
    cases h : disk.writePage id d with
    | none => rfl
    | some disk' => rwa [h] at hkeep

def Page.writeBackUnder (page : Page) (k : DiskFaults) (disk : DiskManager) : Bool × DiskManager :=
  if page.isDirty then k.writePage disk page.id page.data else (true, disk)

theorem Page.page_writeBackUnder {k : DiskFaults} {page : Page} {disk : DiskManager} {q : PageId}
    (hne : q ≠ page.id) (hpos : 0 ≤ q.pageNo) :
    (page.writeBackUnder k disk).2.page q = disk.page q := by
  unfold writeBackUnder
  split
  · exact DiskFaults.page_writePage hne hpos
  · rfl

inductive PoolOutcome where
  | page (id : PageId) (f : FrameId)
  | nullptr
  | throws
  deriving DecidableEq

def PoolOutcome.failed : PoolOutcome → Bool
  | .page .. => false
  | .nullptr | .throws => true

/-- The calls that need a frame. -/
inductive FrameCall where
  | fetchPage (id : PageId)
  | newPage (fd : Fd)
  deriving DecidableEq

namespace BufferPool

variable {ρ : Type}

/-- `update_page` up to the write of the victim. -/
def writtenBack (s : BufferPool ρ) (k : DiskFaults) (f : FrameId) : BufferPool ρ :=
  { s with
    log := s.log.map fun lm =>
      if lm.persistLsn < (s.pages f).data.lsn then lm.flushLogToDisk else lm
    disk := ((s.pages f).writeBackUnder k s.disk).2 }

/-- The rest of `update_page`. -/
def retitled (s : BufferPool ρ) (newPageId : PageId) (f : FrameId) : BufferPool ρ :=
  { s with
    pageTable := assign newPageId f (erase (s.pages f).id s.pageTable)
    pages := Function.update s.pages f ⟨newPageId, PageData.zero, false, 0⟩ }

variable [Replacer ρ]

/-- `fetch_page` with the pool as an exception leaves it. -/
def fetchPageUnder (s : BufferPool ρ) (k : DiskFaults) (id : PageId) :
    PoolOutcome × BufferPool ρ :=
  match lookup id s.pageTable with
  | some f => (.page id f, s.pinFrame f)
  | none =>
    match s.findVictimPage with
    | none => (.nullptr, s)
    | some (f, s) =>
      if ((s.pages f).writeBackUnder k s.disk).1 then
        let s := (s.writtenBack k f).retitled id f
        let read := k.readPage s.disk id (s.pages f).data
        let s := s.setPage f { s.pages f with data := read.2 }
        if read.1 then (.page id f, s.pinFrame f) else (.throws, s)
      else (.throws, s.writtenBack k f)

/-- `new_page` with the pool as an exception leaves it; `none` is the failed assertion. -/
def newPageUnder (s : BufferPool ρ) (k : DiskFaults) (fd : Fd) :
    Option (PoolOutcome × BufferPool ρ) :=
  match s.findVictimPage with
  | none => some (.nullptr, s)
  | some (f, s) =>
    (s.disk.allocatePage fd).map fun (pageNo, disk) =>
      let s := { s with disk := disk }
      if ((s.pages f).writeBackUnder k s.disk).1 then
        let s := ((s.writtenBack k f).retitled ⟨fd, pageNo⟩ f).pinFrame f
        let written := k.writePage s.disk ⟨fd, pageNo⟩ (s.pages f).data
        let s := { s with disk := written.2 }
        if written.1 then (.page ⟨fd, pageNo⟩ f, s) else (.throws, s)
      else (.throws, s.writtenBack k f)

def frameCall (s : BufferPool ρ) (k : DiskFaults) :
    FrameCall → Option (PoolOutcome × BufferPool ρ)
  | .fetchPage id => some (s.fetchPageUnder k id)
  | .newPage fd => s.newPageUnder k fd

section Undisturbed

variable {s s' : BufferPool ρ} {id : PageId} {f : FrameId}

omit [Replacer ρ] in
theorem updatePage_undisturbed (s : BufferPool ρ) (id : PageId) (f : FrameId) :
    s.updatePage id f = if ((s.pages f).writeBackUnder .none s.disk).1 then
      some ((s.writtenBack .none f).retitled id f) else none := by
  unfold updatePage Page.writeBack
  cases hdirty : (s.pages f).isDirty with
  | false => simp [Page.writeBackUnder, hdirty, writtenBack, retitled]
  | true =>
    cases hw : s.disk.writePage (s.pages f).id (s.pages f).data <;>
      simp [Page.writeBackUnder, hdirty, writtenBack, retitled, DiskFaults.none_writePage, hw]

/-- Undisturbed, the call is `fetch_page` as it stands. -/
theorem fetchPage_undisturbed (s : BufferPool ρ) (id : PageId) :
    s.fetchPage id = match s.fetchPageUnder .none id with
      | (.page _ f, s') => some (some f, s')
      | (.nullptr, s') => some (none, s')
      | (.throws, _) => none := by
  unfold fetchPage fetchPageUnder
  cases lookup id s.pageTable with
  | some f => rfl
  | none =>
    cases s.findVictimPage with
    | none => rfl
    | some x =>
      obtain ⟨f, s₁⟩ := x
      simp only [updatePage_undisturbed, DiskFaults.none_readPage]
      by_cases hw : ((s₁.pages f).writeBackUnder .none s₁.disk).1 = true
      · simp only [hw, if_true, Option.bind_eq_bind, Option.bind_some]
        cases hr : ((s₁.writtenBack .none f).retitled id f).disk.readPage id <;> simp
      · simp [hw]

theorem newPage_undisturbed (s : BufferPool ρ) (fd : Fd) :
    s.newPage fd = (s.newPageUnder .none fd).bind fun x => match x with
      | (.page id f, s') => some (some (id, f), s')
      | (.nullptr, s') => some (none, s')
      | (.throws, _) => none := by
  unfold newPage newPageUnder
  cases s.findVictimPage with
  | none => rfl
  | some x =>
    obtain ⟨f, s₁⟩ := x
    dsimp only
    cases s₁.disk.allocatePage fd with
    | none => rfl
    | some y =>
      obtain ⟨pageNo, disk⟩ := y
      simp only [updatePage_undisturbed, Option.bind_eq_bind, Option.bind_some, Option.map_some]
      by_cases hw : ((s₁.pages f).writeBackUnder .none disk).1 = true
      · simp only [hw, if_true, Option.bind_some, DiskFaults.none_writePage]
        generalize
          ((writtenBack { s₁ with disk := disk } .none f).retitled ⟨fd, pageNo⟩ f).pinFrame f = pinned
        cases hr : pinned.disk.writePage ⟨fd, pageNo⟩ (pinned.pages f).data <;> simp
      · simp [hw]

end Undisturbed

/-- A page in the pool has its contents there, any other one on disk. -/
structure Shows (s : BufferPool ρ) (contents : PageId → PageData) : Prop where
  frames : s.FrameInv
  cached : ∀ id f, lookup id s.pageTable = some f → (s.pages f).data = contents id
  stored : ∀ id, 0 ≤ id.pageNo → lookup id s.pageTable = none →
    ∀ d, s.disk.page id = some d → d = contents id

/-- Clients give up pins. -/
def unpinAll (s : BufferPool ρ) (pins : List (PageId × Bool)) : BufferPool ρ :=
  pins.foldl (fun s pin => (s.unpinPage pin.1 pin.2).2) s

/-- What the page of a call should hold. -/
def content (contents : PageId → PageData) (id : PageId) : FrameCall → PageData
  | .fetchPage _ => contents id
  | .newPage _ => PageData.zero

/-- A call that has failed with the outcome `r` left the pool as it should: no frame and no dirty
page is lost, no page is mapped to other bytes than its own, and the call can be made again. -/
structure FailsCleanly (s : BufferPool ρ) (contents : PageId → PageData) (c : FrameCall)
    (r : PoolOutcome) (s' : BufferPool ρ) : Prop where
  frames : s'.FrameInv
  listed : ∀ f, f ∈ s.freeList ∨ Replacer.Holds s.replacer f →
    f ∈ s'.freeList ∨ Replacer.Holds s'.replacer f
  cached : ∀ id f, lookup id s'.pageTable = some f → (s'.pages f).data = contents id
  dirty : ∀ id f, lookup id s.pageTable = some f → (s.pages f).isDirty = true →
    lookup id s'.pageTable = some f ∧ (s'.pages f).isDirty = true ∨
      s'.disk.page id = some (contents id)
  retried : ∀ pins id f u, (s'.unpinAll pins).frameCall .none c = some (.page id f, u) →
    (u.pages f).data = content contents id c
  frameLeft : r = .throws → ∀ u, s'.frameCall .none c ≠ some (.nullptr, u)

/-- No disk call throws, but for those that find the frame, taken from the free list, still in the
replacer, and of these a read only when it leaves the bytes of the page in the frame. -/
def Harmless (s : BufferPool ρ) (k : DiskFaults) (contents : PageId → PageData) :
    FrameCall → Prop
  | .fetchPage id => lookup id s.pageTable = none → ∀ f s₁, s.findVictimPage = some (f, s₁) →
    let written := (s.pages f).writeBackUnder k s.disk
    let read := k.readPage written.2 id PageData.zero
    if written.1 then
      read.1 = true ∨ Replacer.Holds s₁.replacer f ∧ id.pageNo ≠ INVALID_PAGE_ID ∧
        read.2 = contents id
    else Replacer.Holds s₁.replacer f
  | .newPage fd => ∀ f s₁ pageNo disk, s.findVictimPage = some (f, s₁) →
    s.disk.allocatePage fd = some (pageNo, disk) →
    let written := (s.pages f).writeBackUnder k disk
    if written.1 then (k.writePage written.2 ⟨fd, pageNo⟩ PageData.zero).1 = true
    else Replacer.Holds s₁.replacer f

section Retry

variable {s s' : BufferPool ρ} {contents : PageId → PageData} {id : PageId} {f : FrameId}

theorem Shows.unpinPage (h : s.Shows contents) (id : PageId) (isDirty : Bool) :
    (s.unpinPage id isDirty).2.Shows contents := by
  rcases s.unpinPage_cases id isDirty with ⟨-, heq⟩ | ⟨f, hf, -, heq⟩
  · rw [heq]
    exact h
  · rw [heq]
    refine ⟨h.frames.unpinFrame hf isDirty, fun id g hg => ?_, h.stored⟩
    rw [← h.cached id g hg]
    by_cases hgf : g = f
    · cases isDirty <;> simp [unpinFrame, setPage, hgf]
    · simp [unpinFrame, setPage, Function.update_of_ne hgf]

theorem Shows.unpinAll (h : s.Shows contents) (pins : List (PageId × Bool)) :
    (s.unpinAll pins).Shows contents := by
  induction pins generalizing s with
  | nil => exact h
  | cons pin pins ih => exact ih (h.unpinPage pin.1 pin.2)

/-- The frame of a page that is not in the pool held another page. -/
theorem FrameInv.ne_victim (h : s.FrameInv) (hv : s.findVictimPage = some (f, s'))
    (hnone : lookup id s.pageTable = none) (hpos : 0 ≤ id.pageNo) : id ≠ (s.pages f).id := by
  intro heq
  have hvalid : id.pageNo ≠ INVALID_PAGE_ID := by
    simp only [INVALID_PAGE_ID]
    lia
  have hlook := (h.table id f).mpr ⟨(h.victim hv).1, heq.symm, hvalid⟩
  rw [hnone] at hlook
  cases hlook

theorem page_of_fetch {k : DiskFaults} {id' : PageId}
    (h : s.fetchPageUnder k id' = (.page id f, s')) : id' = id := by
  unfold fetchPageUnder at h
  split at h
  · cases h
    rfl
  · split at h
    · cases h
    · dsimp only at h
      split at h
      · split at h
        · cases h
          rfl
        · cases h
      · cases h

/-- An undisturbed call that answers brings the right bytes. -/
theorem Shows.answer (h : s.Shows contents) {c : FrameCall}
    (hc : s.frameCall .none c = some (.page id f, s')) :
    (s'.pages f).data = content contents id c := by
  cases c with
  | fetchPage id' =>
    obtain rfl := page_of_fetch (Option.some.inj hc)
    have hfetch : s.fetchPage id' = some (some f, s') := by
      rw [fetchPage_undisturbed, Option.some.inj hc]
    rcases fetchPage_cases hfetch with ⟨g, hg, heq, rfl⟩ | ⟨-, heq, -⟩ |
      ⟨g, data, hnone, heq, hi, hw, hread⟩
    · cases heq
      rw [content, ← h.cached id' f hg]
      simp [pinFrame, setPage]
    · cases heq
    · cases heq
      obtain ⟨hpage, hpos⟩ := DiskManager.readPage_eq hread
      obtain ⟨s₁, hv, -⟩ := hi.victim
      have hne := h.frames.ne_victim hv hnone hpos
      have hdata : data = contents id' := by
        refine h.stored id' hpos hnone data ?_
        rw [← hpage, Traced.page_writeBack hw hpos, if_neg fun heq => hne heq.2]
      rw [hi.pages, Function.update_self]
      exact hdata
  | newPage fd =>
    have hnew : s.newPage fd = some (some (id, f), s') := by
      rw [newPage_undisturbed, show s.newPageUnder .none fd = _ from hc]
      rfl
    rcases newPage_cases hnew with ⟨heq, -⟩ | ⟨g, pageNo, disk₀, disk₁, -, heq, hi, -, -⟩
    · cases heq
    · cases heq
      rw [hi.pages, Function.update_self]
      rfl

end Retry

section Equations

variable {s s₁ : BufferPool ρ} {id : PageId} {f : FrameId}

theorem fetchPageUnder_of_victim (k : DiskFaults) (hlook : lookup id s.pageTable = none)
    (hv : s.findVictimPage = some (f, s₁)) :
    s.fetchPageUnder k id =
      let written := (s.pages f).writeBackUnder k s.disk
      let read := k.readPage written.2 id PageData.zero
      let t := ((s₁.writtenBack k f).retitled id f).setPage f ⟨id, read.2, false, 0⟩
      if written.1 then if read.1 then (.page id f, t.pinFrame f) else (.throws, t)
      else (.throws, s₁.writtenBack k f) := by
  simp only [fetchPageUnder, hlook, hv]
  obtain ⟨freeList, replacer, rfl⟩ := findVictimPage_eq hv
  simp [retitled, writtenBack]

theorem newPageUnder_of_victim (k : DiskFaults) {fd : Fd} {pageNo : PageNo} {disk : DiskManager}
    (hv : s.findVictimPage = some (f, s₁)) (halloc : s.disk.allocatePage fd = some (pageNo, disk)) :
    s.newPageUnder k fd =
      let written := (s.pages f).writeBackUnder k disk
      let wrote := k.writePage written.2 ⟨fd, pageNo⟩ PageData.zero
      let back := BufferPool.writtenBack { s₁ with disk := disk } k f
      let t := { (back.retitled ⟨fd, pageNo⟩ f).pinFrame f with disk := wrote.2 }
      if written.1 then if wrote.1 then some (.page ⟨fd, pageNo⟩ f, t) else some (.throws, t)
      else some (.throws, back) := by
  simp only [newPageUnder, hv]
  obtain ⟨freeList, replacer, rfl⟩ := findVictimPage_eq hv
  simp only [halloc, Option.map_some]
  split
  · simp [retitled, writtenBack, pinFrame, setPage]
    split <;> rfl
  · rfl

end Equations

section Throws

variable {s s₁ : BufferPool ρ} {contents : PageId → PageData} {id : PageId} {f : FrameId}
  {k : DiskFaults}

/-- Only a frame from the free list can still be in the replacer when it is taken. -/
theorem mem_freeList_of_taken (hv : s.findVictimPage = some (f, s₁))
    (hleft : Replacer.Holds s₁.replacer f) : f ∈ s.freeList := by
  unfold findVictimPage at hv
  split at hv
  next hfree =>
    split at hv
    · cases hv
    next g replacer hvictim =>
      cases hv
      exact absurd rfl ((Replacer.holds_victim hvictim f).mp hleft).2
  next g freeList hfree =>
    cases hv
    simp [hfree]

/-- Which frames are to be had when one has been taken. -/
theorem FrameInv.holds_taken (h : s.FrameInv) (hv : s.findVictimPage = some (f, s₁)) {g : FrameId}
    (hg : g ≠ f) : Replacer.Holds s₁.replacer g ↔ Replacer.Holds s.replacer g := by
  have hholds := (h.victim hv).2.2.2.2 g
  rw [Replacer.holds_pin] at hholds
  tauto

/-- The frames other than the one that is taken keep their places. -/
theorem FrameInv.listed_taken (h : s.FrameInv) (hv : s.findVictimPage = some (f, s₁))
    {g : FrameId} (hg : g ≠ f) (hlisted : g ∈ s.freeList ∨ Replacer.Holds s.replacer g) :
    g ∈ s₁.freeList ∨ Replacer.Holds s₁.replacer g := by
  rw [(h.victim hv).2.2.2.1, h.holds_taken hv hg]
  tauto

/-- A frame that is taken and still in the replacer is as good as not taken. -/
theorem FrameInv.taken (h : s.FrameInv) (hv : s.findVictimPage = some (f, s₁))
    (hleft : Replacer.Holds s₁.replacer f) : s₁.FrameInv := by
  obtain ⟨hsize, hpin, hnodup, hmem, -⟩ := h.victim hv
  obtain ⟨freeList, replacer, rfl⟩ := findVictimPage_eq hv
  have hholds : ∀ g, g ≠ f → (Replacer.Holds replacer g ↔ Replacer.Holds s.replacer g) :=
    fun g hg => h.holds_taken hv hg
  refine ⟨h.keys, h.table, fun g hg => ?_, hnodup, fun g hg => h.free g ((hmem g).mp hg).1,
    fun g hg => ?_, fun g hg => ?_⟩
  · have hgf : g ≠ f := by
      rintro rfl
      exact absurd hpin hg.ne'
    obtain ⟨hfree, hnot⟩ := h.pinned g hg
    exact ⟨fun hmem' => hfree ((hmem g).mp hmem').1, fun hh => hnot ((hholds g hgf).mp hh)⟩
  · by_cases hgf : g = f
    · exact hgf ▸ hsize
    · exact h.candidates g ((hholds g hgf).mp hg)
  · by_cases hgf : g = f
    · exact .inr (.inl (hgf ▸ hleft))
    · rcases h.placed g hg with hp | hp | hp
      · exact .inl hp
      · exact .inr (.inl ((hholds g hgf).mpr hp))
      · exact .inr (.inr ((hmem g).mpr ⟨hp, hgf⟩))

/-- Of the replacer only the frames in it count. -/
theorem FrameInv.relist (h : s.FrameInv) (replacer : ρ)
    (hholds : ∀ g, Replacer.Holds replacer g ↔ Replacer.Holds s.replacer g) :
    FrameInv { s with replacer := replacer } where
  keys := h.keys
  table := h.table
  pinned g hg := by
    rw [hholds]
    exact h.pinned g hg
  nodup := h.nodup
  free := h.free
  candidates g hg := h.candidates g ((hholds g).mp hg)
  placed g hg := by
    rw [hholds]
    exact h.placed g hg

/-- The write of the victim has thrown, or has been made. -/
theorem Shows.writtenBack (h : s.Shows contents) (hv : s.findVictimPage = some (f, s₁))
    (hleft : Replacer.Holds s₁.replacer f) {disk : DiskManager}
    (hdisk : disk.openFiles = s.disk.openFiles) :
    (BufferPool.writtenBack { s₁ with disk := disk } k f).Shows contents := by
  have hframes := h.frames.taken hv hleft
  obtain ⟨freeList, replacer, rfl⟩ := findVictimPage_eq hv
  refine ⟨hframes.congr rfl rfl rfl rfl fun g => ⟨rfl, rfl⟩, h.cached, ?_⟩
  intro id hpos hnone d hd
  have hne := h.frames.ne_victim hv hnone hpos
  have hpage : (((s.pages f).writeBackUnder k disk).2).page id = some d := hd
  rw [Page.page_writeBackUnder hne hpos, DiskManager.page, hdisk] at hpage
  exact h.stored id hpos hnone d hpage

/-- The read has thrown, and the frame has the bytes of the page all the same. -/
theorem Shows.readThrown (h : s.Shows contents) (hv : s.findVictimPage = some (f, s₁))
    (hleft : Replacer.Holds s₁.replacer f) (hnone : lookup id s.pageTable = none)
    (hno : id.pageNo ≠ INVALID_PAGE_ID) :
    Shows (((s₁.writtenBack k f).retitled id f).setPage f ⟨id, contents id, false, 0⟩)
      contents := by
  have hvictim : (s.pages f).id.pageNo = INVALID_PAGE_ID :=
    (h.frames.free f (mem_freeList_of_taken hv hleft)).2
  have hdisk : s₁.disk.openFiles = s.disk.openFiles := by
    obtain ⟨freeList, replacer, rfl⟩ := findVictimPage_eq hv
    rfl
  have hback := h.writtenBack (k := k) hv hleft hdisk
  obtain ⟨freeList, replacer, rfl⟩ := findVictimPage_eq hv
  set t : BufferPool ρ := ((BufferPool.writtenBack
    { s with freeList := freeList, replacer := replacer } k f).retitled id f).setPage f
      ⟨id, contents id, false, 0⟩ with ht
  have hi : s.Installs f id (contents id) (t.pinFrame f) := by
    refine ⟨⟨_, hv, rfl, rfl⟩, rfl, rfl, ?_⟩
    simp [ht, pinFrame, setPage, retitled, BufferPool.writtenBack]
  have hlook : lookup id (t.pinFrame f).pageTable = some f := by
    rw [hi.pageTable, lookup_assign, if_pos rfl]
  have hself : t.pages f = ⟨id, contents id, false, 0⟩ := Function.update_self ..
  have hother : ∀ g, g ≠ f → t.pages g = s.pages g := by
    intro g hg
    simp [ht, setPage, retitled, BufferPool.writtenBack, Function.update_of_ne hg]
  have hrelisted : ((t.pinFrame f).unpinFrame f false).replacer =
      Replacer.unpin (Replacer.pin replacer f) f := by
    simp [unpinFrame, pinFrame, setPage, ht, retitled, BufferPool.writtenBack]
  have hframes := ((h.frames.install hi hnone hno).unpinFrame hlook false).relist replacer ?_
  · refine ⟨hframes.congr rfl rfl rfl rfl fun g => ?_, fun id' g hg => ?_,
      fun id' hpos hout d hd => ?_⟩
    · by_cases hgf : g = f
      · subst hgf
        rw [hself]
        simp [unpinFrame, setPage, hi.pages]
      · rw [hother g hgf]
        simp [unpinFrame, setPage, hi.pages, Function.update_of_ne hgf]
    · rw [show t.pageTable = assign id f (erase (s.pages f).id s.pageTable) from rfl,
        lookup_assign, lookup_erase] at hg
      by_cases hid : id = id'
      · rw [if_pos hid] at hg
        cases hg
        rw [hself, hid]
      · rw [if_neg hid] at hg
        by_cases hold : (s.pages f).id = id'
        · rw [if_pos hold] at hg
          cases hg
        · rw [if_neg hold] at hg
          have hgf : g ≠ f := by
            rintro rfl
            exact hold (h.frames.id_eq hg)
          rw [hother g hgf]
          exact h.cached id' g hg
    · have hold : (s.pages f).id ≠ id' := by
        rintro rfl
        rw [hvictim] at hpos
        exact absurd hpos (by decide)
      rw [show t.pageTable = assign id f (erase (s.pages f).id s.pageTable) from rfl,
        lookup_assign, lookup_erase, if_neg hold] at hout
      by_cases hid : id = id'
      · rw [if_pos hid] at hout
        cases hout
      · rw [if_neg hid] at hout
        exact hback.stored id' hpos hout d hd
  · intro g
    rw [hrelisted, Replacer.holds_unpin, Replacer.holds_pin]
    by_cases hgf : g = f
    · simp [hgf, hleft]
    · simp [hgf]

end Throws

theorem findVictimPage_of_nullptr {s u : BufferPool ρ} {k : DiskFaults} {c : FrameCall}
    (h : s.frameCall k c = some (.nullptr, u)) :
    s.findVictimPage = none ∧ ∀ id, c = .fetchPage id → lookup id s.pageTable = none := by
  cases c with
  | fetchPage id =>
    have hc := Option.some.inj h
    unfold fetchPageUnder at hc
    split at hc
    · cases hc
    next hnone =>
      split at hc
      next hv => exact ⟨hv, fun id' heq => by cases heq; exact hnone⟩
      · dsimp only at hc
        split at hc
        · split at hc <;> cases hc
        · cases hc
  | newPage fd =>
    simp only [frameCall, newPageUnder] at h
    split at h
    next hv => exact ⟨hv, fun id' heq => by cases heq⟩
    · obtain ⟨⟨pageNo, disk⟩, -, hc⟩ := Option.map_eq_some_iff.mp h
      dsimp only at hc
      split at hc
      · split at hc <;> cases hc
      · cases hc

theorem findVictimPage_ne_none {s : BufferPool LRUReplacer} {f : FrameId}
    (hf : f ∈ s.replacer.lruList) : s.findVictimPage ≠ none := by
  unfold findVictimPage
  cases s.freeList with
  | cons g freeList => simp
  | nil =>
    cases hv : Replacer.victim s.replacer with
    | some x => simp
    | none =>
      have hnone : s.replacer.victim = none := hv
      unfold LRUReplacer.victim at hnone
      split at hnone
      next hlast =>
        rw [List.getLast?_eq_none_iff.mp hlast] at hf
        cases hf
      next => cases hnone

section Clean

variable {s s₁ s' : BufferPool LRUReplacer} {contents : PageId → PageData} {c : FrameCall}
  {r : PoolOutcome} {id : PageId} {f : FrameId} {k : DiskFaults}

theorem FailsCleanly.of_shows (h : s'.Shows contents)
    (hlisted : ∀ f, f ∈ s.freeList ∨ Replacer.Holds s.replacer f →
      f ∈ s'.freeList ∨ Replacer.Holds s'.replacer f)
    (hdirty : ∀ id f, lookup id s.pageTable = some f → (s.pages f).isDirty = true →
      lookup id s'.pageTable = some f ∧ (s'.pages f).isDirty = true ∨
        s'.disk.page id = some (contents id))
    (hleft : r = .throws → ∀ u, s'.frameCall .none c ≠ some (.nullptr, u)) :
    s.FailsCleanly contents c r s' where
  frames := h.frames
  listed := hlisted
  cached := h.cached
  dirty := hdirty
  retried pins _ _ _ hc := (h.unpinAll pins).answer hc
  frameLeft := hleft

/-- Where no frame is lost, the one that was taken has to be in the replacer. -/
theorem FrameInv.holds_of_listed (h : s.FrameInv) (hv : s.findVictimPage = some (f, s₁))
    {replacer : LRUReplacer} (hlisted : ∀ g, g ∈ s.freeList ∨ Replacer.Holds s.replacer g →
      g ∈ s₁.freeList ∨ Replacer.Holds replacer g) : Replacer.Holds replacer f := by
  have hvictim : f ∈ s.freeList ∨ Replacer.Holds s.replacer f := by
    rcases h.placed f (h.victim hv).1 with hp | hp | hp
    · exact absurd (h.victim hv).2.1 hp.ne'
    · exact .inr hp
    · exact .inl hp
  rcases hlisted f hvictim with hmem | hholds
  · rw [(h.victim hv).2.2.2.1] at hmem
    exact absurd rfl hmem.2
  · exact hholds

theorem writeThrown_iff (h : s.Shows contents) (hv : s.findVictimPage = some (f, s₁))
    {disk : DiskManager} (hdisk : disk.openFiles = s.disk.openFiles) :
    s.FailsCleanly contents c .throws (BufferPool.writtenBack { s₁ with disk := disk } k f) ↔
      Replacer.Holds s₁.replacer f := by
  constructor
  · intro hclean
    exact h.frames.holds_of_listed hv hclean.listed
  · intro hleft
    refine .of_shows (h.writtenBack hv hleft hdisk) (fun g hg => ?_) (fun id g hg hdirty => ?_)
      fun _ u hcall => ?_
    · by_cases hgf : g = f
      · exact .inr (hgf ▸ hleft)
      · exact h.frames.listed_taken hv hgf hg
    · obtain ⟨freeList, replacer, rfl⟩ := findVictimPage_eq hv
      exact .inl ⟨hg, hdirty⟩
    · have hin : f ∈ (BufferPool.writtenBack { s₁ with disk := disk } k f).replacer.lruList := hleft
      exact findVictimPage_ne_none hin (findVictimPage_of_nullptr hcall).1

theorem readThrown_iff (h : s.Shows contents) (hv : s.findVictimPage = some (f, s₁))
    (hnone : lookup id s.pageTable = none) {left : PageData} :
    s.FailsCleanly contents (.fetchPage id) .throws
      (((s₁.writtenBack k f).retitled id f).setPage f ⟨id, left, false, 0⟩) ↔
      Replacer.Holds s₁.replacer f ∧ id.pageNo ≠ INVALID_PAGE_ID ∧ left = contents id := by
  have hlook : lookup id (((s₁.writtenBack k f).retitled id f).setPage f
      ⟨id, left, false, 0⟩).pageTable = some f := by
    simp only [setPage, retitled, lookup_assign, if_true]
  constructor
  · intro hclean
    have hdata : left = contents id := by
      simpa [setPage] using hclean.cached id f hlook
    exact ⟨h.frames.holds_of_listed hv hclean.listed, ((hclean.frames.table id f).mp hlook).2.2,
      hdata⟩
  · rintro ⟨hleft, hno, rfl⟩
    refine .of_shows (h.readThrown hv hleft hnone hno) (fun g hg => ?_) (fun id' g hg hdirty => ?_)
      fun _ u hcall => ?_
    · by_cases hgf : g = f
      · exact .inr (hgf ▸ hleft)
      · exact h.frames.listed_taken hv hgf hg
    · have hfree := mem_freeList_of_taken hv hleft
      have hgf : g ≠ f := by
        rintro rfl
        exact h.frames.not_free hg hfree
      have hnew : id ≠ id' := by
        rintro rfl
        rw [hnone] at hg
        cases hg
      have hold : (s.pages f).id ≠ id' := by
        intro heq
        have hno' := ((h.frames.table id' g).mp hg).2.2
        rw [← heq, (h.frames.free f hfree).2] at hno'
        exact hno' rfl
      obtain ⟨freeList, replacer, rfl⟩ := findVictimPage_eq hv
      refine .inl ⟨?_, ?_⟩
      · simp only [setPage, retitled, writtenBack, lookup_assign, lookup_erase, if_neg hnew,
          if_neg hold, hg]
      · simpa [setPage, retitled, writtenBack, Function.update_of_ne hgf] using hdirty
    · have hout := (findVictimPage_of_nullptr hcall).2 id rfl
      rw [hlook] at hout
      cases hout

/-- The frame stays pinned, and nobody has got its page. -/
theorem newThrown_not_clean (h : s.Shows contents) (hv : s.findVictimPage = some (f, s₁))
    {disk disk' : DiskManager} :
    ¬ s.FailsCleanly contents c .throws
      { ((BufferPool.writtenBack { s₁ with disk := disk } k f).retitled id f).pinFrame f with
        disk := disk' } := by
  intro hclean
  have hholds : Replacer.Holds (Replacer.pin s₁.replacer f) f :=
    h.frames.holds_of_listed hv hclean.listed
  exact ((Replacer.holds_pin s₁.replacer f f).mp hholds).2 rfl

theorem nullptr_clean (h : s.Shows contents) : s.FailsCleanly contents c .nullptr s := by
  refine .of_shows h (fun f hf => hf) (fun id f hf hdirty => .inl ⟨hf, hdirty⟩) fun hr => ?_
  cases hr

/-- Every failing end of the call is clean. -/
def FailuresClean (s : BufferPool LRUReplacer) (k : DiskFaults) (contents : PageId → PageData)
    (c : FrameCall) : Prop :=
  ∀ r s', s.frameCall k c = some (r, s') → r.failed = true → s.FailsCleanly contents c r s'

theorem fetchPage_clean_iff (h : s.Shows contents) (k : DiskFaults) (id : PageId) :
    s.FailuresClean k contents (.fetchPage id) ↔ s.Harmless k contents (.fetchPage id) := by
  cases hlook : lookup id s.pageTable with
  | some f => simp [FailuresClean, Harmless, frameCall, fetchPageUnder, hlook, PoolOutcome.failed]
  | none =>
    cases hv : s.findVictimPage with
    | none =>
      simp [FailuresClean, Harmless, frameCall, fetchPageUnder, hlook, hv, nullptr_clean h]
    | some x =>
      obtain ⟨f, s₁⟩ := x
      have hcall := fetchPageUnder_of_victim k hlook hv
      have hharmless : s.Harmless k contents (.fetchPage id) ↔ _ :=
        ⟨fun hh => hh hlook f s₁ hv, fun hh _ f' s' hv' => by
          cases hv.symm.trans hv'
          exact hh⟩
      rw [hharmless]
      simp only [FailuresClean, frameCall, hcall, Option.some.injEq]
      by_cases hw : ((s.pages f).writeBackUnder k s.disk).1 = true
      · simp only [if_pos hw]
        cases hr : (k.readPage ((s.pages f).writeBackUnder k s.disk).2 id PageData.zero).1 with
        | true => simp [PoolOutcome.failed]
        | false =>
          rw [← @readThrown_iff s s₁ contents id f k h hv hlook]
          simp [PoolOutcome.failed]
      · simp only [if_neg hw]
        rw [← @writeThrown_iff s s₁ contents (.fetchPage id) f k h hv s.disk rfl]
        obtain ⟨freeList, replacer, rfl⟩ := findVictimPage_eq hv
        simp [PoolOutcome.failed]

theorem newPage_clean_iff (h : s.Shows contents) (k : DiskFaults) (fd : Fd) :
    s.FailuresClean k contents (.newPage fd) ↔ s.Harmless k contents (.newPage fd) := by
  cases hv : s.findVictimPage with
  | none => simp [FailuresClean, Harmless, frameCall, newPageUnder, hv, nullptr_clean h]
  | some x =>
    obtain ⟨f, s₁⟩ := x
    cases halloc : s.disk.allocatePage fd with
    | none =>
      have hdisk : s₁.disk = s.disk := by
        obtain ⟨freeList, replacer, rfl⟩ := findVictimPage_eq hv
        rfl
      simp [FailuresClean, Harmless, frameCall, newPageUnder, hv, halloc, hdisk]
    | some y =>
      obtain ⟨pageNo, disk⟩ := y
      have hcall := newPageUnder_of_victim k hv halloc
      have hharmless : s.Harmless k contents (.newPage fd) ↔ _ :=
        ⟨fun hh => hh f s₁ pageNo disk hv halloc, fun hh f' s' pageNo' disk' hv' halloc' => by
          cases hv.symm.trans hv'
          cases halloc.symm.trans halloc'
          exact hh⟩
      rw [hharmless]
      simp only [FailuresClean, frameCall, hcall]
      by_cases hw : ((s.pages f).writeBackUnder k disk).1 = true
      · simp only [if_pos hw]
        cases hr : (k.writePage ((s.pages f).writeBackUnder k disk).2 ⟨fd, pageNo⟩
            PageData.zero).1 with
        | true => simp [PoolOutcome.failed]
        | false => simp [PoolOutcome.failed, newThrown_not_clean h hv]
      · simp only [if_neg hw]
        rw [← @writeThrown_iff s s₁ contents (.newPage fd) f k h hv disk
          (DiskManager.allocatePage_openFiles halloc)]
        simp [PoolOutcome.failed]

/-- The failures of a call are clean when no disk call throws, but for throws that find the frame
in the replacer too, where a `delete_page` has left it. -/
theorem failuresClean_iff (h : s.Shows contents) (k : DiskFaults) (c : FrameCall) :
    s.FailuresClean k contents c ↔ s.Harmless k contents c := by
  cases c with
  | fetchPage id => exact fetchPage_clean_iff h k id
  | newPage fd => exact newPage_clean_iff h k fd

end Clean

end BufferPool

theorem Traced.Coherent.shows {ρ : Type} [Replacer ρ] {t : Traced ρ} (h : t.Coherent) :
    t.pool.Shows t.contents where
  frames := h.frames
  cached := h.cached
  stored id hpos hnone := h.synced id hpos fun f hf => by
    rw [hnone] at hf
    cases hf

theorem oneFramePool_coherent {calls : List PoolCall} {t : Traced LRUReplacer}
    (hrun : Runs.run Traced.step (Traced.start oneFramePool) (calls.map .call) = some t)
    (hclients : Runs.MeetsAll Traced.step Traced.Disciplined (Traced.start oneFramePool)
      (calls.map .call)) : t.Coherent := by
  have hstart : (Traced.start oneFramePool).Coherent :=
    Traced.coherent_start (BufferPool.frameInv_start 1 0 (fun f hf => List.not_mem_nil hf) _ _) rfl
  have hopen : Runs.MeetsAll Traced.step Traced.CleanOpen (Traced.start oneFramePool)
      (calls.map .call) := by
    refine Runs.meetsAll_of_mem fun e he t => ?_
    obtain ⟨c, -, rfl⟩ := List.mem_map.mp he
    trivial
  exact Runs.run_invariant (fun _ _ _ ht hg hs => ht.step hg.1 hg.2 hs) hstart
    (Runs.meetsAll_and hclients hopen) hrun

/-- Every write throws and leaves zeros. -/
def diskFull : DiskFaults := ⟨fun _ => some PageData.zero, fun _ => none⟩

/-- The only frame is pinned: `fetch_page` answers with `nullptr`. -/
theorem failuresClean_pinned : ∃ t,
    Runs.run Traced.step (Traced.start oneFramePool) [.call (.newPage 3)] = some t ∧
    t.pool.FailuresClean diskFull t.contents (.fetchPage ⟨3, 1⟩) := by
  obtain ⟨t, hrun⟩ := Option.isSome_iff_exists.mp (show (Runs.run Traced.step
    (Traced.start oneFramePool) [.call (.newPage 3)]).isSome from by decide +kernel)
  have hclients : Runs.MeetsAll Traced.step Traced.Disciplined (Traced.start oneFramePool)
      ([PoolCall.newPage 3].map .call) := by decide +kernel
  have hshows := (@oneFramePool_coherent [.newPage 3] t hrun hclients).shows
  refine ⟨t, hrun, (BufferPool.failuresClean_iff hshows diskFull _).mpr ?_⟩
  have hvictim : (Runs.run Traced.step (Traced.start oneFramePool) [.call (.newPage 3)]).map
      (fun t => t.pool.findVictimPage.isNone) = some true := by decide +kernel
  rw [hrun, Option.map_some, Option.some.injEq, Option.isNone_iff_eq_none] at hvictim
  intro _ f s₁ hv
  rw [hvictim] at hv
  cases hv

/-- The page in the only frame is dirty, and the write of it throws: the frame is lost. -/
theorem not_failuresClean_diskFull : ∃ t,
    Runs.run Traced.step (Traced.start oneFramePool)
      ([PoolCall.newPage 3, .unpinPage ⟨3, 0⟩ true].map .call) = some t ∧
    t.pool.Shows t.contents ∧
    ¬ t.pool.FailuresClean diskFull t.contents (.fetchPage ⟨3, 1⟩) := by
  obtain ⟨t, hrun⟩ := Option.isSome_iff_exists.mp (show (Runs.run Traced.step
    (Traced.start oneFramePool) ([PoolCall.newPage 3, .unpinPage ⟨3, 0⟩ true].map .call)).isSome
    from by decide +kernel)
  have hclients : Runs.MeetsAll Traced.step Traced.Disciplined (Traced.start oneFramePool)
      ([PoolCall.newPage 3, .unpinPage ⟨3, 0⟩ true].map .call) := by decide +kernel
  refine ⟨t, hrun, (oneFramePool_coherent hrun hclients).shows, fun hclean => ?_⟩
  have hlists : (Runs.run Traced.step (Traced.start oneFramePool)
      ([PoolCall.newPage 3, .unpinPage ⟨3, 0⟩ true].map .call)).map (fun t =>
        (t.pool.replacer.lruList, (t.pool.fetchPageUnder diskFull ⟨3, 1⟩).1,
          (t.pool.fetchPageUnder diskFull ⟨3, 1⟩).2.freeList,
          (t.pool.fetchPageUnder diskFull ⟨3, 1⟩).2.replacer.lruList)) =
      some ([0], .throws, [], []) := by decide +kernel
  rw [hrun, Option.map_some, Option.some.injEq] at hlists
  simp only [Prod.mk.injEq] at hlists
  obtain ⟨hbefore, houtcome, hfree, hlru⟩ := hlists
  have hfail := hclean _ _ (show t.pool.frameCall diskFull (.fetchPage ⟨3, 1⟩) =
    some (.throws, (t.pool.fetchPageUnder diskFull ⟨3, 1⟩).2) by
      rw [← houtcome]
      rfl) rfl
  have hin : (0 : FrameId) ∈ t.pool.replacer.lruList := by simp [hbefore]
  rcases hfail.listed 0 (.inr hin) with hmem | hmem
  · rw [hfree] at hmem
    cases hmem
  · have hmem : (0 : FrameId) ∈ (t.pool.fetchPageUnder diskFull ⟨3, 1⟩).2.replacer.lruList := hmem
    rw [hlru] at hmem
    cases hmem

end Grmdb
