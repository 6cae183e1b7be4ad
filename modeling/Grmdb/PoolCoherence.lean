import Grmdb.FrameInvariant

namespace Grmdb

open AssocMap Runs

/-- The pool with what its clients have done to the pages: `changed` marks the pages that were
changed after the last `unpin_page(id, true)`, `contents` holds the bytes last written to each
page of the file open under its descriptor. `opening` counts how often a descriptor was opened,
and `loaded` is that count when the page of a frame came into the pool. -/
structure Traced (ρ : Type) where
  pool : BufferPool ρ
  changed : PageId → Bool
  contents : PageId → PageData
  opening : Fd → Nat
  loaded : FrameId → Nat

inductive FileEvent where
  | call (c : PoolCall)
  | createFile (path : Path)
  | openFile (path : Path) (fd : Fd)
  | closeFile (fd : Fd)
  | destroyFile (path : Path)
  | setFd2pageno (fd : Fd) (startPageNo : PageNo)
  deriving DecidableEq

namespace Traced

variable {ρ : Type}

/-- What the files have before the first call. -/
def start (pool : BufferPool ρ) : Traced ρ where
  pool := pool
  changed := fun _ => false
  contents := fun id => (pool.disk.page id).getD PageData.zero
  opening := fun _ => 0
  loaded := fun _ => 0

def withDisk (t : Traced ρ) (disk : DiskManager) : Traced ρ :=
  { t with pool := { t.pool with disk := disk } }

variable [Replacer ρ]

omit [Replacer ρ] in
def changedBy (t : Traced ρ) : PoolCall → PageId → Bool
  | .write id _ => Function.update t.changed id true
  | .unpinPage id true => Function.update t.changed id false
  | _ => t.changed

def contentsBy (t : Traced ρ) : PoolCall → PageId → PageData
  | .write id data => Function.update t.contents id data
  | .newPage fd =>
    match t.pool.newPage fd with
    | some (some (id, _), _) => Function.update t.contents id PageData.zero
    | _ => t.contents
  | _ => t.contents

def loadedBy (t : Traced ρ) : PoolCall → FrameId → Nat
  | .fetchPage id =>
    match lookup id t.pool.pageTable, t.pool.fetchPage id with
    | none, some (some f, _) => Function.update t.loaded f (t.opening id.fd)
    | _, _ => t.loaded
  | .newPage fd =>
    match t.pool.newPage fd with
    | some (some (_, f), _) => Function.update t.loaded f (t.opening fd)
    | _ => t.loaded
  | _ => t.loaded

/-- The descriptor `fd` now stands for another file, whose pages are those on disk. -/
def reopened (t : Traced ρ) (fd : Fd) (disk : DiskManager) : Traced ρ :=
  { t.withDisk disk with
    contents := fun id =>
      if id.fd = fd then (disk.page id).getD PageData.zero else t.contents id
    opening := Function.update t.opening fd (t.opening fd + 1) }

def step (t : Traced ρ) : FileEvent → Option (Traced ρ)
  | .call c => (t.pool.call c).map fun pool =>
      { t with
        pool := pool
        changed := t.changedBy c
        contents := t.contentsBy c
        loaded := t.loadedBy c }
  | .createFile path => (t.pool.disk.createFile path).map t.withDisk
  | .openFile path fd => (t.pool.disk.openFile path fd).map (t.reopened fd)
  | .closeFile fd => (t.pool.disk.closeFile fd).map t.withDisk
  | .destroyFile path => (t.pool.disk.destroyFile path).map t.withDisk
  | .setFd2pageno fd startPageNo => some (t.withDisk (t.pool.disk.setFd2pageno fd startPageNo))

omit [Replacer ρ] in
/-- What is asked of the clients: a page is changed only while it is pinned, the last pin on it
is not given up before `unpin_page(id, true)` has followed the change, and page numbers of new
pages are not in use. -/
def Disciplined (t : Traced ρ) : FileEvent → Prop
  | .call (.write id _) => ∃ f ∈ lookup id t.pool.pageTable, 0 < (t.pool.pages f).pinCount
  | .call (.unpinPage id false) => t.changed id = true →
      ∀ f ∈ lookup id t.pool.pageTable, (t.pool.pages f).pinCount ≠ 1
  | .call c => t.pool.Fresh c
  | _ => True

omit [Replacer ρ] in
instance (t : Traced ρ) (e : FileEvent) : Decidable (t.Disciplined e) :=
  match e with
  | .call (.write id _) => inferInstanceAs
      (Decidable (∃ f ∈ lookup id t.pool.pageTable, 0 < (t.pool.pages f).pinCount))
  | .call (.unpinPage id false) => inferInstanceAs (Decidable (t.changed id = true →
      ∀ f ∈ lookup id t.pool.pageTable, (t.pool.pages f).pinCount ≠ 1))
  | .call (.newPage fd) => inferInstanceAs (Decidable (t.pool.Fresh (.newPage fd)))
  | .call (.unpinPage _ true) | .call (.fetchPage _) | .call (.flushPage _)
  | .call (.flushAllPages _) | .call (.deletePage _) | .createFile _ | .openFile _ _
  | .closeFile _ | .destroyFile _ | .setFd2pageno _ _ => isTrue trivial

omit [Replacer ρ] in
/-- When a descriptor is opened, no frame still carries a page under its number. -/
def CleanOpen (t : Traced ρ) : FileEvent → Prop
  | .openFile _ fd => ∀ f < t.pool.poolSize,
      (t.pool.pages f).id.fd = fd → (t.pool.pages f).id.pageNo = INVALID_PAGE_ID
  | _ => True

/-- The pool shows the contents: a page in the pool has them, and so has the disk, unless the
pool holds a change that is not on disk yet. -/
structure Coherent (t : Traced ρ) : Prop where
  frames : t.pool.FrameInv
  cached : ∀ id f, lookup id t.pool.pageTable = some f → (t.pool.pages f).data = t.contents id
  synced : ∀ id, 0 ≤ id.pageNo →
    (∀ f, lookup id t.pool.pageTable = some f →
      (t.pool.pages f).isDirty = false ∧ t.changed id = false) →
    ∀ d, t.pool.disk.page id = some d → d = t.contents id
  marked : ∀ id, t.changed id = true →
    ∃ f, lookup id t.pool.pageTable = some f ∧ 0 < (t.pool.pages f).pinCount

theorem coherent_start {pool : BufferPool ρ} (h : pool.FrameInv) (hempty : pool.pageTable = []) :
    Coherent (start pool) := by
  refine ⟨h, ?_, ?_, ?_⟩
  · intro id f hf
    simp [start, hempty] at hf
  · intro id _ _ d hd
    simp only [start] at hd ⊢
    rw [hd, Option.getD_some]
  · intro id hid
    cases hid

omit [Replacer ρ] in
/-- What the disk shows after a page was written back. -/
theorem page_writeBack {page : Page} {disk disk' : DiskManager}
    (h : page.writeBack disk = some disk') {q : PageId} (hq : 0 ≤ q.pageNo) :
    disk'.page q = if page.isDirty = true ∧ q = page.id then some page.data else disk.page q := by
  unfold Page.writeBack at h
  split at h
  next hdirty =>
    rw [DiskManager.page_writePage h q hq]
    simp [hdirty]
  next hdirty =>
    cases Option.some.inj h
    simp [hdirty]

namespace Coherent

variable {t : Traced ρ} {id : PageId} {f : FrameId}

/-- The loading counts play no part in coherence. -/
theorem withLoaded (h : Coherent t) (loaded : FrameId → Nat) :
    Coherent { t with loaded := loaded } :=
  ⟨h.frames, h.cached, h.synced, h.marked⟩

/-- A mapped page with pin count 0 has no change that the clients did not report. -/
theorem unchanged (h : Coherent t) (hf : lookup id t.pool.pageTable = some f)
    (hpin : (t.pool.pages f).pinCount = 0) : t.changed id = false := by
  by_contra hne
  obtain ⟨g, hg, hpos⟩ := h.marked id (by simpa using hne)
  rw [hf] at hg
  cases Option.some.inj hg
  omega

/-- Once the page of an unpinned frame is written back, the disk has the contents of that page
too, besides those it had before. -/
theorem writeBack (h : Coherent t) (hsize : f < t.pool.poolSize)
    (hpin : (t.pool.pages f).pinCount = 0) {disk disk' : DiskManager}
    (hopen : disk.openFiles = t.pool.disk.openFiles)
    (hw : (t.pool.pages f).writeBack disk = some disk') {q : PageId} (hq : 0 ≤ q.pageNo)
    (hset : ∀ g, lookup q t.pool.pageTable = some g → g ≠ f →
      (t.pool.pages g).isDirty = false ∧ t.changed q = false)
    {d : PageData} (hd : disk'.page q = some d) : d = t.contents q := by
  have hpage : disk.page q = t.pool.disk.page q := by simp [DiskManager.page, hopen]
  rw [page_writeBack hw hq] at hd
  split at hd
  next hown =>
    have hvalid : q.pageNo ≠ INVALID_PAGE_ID := by
      simp only [INVALID_PAGE_ID]
      lia
    have hf := (h.frames.table q f).mpr ⟨hsize, hown.2.symm, hvalid⟩
    rw [← Option.some.inj hd]
    exact h.cached q f hf
  next hown =>
    rw [hpage] at hd
    refine h.synced q hq (fun g hg => ?_) d hd
    by_cases hgf : g = f
    · subst hgf
      refine ⟨?_, h.unchanged hg hpin⟩
      have hid := h.frames.id_eq hg
      by_contra hdirty
      exact hown ⟨by simpa using hdirty, hid.symm⟩
    · exact hset g hg hgf

/-- A step that keeps the page table, the bytes of the pages and of the files, and no page less
dirty or less pinned. -/
theorem congr (h : Coherent t) {s' : BufferPool ρ} (hframes : s'.FrameInv)
    (htable : s'.pageTable = t.pool.pageTable)
    (hpages : ∀ g, (s'.pages g).data = (t.pool.pages g).data ∧
      (s'.pages g).isDirty = (t.pool.pages g).isDirty ∧
      (t.pool.pages g).pinCount ≤ (s'.pages g).pinCount)
    (hdisk : s'.disk.openFiles = t.pool.disk.openFiles) : Coherent { t with pool := s' } := by
  refine ⟨hframes, ?_, ?_, ?_⟩
  · intro id f hf
    simp only [htable] at hf
    rw [(hpages f).1]
    exact h.cached id f hf
  · intro id hid hset d hd
    have hpage : s'.disk.page id = t.pool.disk.page id := by simp [DiskManager.page, hdisk]
    refine h.synced id hid (fun f hf => ?_) d (hpage ▸ hd)
    have hs := hset f (by simpa only [htable] using hf)
    rw [(hpages f).2.1] at hs
    exact hs
  · intro id hid
    obtain ⟨f, hf, hpos⟩ := h.marked id hid
    exact ⟨f, by simpa only [htable] using hf, hpos.trans_le (hpages f).2.2⟩

theorem pinFrame (h : Coherent t) (hf : lookup id t.pool.pageTable = some f) :
    Coherent { t with pool := t.pool.pinFrame f } := by
  refine h.congr (h.frames.pinFrame hf) rfl (fun g => ?_) rfl
  by_cases hg : g = f
  · simp [BufferPool.pinFrame, BufferPool.setPage, hg]
  · simp [BufferPool.pinFrame, BufferPool.setPage, Function.update_of_ne hg]

/-- A page comes into the pool with the bytes `data`, which are its contents from then on. -/
theorem install (h : Coherent t) {data : PageData} {s' : BufferPool ρ}
    (hi : t.pool.Installs f id data s') (hnone : lookup id t.pool.pageTable = none)
    (hno : 0 ≤ id.pageNo) {disk disk' : DiskManager}
    (hopen : disk.openFiles = t.pool.disk.openFiles)
    (hw : (t.pool.pages f).writeBack disk = some disk')
    (hother : ∀ q, q ≠ id → 0 ≤ q.pageNo → s'.disk.page q = disk'.page q)
    (hown : ∀ d, s'.disk.page id = some d → d = data) :
    Coherent { t with pool := s', contents := Function.update t.contents id data } := by
  have hvalid : id.pageNo ≠ INVALID_PAGE_ID := by
    simp only [INVALID_PAGE_ID]
    lia
  obtain ⟨s₁, hv, -, -⟩ := hi.victim
  obtain ⟨hsize, hpin, -⟩ := h.frames.victim hv
  have hlookup : ∀ q, lookup q s'.pageTable = if id = q then some f else
      if (t.pool.pages f).id = q then none else lookup q t.pool.pageTable := by
    intro q
    rw [hi.pageTable, lookup_assign, lookup_erase]
  have hself : s'.pages f = ⟨id, data, false, 1⟩ := by rw [hi.pages, Function.update_self]
  -- a page other than the new one keeps its frame, which is not the one given away
  have hkept : ∀ q g, q ≠ id → lookup q s'.pageTable = some g →
      lookup q t.pool.pageTable = some g ∧ g ≠ f ∧ s'.pages g = t.pool.pages g := by
    intro q g hq hg
    rw [hlookup, if_neg (Ne.symm hq)] at hg
    split at hg
    · cases hg
    next hne =>
      have hgf : g ≠ f := by
        rintro rfl
        exact hne (h.frames.id_eq hg)
      exact ⟨hg, hgf, by rw [hi.pages, Function.update_of_ne hgf]⟩
  refine ⟨h.frames.install hi hnone hvalid, ?_, ?_, ?_⟩
  · intro q g hg
    simp only at hg ⊢
    by_cases hq : q = id
    · subst hq
      rw [hlookup, if_pos rfl] at hg
      cases Option.some.inj hg
      rw [hself, Function.update_self]
    · obtain ⟨hg, -, hpage⟩ := hkept q g hq hg
      rw [hpage, Function.update_of_ne hq]
      exact h.cached q g hg
  · intro q hq hset d hd
    simp only at hset hd ⊢
    by_cases hqid : q = id
    · subst hqid
      rw [Function.update_self]
      exact hown d hd
    · rw [Function.update_of_ne hqid]
      rw [hother q hqid hq] at hd
      refine h.writeBack hsize hpin hopen hw hq (fun g hg hgf => ?_) hd
      have hne : (t.pool.pages f).id ≠ q := by
        rintro rfl
        have hf := (h.frames.table _ f).mpr ⟨hsize, rfl, ?_⟩
        · rw [hg] at hf
          exact hgf (Option.some.inj hf)
        · simp only [INVALID_PAGE_ID]
          lia
      have hg' : lookup q s'.pageTable = some g := by
        rw [hlookup, if_neg (Ne.symm hqid), if_neg hne]
        exact hg
      have hs := hset g hg'
      rwa [(hkept q g hqid hg').2.2] at hs
  · intro q hq
    simp only at hq ⊢
    obtain ⟨g, hg, hpos⟩ := h.marked q hq
    have hgf : g ≠ f := by
      rintro rfl
      omega
    have hqid : id ≠ q := by
      rintro rfl
      rw [hnone] at hg
      cases hg
    have hne : (t.pool.pages f).id ≠ q := by
      rintro rfl
      have hf := (h.frames.table _ f).mpr ⟨hsize, rfl, ((h.frames.table _ g).mp hg).2.2⟩
      rw [hg] at hf
      exact hgf (Option.some.inj hf)
    refine ⟨g, ?_, ?_⟩
    · rw [hlookup, if_neg hqid, if_neg hne]
      exact hg
    · rw [hi.pages, Function.update_of_ne hgf]
      exact hpos

theorem unpinFrame (h : Coherent t) (hf : lookup id t.pool.pageTable = some f) (isDirty : Bool)
    (hlast : isDirty = false → t.changed id = true → (t.pool.pages f).pinCount ≠ 1) :
    Coherent { t with
      pool := t.pool.unpinFrame f isDirty
      changed := if isDirty then Function.update t.changed id false else t.changed } := by
  have hdata : ∀ g, ((t.pool.unpinFrame f isDirty).pages g).data = (t.pool.pages g).data := by
    intro g
    by_cases hg : g = f
    · cases isDirty <;> simp [BufferPool.unpinFrame, BufferPool.setPage, hg]
    · simp [BufferPool.unpinFrame, BufferPool.setPage, Function.update_of_ne hg]
  have hother : ∀ g, g ≠ f → (t.pool.unpinFrame f isDirty).pages g = t.pool.pages g := fun g hg =>
    Function.update_of_ne hg ..
  refine ⟨h.frames.unpinFrame hf isDirty, ?_, ?_, ?_⟩
  · intro q g hg
    rw [hdata]
    exact h.cached q g hg
  · intro q hq hset d hd
    refine h.synced q hq (fun g hg => ?_) d hd
    have hs := hset g hg
    by_cases hgf : g = f
    · subst hgf
      cases h.frames.injective hf hg
      cases isDirty with
      | true => simp [BufferPool.unpinFrame, BufferPool.setPage] at hs
      | false => simpa [BufferPool.unpinFrame, BufferPool.setPage] using hs
    · simp only [hother g hgf] at hs
      have hne : q ≠ id := by
        rintro rfl
        rw [hf] at hg
        exact hgf (Option.some.inj hg).symm
      cases isDirty with
      | true => simpa [Function.update_of_ne hne] using hs
      | false => simpa using hs
  · intro q hq
    have hchanged : t.changed q = true ∧ (isDirty = true → q ≠ id) := by
      cases isDirty with
      | true =>
        simp only [if_true] at hq
        by_cases hqid : q = id
        · rw [hqid, Function.update_self] at hq
          cases hq
        · rw [Function.update_of_ne hqid] at hq
          exact ⟨hq, fun _ => hqid⟩
      | false => exact ⟨hq, fun hb => by cases hb⟩
    obtain ⟨g, hg, hpos⟩ := h.marked q hchanged.1
    refine ⟨g, hg, ?_⟩
    by_cases hgf : g = f
    · subst hgf
      cases h.frames.injective hf hg
      cases isDirty with
      | true => exact absurd rfl (hchanged.2 rfl)
      | false =>
        have hne := hlast rfl hchanged.1
        simp only [BufferPool.unpinFrame, BufferPool.setPage, Function.update_self, Bool.false_eq_true,
          if_false]
        omega
    · simp only [hother g hgf]
      exact hpos

theorem flushFrame (h : Coherent t) (hf : lookup id t.pool.pageTable = some f)
    {s' : BufferPool ρ} (hs : t.pool.flushFrame id f = some s') :
    Coherent { t with pool := s' } := by
  have hframes := h.frames.flushFrame hs
  obtain ⟨disk, hdisk, rfl⟩ := BufferPool.flushFrame_eq hs
  refine ⟨hframes, ?_, ?_, ?_⟩
  · intro q g hg
    simp only [BufferPool.setPage] at hg ⊢
    by_cases hgf : g = f
    · subst hgf
      rw [Function.update_self]
      exact h.cached q g hg
    · rw [Function.update_of_ne hgf]
      exact h.cached q g hg
  · intro q hq hset d hd
    simp only [BufferPool.setPage] at hset hd
    rw [DiskManager.page_writePage hdisk q hq] at hd
    split at hd
    next hqid =>
      rw [hqid, ← Option.some.inj hd]
      exact h.cached id f hf
    next hqid =>
      refine h.synced q hq (fun g hg => ?_) d hd
      have hgf : g ≠ f := by
        rintro rfl
        exact hqid (h.frames.injective hg hf)
      have hs := hset g hg
      rwa [Function.update_of_ne hgf] at hs
  · intro q hq
    obtain ⟨g, hg, hpos⟩ := h.marked q hq
    refine ⟨g, hg, ?_⟩
    simp only [BufferPool.setPage]
    by_cases hgf : g = f
    · subst hgf
      rw [Function.update_self]
      exact hpos
    · rw [Function.update_of_ne hgf]
      exact hpos

theorem flushAllPages (h : Coherent t) {fd : Fd} {s' : BufferPool ρ}
    (hs : t.pool.flushAllPages fd = some s') : Coherent { t with pool := s' } := by
  have hkeep : Coherent { t with pool := s' } ∧ s'.pageTable = t.pool.pageTable := by
    refine BufferPool.flushAllPages_induct
      (P := fun s => Coherent { t with pool := s } ∧ s.pageTable = t.pool.pageTable) ⟨h, rfl⟩ ?_ hs
    rintro s s₁ id f ⟨hc, htable⟩ hmem hstep
    have hf : lookup id s.pageTable = some f := by
      rw [htable]
      exact lookup_of_mem h.frames.keys hmem
    refine ⟨hc.flushFrame hf hstep, ?_⟩
    obtain ⟨disk, -, rfl⟩ := BufferPool.flushFrame_eq hstep
    exact htable
  exact hkeep.1

theorem dropFrame (h : Coherent t) (hf : lookup id t.pool.pageTable = some f)
    (hpin : (t.pool.pages f).pinCount = 0) {disk : DiskManager}
    (hw : (t.pool.pages f).writeBack t.pool.disk = some disk) :
    Coherent { t with pool := t.pool.dropFrame id f disk } := by
  have hlookup : ∀ q, lookup q (t.pool.dropFrame id f disk).pageTable =
      if id = q then none else lookup q t.pool.pageTable := fun q => lookup_erase q id _
  have hother : ∀ g, g ≠ f → (t.pool.dropFrame id f disk).pages g = t.pool.pages g := fun g hg =>
    Function.update_of_ne hg ..
  have hkept : ∀ q g, lookup q (t.pool.dropFrame id f disk).pageTable = some g →
      lookup q t.pool.pageTable = some g ∧ g ≠ f := by
    intro q g hg
    rw [hlookup] at hg
    split at hg
    · cases hg
    next hne =>
      refine ⟨hg, ?_⟩
      rintro rfl
      exact hne (h.frames.injective hf hg)
  have hsize := ((h.frames.table id f).mp hf).1
  refine ⟨h.frames.dropFrame hf disk, ?_, ?_, ?_⟩
  · intro q g hg
    obtain ⟨hg, hgf⟩ := hkept q g hg
    simp only [hother g hgf]
    exact h.cached q g hg
  · intro q hq hset d hd
    refine h.writeBack hsize hpin rfl hw hq (fun g hg hgf => ?_) hd
    have hne : id ≠ q := by
      rintro rfl
      rw [hf] at hg
      exact hgf (Option.some.inj hg).symm
    have hs := hset g (by rw [hlookup, if_neg hne]; exact hg)
    simpa only [hother g hgf] using hs
  · intro q hq
    obtain ⟨g, hg, hpos⟩ := h.marked q hq
    have hgf : g ≠ f := by
      rintro rfl
      omega
    have hne : id ≠ q := by
      rintro rfl
      rw [hf] at hg
      exact hgf (Option.some.inj hg).symm
    refine ⟨g, ?_, ?_⟩
    · rw [hlookup, if_neg hne]
      exact hg
    · simp only [hother g hgf]
      exact hpos

theorem write (h : Coherent t) (hf : lookup id t.pool.pageTable = some f)
    (hpin : 0 < (t.pool.pages f).pinCount) (data : PageData) :
    Coherent { t with
      pool := t.pool.setPage f { t.pool.pages f with data := data }
      changed := Function.update t.changed id true
      contents := Function.update t.contents id data } := by
  have hne : ∀ q g, lookup q t.pool.pageTable = some g → q ≠ id → g ≠ f := by
    rintro q g hg hq rfl
    exact hq (h.frames.injective hg hf)
  refine ⟨h.frames.setPage rfl rfl, ?_, ?_, ?_⟩
  · intro q g hg
    simp only [BufferPool.setPage] at hg ⊢
    by_cases hq : q = id
    · subst hq
      rw [hf] at hg
      cases Option.some.inj hg
      simp
    · rw [Function.update_of_ne (hne q g hg hq), Function.update_of_ne hq]
      exact h.cached q g hg
  · intro q hq hset d hd
    simp only [BufferPool.setPage] at hset hd ⊢
    by_cases hqid : q = id
    · subst hqid
      have hs := hset f hf
      simp at hs
    · rw [Function.update_of_ne hqid]
      refine h.synced q hq (fun g hg => ?_) d hd
      have hs := hset g hg
      rwa [Function.update_of_ne (hne q g hg hqid), Function.update_of_ne hqid] at hs
  · intro q hq
    simp only [BufferPool.setPage] at hq ⊢
    by_cases hqid : q = id
    · subst hqid
      exact ⟨f, hf, by simpa using hpin⟩
    · rw [Function.update_of_ne hqid] at hq
      obtain ⟨g, hg, hpos⟩ := h.marked q hq
      refine ⟨g, hg, ?_⟩
      rw [Function.update_of_ne (hne q g hg hqid)]
      exact hpos

/-- A step of the disk manager that leaves the pages of open files alone or closes files. -/
theorem withDisk (h : Coherent t) {disk : DiskManager}
    (hdisk : ∀ id d, disk.page id = some d → t.pool.disk.page id = some d) :
    Coherent (t.withDisk disk) := by
  refine ⟨?_, h.cached, ?_, h.marked⟩
  · exact h.frames.congr rfl rfl rfl rfl fun f => ⟨rfl, rfl⟩
  · intro id hid hset d hd
    exact h.synced id hid hset d (hdisk id d hd)

/-- The descriptor `fd` is opened while no frame carries a page of it. -/
theorem reopened (h : Coherent t) {path : Path} {fd : Fd} {disk : DiskManager}
    (hopen : t.pool.disk.openFile path fd = some disk)
    (hclean : t.CleanOpen (.openFile path fd)) : Coherent (t.reopened fd disk) := by
  obtain ⟨-, file, hfiles⟩ := DiskManager.openFile_openFiles hopen
  have hunmapped : ∀ id f, lookup id t.pool.pageTable = some f → id.fd ≠ fd := by
    intro id f hf hfd
    obtain ⟨hsize, hid, hvalid⟩ := (h.frames.table id f).mp hf
    rw [← hid] at hfd hvalid
    exact hvalid (hclean f hsize hfd)
  have hframes : (t.reopened fd disk).pool.FrameInv :=
    h.frames.congr rfl rfl rfl rfl fun f => ⟨rfl, rfl⟩
  refine ⟨hframes, ?_, ?_, h.marked⟩
  · intro id f hf
    simp only [Traced.reopened, Traced.withDisk] at hf ⊢
    rw [if_neg (hunmapped id f hf)]
    exact h.cached id f hf
  · intro id hid hset d hd
    simp only [Traced.reopened, Traced.withDisk] at hset hd ⊢
    split
    next => rw [hd, Option.getD_some]
    next hfd =>
      refine h.synced id hid hset d ?_
      rwa [DiskManager.page, hfiles, Function.update_of_ne hfd] at hd

theorem call (h : Coherent t) {c : PoolCall} (hc : t.Disciplined (.call c)) {t' : Traced ρ}
    (hs : t.step (.call c) = some t') : Coherent t' := by
  obtain ⟨s', hcall, rfl⟩ := Option.map_eq_some_iff.mp hs
  cases c with
  | fetchPage id =>
    obtain ⟨⟨r, s₁⟩, hfetch, rfl⟩ := Option.map_eq_some_iff.mp hcall
    have hkeep : Coherent { t with pool := s₁ } := by
      rcases BufferPool.fetchPage_cases hfetch with
        ⟨f, hf, -, rfl⟩ | ⟨-, -, rfl⟩ | ⟨f, data, hnone, -, hi, hw, hread⟩
      · exact h.pinFrame hf
      · exact h
      · obtain ⟨hpage, hpos⟩ := DiskManager.readPage_eq hread
        obtain ⟨s₂, hv, -⟩ := hi.victim
        obtain ⟨hsize, hpin, -⟩ := h.frames.victim hv
        have hdata : data = t.contents id := by
          refine h.writeBack hsize hpin rfl hw hpos (fun g hg => ?_) hpage
          rw [hnone] at hg
          cases hg
        have hin := h.install hi hnone hpos rfl hw (fun q _ _ => rfl) fun d hd => by
          rw [hpage] at hd
          exact (Option.some.inj hd).symm
        rwa [hdata, Function.update_eq_self] at hin
    exact hkeep.withLoaded _
  | newPage fd =>
    obtain ⟨⟨r, s₁⟩, hnew, rfl⟩ := Option.map_eq_some_iff.mp hcall
    rcases BufferPool.newPage_cases hnew with
      ⟨rfl, rfl⟩ | ⟨f, n, disk₀, disk₁, halloc, rfl, hi, hw, hwrite⟩
    · simp only [contentsBy, hnew]
      exact h.withLoaded _
    · simp only [contentsBy, hnew]
      have hpos := DiskManager.writePage_pageNo hwrite
      have hn := DiskManager.allocatePage_eq halloc
      have hin := h.install hi (hn ▸ hc) hpos (DiskManager.allocatePage_openFiles halloc) hw
        (fun q hq hqpos => by rw [DiskManager.page_writePage hwrite q hqpos, if_neg hq])
        (fun d hd => by
          rw [DiskManager.page_writePage hwrite _ hpos, if_pos rfl] at hd
          exact (Option.some.inj hd).symm)
      exact hin.withLoaded _
  | unpinPage id isDirty =>
    cases Option.some.inj hcall
    rcases t.pool.unpinPage_cases id isDirty with ⟨hzero, heq⟩ | ⟨f, hf, -, heq⟩
    · have hsame : t.changedBy (.unpinPage id isDirty) = t.changed := by
        cases isDirty with
        | false => rfl
        | true =>
          have hid : t.changed id = false := by
            by_contra hne
            obtain ⟨f, hf, hpos⟩ := h.marked id (by simpa using hne)
            exact absurd (hzero f hf) hpos.ne'
          simp only [changedBy]
          rw [← hid, Function.update_eq_self]
      rw [heq, hsame]
      exact h
    · have hunpinned := h.unpinFrame hf isDirty ?_
      · rw [heq]
        cases isDirty with
        | false => exact hunpinned
        | true => exact hunpinned
      · rintro rfl hchanged
        exact hc hchanged f hf
  | flushPage id =>
    obtain ⟨⟨b, s₁⟩, hflush, rfl⟩ := Option.map_eq_some_iff.mp hcall
    rcases BufferPool.flushPage_cases hflush with rfl | ⟨f, hf, hstep⟩
    · exact h.withLoaded _
    · have hflushed := h.flushFrame hf hstep
      exact hflushed.withLoaded _
  | flushAllPages fd =>
    have hflushed := h.flushAllPages hcall
    exact hflushed.withLoaded _
  | deletePage id =>
    obtain ⟨⟨b, s₁⟩, hdelete, rfl⟩ := Option.map_eq_some_iff.mp hcall
    rcases BufferPool.deletePage_cases hdelete with rfl | ⟨f, disk, hf, hpin, hw, rfl⟩
    · exact h.withLoaded _
    · have hdropped := h.dropFrame hf hpin hw
      exact hdropped.withLoaded _
  | write id data =>
    obtain ⟨f, hf, rfl⟩ := BufferPool.write_eq hcall
    obtain ⟨g, hg, hpin⟩ := hc
    rw [hf] at hg
    cases Option.some.inj hg
    have hwritten := h.write hf hpin data
    exact hwritten.withLoaded _

theorem step (h : Coherent t) {e : FileEvent} (hc : t.Disciplined e) (ho : t.CleanOpen e)
    {t' : Traced ρ} (hs : t.step e = some t') : Coherent t' := by
  cases e with
  | call c => exact h.call hc hs
  | createFile path =>
    obtain ⟨disk, hdisk, rfl⟩ := Option.map_eq_some_iff.mp hs
    refine h.withDisk fun id d hd => ?_
    rwa [DiskManager.page, DiskManager.createFile_openFiles hdisk] at hd
  | openFile path fd =>
    obtain ⟨disk, hdisk, rfl⟩ := Option.map_eq_some_iff.mp hs
    exact h.reopened hdisk ho
  | closeFile fd =>
    obtain ⟨disk, hdisk, rfl⟩ := Option.map_eq_some_iff.mp hs
    refine h.withDisk fun id d hd => ?_
    rw [DiskManager.page, DiskManager.closeFile_openFiles hdisk] at hd
    by_cases hfd : id.fd = fd
    · rw [hfd, Function.update_self] at hd
      cases hd
    · rwa [Function.update_of_ne hfd] at hd
  | destroyFile path =>
    obtain ⟨disk, hdisk, rfl⟩ := Option.map_eq_some_iff.mp hs
    refine h.withDisk fun id d hd => ?_
    rwa [DiskManager.page, DiskManager.destroyFile_openFiles hdisk] at hd
  | setFd2pageno fd n =>
    cases Option.some.inj hs
    exact h.withDisk fun id d hd => hd

/-- What a client gets is the contents of the page. -/
theorem fetch (h : Coherent t) {s' : BufferPool ρ}
    (hs : t.pool.fetchPage id = some (some f, s')) : (s'.pages f).data = t.contents id := by
  have hstep : t.step (.call (.fetchPage id)) = some { t with
      pool := s', loaded := t.loadedBy (.fetchPage id) } := by
    simp [Traced.step, BufferPool.call, hs, changedBy, contentsBy]
  have hc := h.call (c := .fetchPage id) trivial hstep
  refine hc.cached id f ?_
  rcases BufferPool.fetchPage_cases hs with ⟨g, hg, hr, rfl⟩ | ⟨-, hr, -⟩ | ⟨g, data, -, hr, hi, -⟩
  · cases hr
    exact hg
  · cases hr
  · cases hr
    simp [hi.pageTable, lookup_assign]

end Coherent

end Traced

/-- For every pool size and every replacement policy: as long as the clients keep to their part,
`fetch_page` answers with the bytes last written to the page, zeros when it was just created. -/
theorem buffer_pool_coherent {ρ : Type} [Replacer ρ] (poolSize : Nat) (fd : Fd) (replacer : ρ)
    (hempty : ∀ f, ¬ Replacer.Holds replacer f) (disk : DiskManager) (log : Option LogManager)
    (calls : List PoolCall) (t : Traced ρ)
    (hrun : run Traced.step (Traced.start (BufferPool.start poolSize fd replacer disk log))
      (calls.map .call) = some t)
    (hclients : MeetsAll Traced.step Traced.Disciplined
      (Traced.start (BufferPool.start poolSize fd replacer disk log)) (calls.map .call))
    (id : PageId) (f : FrameId) (s' : BufferPool ρ)
    (hfetch : t.pool.fetchPage id = some (some f, s')) : (s'.pages f).data = t.contents id := by
  have hstart : (Traced.start (BufferPool.start poolSize fd replacer disk log)).Coherent :=
    Traced.coherent_start (BufferPool.frameInv_start poolSize fd hempty disk log) rfl
  have hopen : MeetsAll Traced.step Traced.CleanOpen
      (Traced.start (BufferPool.start poolSize fd replacer disk log)) (calls.map .call) := by
    refine meetsAll_of_mem fun e he t => ?_
    obtain ⟨c, -, rfl⟩ := List.mem_map.mp he
    trivial
  have h : t.Coherent := run_invariant (fun _ _ _ ht hg hs => ht.step hg.1 hg.2 hs) hstart
    (meetsAll_and hclients hopen) hrun
  exact h.fetch hfetch

/-- A page is created, changed and evicted again by a second one in a pool of one frame. -/
def evictingCalls : List PoolCall :=
  [.newPage 3, .write ⟨3, 0⟩ (PageData.fill 1), .unpinPage ⟨3, 0⟩ true, .newPage 3,
    .unpinPage ⟨3, 1⟩ false]

theorem buffer_pool_coherent_evicted : ∃ t f s',
    run Traced.step (Traced.start oneFramePool) (evictingCalls.map .call) = some t ∧
    t.pool.fetchPage ⟨3, 0⟩ = some (some f, s') ∧ (s'.pages f).data = t.contents ⟨3, 0⟩ := by
  have heval : ((run Traced.step (Traced.start oneFramePool) (evictingCalls.map .call)).bind
      fun t => (t.pool.fetchPage ⟨3, 0⟩).bind (·.1)) = some 0 := by decide +kernel
  obtain ⟨t, hrun, heval⟩ := Option.bind_eq_some_iff.mp heval
  obtain ⟨⟨r, s'⟩, hfetch, hr⟩ := Option.bind_eq_some_iff.mp heval
  cases hr
  have hclients : MeetsAll Traced.step Traced.Disciplined (Traced.start oneFramePool)
      (evictingCalls.map .call) := by decide +kernel
  exact ⟨t, 0, s', hrun, hfetch, buffer_pool_coherent 1 0 LRUReplacer.empty
    (fun f hf => List.not_mem_nil hf) oneFile none evictingCalls t hrun hclients ⟨3, 0⟩ 0 s' hfetch⟩

end Grmdb
