import Grmdb.PoolCoherence

namespace Grmdb

open AssocMap Runs

namespace Traced

variable {ρ : Type} [Replacer ρ]

omit [Replacer ρ] in
instance (t : Traced ρ) (e : FileEvent) : Decidable (t.CleanOpen e) :=
  match e with
  | .openFile _ fd => inferInstanceAs (Decidable (∀ f < t.pool.poolSize,
      (t.pool.pages f).id.fd = fd → (t.pool.pages f).id.pageNo = INVALID_PAGE_ID))
  | .call _ | .createFile _ | .closeFile _ | .destroyFile _ | .setFd2pageno _ _ => isTrue trivial

omit [Replacer ρ] in
/-- Some file is open under the descriptor of the page. -/
def Opened (t : Traced ρ) (id : PageId) : Prop := (t.pool.disk.openFiles id.fd).isSome

omit [Replacer ρ] in
instance (t : Traced ρ) (id : PageId) : Decidable (t.Opened id) :=
  inferInstanceAs (Decidable ((t.pool.disk.openFiles id.fd).isSome = true))

/-- No page goes from one file to another. `fetch_page` answers with a page that came into the
pool under the present opening of its descriptor or is read from the file open there now; what
is written to an open file is a page loaded from it or a new page of it; and when a frame with
a page from an earlier opening is given away, no page of an open file loses its mapping. -/
structure NoLeak (t : Traced ρ) : Prop where
  fetched : ∀ id f s', t.Opened id → t.pool.fetchPage id = some (some f, s') →
    (lookup id t.pool.pageTable = some f ∧ t.loaded f = t.opening id.fd) ∨
    (lookup id t.pool.pageTable = none ∧ s'.disk.page id = some (s'.pages f).data)
  written : ∀ c s' id, t.pool.call c = some s' → t.Opened id → 0 ≤ id.pageNo →
    s'.disk.page id ≠ t.pool.disk.page id →
    (∃ f, (t.pool.pages f).id = id ∧ t.loaded f = t.opening id.fd ∧
      s'.disk.page id = some (t.pool.pages f).data) ∨
    (c = .newPage id.fd ∧ s'.disk.page id = some PageData.zero)
  unmapped : ∀ f newId s', f < t.pool.poolSize → t.pool.updatePage newId f = some s' →
    t.loaded f ≠ t.opening (t.pool.pages f).id.fd → ∀ id, id ≠ newId → t.Opened id →
    lookup id s'.pageTable = lookup id t.pool.pageTable

/-- Every frame with a page of an open file got it under the present opening. Nothing is asked
of the numbers of new pages, so a page may be carried by two frames, of which the page table
knows one. -/
structure Owned (t : Traced ρ) : Prop where
  keys : (t.pool.pageTable.map Prod.fst).Nodup
  table : ∀ id f, lookup id t.pool.pageTable = some f →
    f < t.pool.poolSize ∧ (t.pool.pages f).id = id ∧ id.pageNo ≠ INVALID_PAGE_ID
  free : ∀ f ∈ t.pool.freeList, f < t.pool.poolSize
  candidates : ∀ f, Replacer.Holds t.pool.replacer f → f < t.pool.poolSize
  own : ∀ f, f < t.pool.poolSize → (t.pool.pages f).id.pageNo ≠ INVALID_PAGE_ID →
    t.Opened (t.pool.pages f).id → t.loaded f = t.opening (t.pool.pages f).id.fd

theorem owned_start {pool : BufferPool ρ} (h : pool.FrameInv)
    (hids : ∀ f, (pool.pages f).id.pageNo = INVALID_PAGE_ID) : Owned (start pool) := by
  refine ⟨h.keys, fun id f => (h.table id f).mp, fun f hf => (h.free f hf).1, h.candidates, ?_⟩
  intro f _ hid
  exact absurd (hids f) hid

omit [Replacer ρ] in
theorem isOpen_writeBack {page : Page} {disk disk' : DiskManager}
    (h : page.writeBack disk = some disk') (fd : Fd) :
    (disk'.openFiles fd).isSome = (disk.openFiles fd).isSome := by
  unfold Page.writeBack at h
  split at h
  · exact DiskManager.writePage_isOpen h fd
  · cases Option.some.inj h
    rfl

namespace Owned

variable {t : Traced ρ} {id : PageId} {f : FrameId} {s' : BufferPool ρ}

theorem victim (h : Owned t) {s₁ : BufferPool ρ} (hv : t.pool.findVictimPage = some (f, s₁)) :
    f < t.pool.poolSize ∧ (∀ g ∈ s₁.freeList, g < t.pool.poolSize) ∧
    ∀ g, Replacer.Holds (Replacer.pin s₁.replacer f) g → g < t.pool.poolSize := by
  unfold BufferPool.findVictimPage at hv
  split at hv
  next hfree =>
    split at hv
    · cases hv
    next g replacer hvictim =>
      cases Option.some.inj hv
      refine ⟨h.candidates f (Replacer.holds_of_victim hvictim), h.free, fun g hg => ?_⟩
      rw [Replacer.holds_pin, Replacer.holds_victim hvictim] at hg
      exact h.candidates g hg.1.1
  next g freeList hfree =>
    cases Option.some.inj hv
    refine ⟨h.free f (by simp [hfree]), ?_, fun g hg => ?_⟩
    · intro g hg
      exact h.free g (by rw [hfree]; exact List.mem_cons_of_mem f hg)
    · rw [Replacer.holds_pin] at hg
      exact h.candidates g hg.1

/-- A step that moves no page into a frame. -/
theorem congr (h : Owned t) (hsize : s'.poolSize = t.pool.poolSize)
    (htable : s'.pageTable = t.pool.pageTable) (hfree : s'.freeList = t.pool.freeList)
    (hrepl : ∀ g, Replacer.Holds s'.replacer g → g < t.pool.poolSize)
    (hids : ∀ g, (s'.pages g).id = (t.pool.pages g).id)
    (hopen : ∀ fd, (s'.disk.openFiles fd).isSome = (t.pool.disk.openFiles fd).isSome) :
    Owned { t with pool := s' } := by
  constructor
  · rw [htable]
    exact h.keys
  · intro id f hf
    simp only [htable, hsize, hids] at hf ⊢
    exact h.table id f hf
  · intro f hf
    simp only [hfree, hsize] at hf ⊢
    exact h.free f hf
  · intro f hf
    simp only [hsize] at hf ⊢
    exact hrepl f hf
  · intro f hf hid hop
    simp only [Opened, hsize, hids, hopen] at hf hid hop ⊢
    exact h.own f hf hid hop

theorem pinFrame (h : Owned t) : Owned { t with pool := t.pool.pinFrame f } := by
  refine h.congr rfl rfl rfl (fun g hg => ?_) (fun g => ?_) fun fd => rfl
  · simp only [BufferPool.pinFrame, Replacer.holds_pin] at hg
    exact h.candidates g hg.1
  · by_cases hg : g = f
    · simp [BufferPool.pinFrame, BufferPool.setPage, hg]
    · simp [BufferPool.pinFrame, BufferPool.setPage, Function.update_of_ne hg]

theorem unpinFrame (h : Owned t) (hf : lookup id t.pool.pageTable = some f) (isDirty : Bool) :
    Owned { t with pool := t.pool.unpinFrame f isDirty } := by
  refine h.congr rfl rfl rfl (fun g hg => ?_) (fun g => ?_) fun fd => rfl
  · simp only [BufferPool.unpinFrame] at hg
    split at hg
    · rw [Replacer.holds_unpin] at hg
      rcases hg with hg | rfl
      · exact h.candidates g hg
      · exact (h.table id g hf).1
    · exact h.candidates g hg
  · by_cases hg : g = f
    · cases isDirty <;> simp [BufferPool.unpinFrame, BufferPool.setPage, hg]
    · simp [BufferPool.unpinFrame, BufferPool.setPage, Function.update_of_ne hg]

theorem flushFrame (h : Owned t) (hs : t.pool.flushFrame id f = some s') :
    Owned { t with pool := s' } := by
  obtain ⟨disk, hdisk, rfl⟩ := BufferPool.flushFrame_eq hs
  refine h.congr rfl rfl rfl h.candidates (fun g => ?_) (DiskManager.writePage_isOpen hdisk)
  by_cases hg : g = f
  · simp [BufferPool.setPage, hg]
  · simp [BufferPool.setPage, Function.update_of_ne hg]

theorem install (h : Owned t) {data : PageData} (hi : t.pool.Installs f id data s')
    (hno : 0 ≤ id.pageNo)
    (hopen : ∀ fd, (s'.disk.openFiles fd).isSome = (t.pool.disk.openFiles fd).isSome) :
    Owned { t with pool := s', loaded := Function.update t.loaded f (t.opening id.fd) } := by
  obtain ⟨s₁, hv, hfree, hrepl⟩ := hi.victim
  obtain ⟨hsize, hbound, hholds⟩ := h.victim hv
  have hself : s'.pages f = ⟨id, data, false, 1⟩ := by rw [hi.pages, Function.update_self]
  have hother : ∀ g, g ≠ f → s'.pages g = t.pool.pages g := by
    intro g hg
    rw [hi.pages, Function.update_of_ne hg]
  constructor
  · rw [hi.pageTable]
    exact nodup_keys_assign _ _ (nodup_keys_erase _ h.keys)
  · intro q g hg
    simp only [hi.pageTable, hi.poolSize, lookup_assign, lookup_erase] at hg ⊢
    split at hg
    next hq =>
      cases Option.some.inj hg
      refine ⟨hsize, by rw [hself, hq], ?_⟩
      rw [← hq]
      simp only [INVALID_PAGE_ID]
      lia
    next =>
      split at hg
      · cases hg
      next hne =>
        obtain ⟨hg, hid, hvalid⟩ := h.table q g hg
        have hgf : g ≠ f := by
          rintro rfl
          exact hne hid
        rw [hother g hgf]
        exact ⟨hg, hid, hvalid⟩
  · intro g hg
    simp only [hfree, hi.poolSize] at hg ⊢
    exact hbound g hg
  · intro g hg
    simp only [hrepl, hi.poolSize] at hg ⊢
    exact hholds g hg
  · intro g hg hid hop
    simp only [Opened, hopen, hi.poolSize] at hg hid hop ⊢
    by_cases hgf : g = f
    · rw [hgf, Function.update_self, hself]
    · rw [Function.update_of_ne hgf]
      rw [hother g hgf] at hid hop ⊢
      exact h.own g hg hid hop

theorem dropFrame (h : Owned t) (hf : lookup id t.pool.pageTable = some f) {disk : DiskManager}
    (hopen : ∀ fd, (disk.openFiles fd).isSome = (t.pool.disk.openFiles fd).isSome) :
    Owned { t with pool := t.pool.dropFrame id f disk } := by
  obtain ⟨hsize, hid, -⟩ := h.table id f hf
  have hself : (t.pool.dropFrame id f disk).pages f =
      ⟨⟨-1, INVALID_PAGE_ID⟩, PageData.zero, false, 0⟩ := Function.update_self ..
  have hother : ∀ g, g ≠ f → (t.pool.dropFrame id f disk).pages g = t.pool.pages g := fun g hg =>
    Function.update_of_ne hg ..
  constructor
  · exact nodup_keys_erase _ h.keys
  · intro q g hg
    simp only [BufferPool.dropFrame, lookup_erase] at hg
    split at hg
    · cases hg
    next hne =>
      obtain ⟨hg, hq, hvalid⟩ := h.table q g hg
      have hgf : g ≠ f := by
        rintro rfl
        exact hne (hid.symm.trans hq)
      simp only [hother g hgf]
      exact ⟨hg, hq, hvalid⟩
  · intro g hg
    simp only [BufferPool.dropFrame, List.mem_append, List.mem_singleton] at hg
    rcases hg with hg | rfl
    · exact h.free g hg
    · exact hsize
  · exact h.candidates
  · intro g hg hvalid hop
    by_cases hgf : g = f
    · subst hgf
      simp only [hself] at hvalid
      exact absurd rfl hvalid
    · simp only [hother g hgf, Opened] at hvalid hop ⊢
      exact h.own g hg hvalid ((hopen _).symm.trans hop)

theorem setData (h : Owned t) (data : PageData) :
    Owned { t with pool := t.pool.setPage f { t.pool.pages f with data := data } } := by
  refine h.congr rfl rfl rfl h.candidates (fun g => ?_) fun fd => rfl
  by_cases hg : g = f
  · simp [BufferPool.setPage, hg]
  · simp [BufferPool.setPage, Function.update_of_ne hg]

/-- The records kept of the clients' changes play no part here. -/
theorem withContents (h : Owned t) (changed : PageId → Bool) (contents : PageId → PageData) :
    Owned { t with changed := changed, contents := contents } :=
  ⟨h.keys, h.table, h.free, h.candidates, h.own⟩

theorem call (h : Owned t) {c : PoolCall} {t' : Traced ρ} (hs : t.step (.call c) = some t') :
    Owned t' := by
  obtain ⟨s', hcall, rfl⟩ := Option.map_eq_some_iff.mp hs
  cases c with
  | fetchPage id =>
    obtain ⟨⟨r, s₁⟩, hfetch, rfl⟩ := Option.map_eq_some_iff.mp hcall
    rcases BufferPool.fetchPage_cases hfetch with
      ⟨f, hf, -, rfl⟩ | ⟨hnone, rfl, rfl⟩ | ⟨f, data, hnone, rfl, hi, hw, hread⟩
    · simp only [loadedBy, hf]
      exact h.pinFrame.withContents _ _
    · simp only [loadedBy, hnone, hfetch]
      exact h.withContents _ _
    · simp only [loadedBy, hnone, hfetch]
      have hin := h.install hi (DiskManager.readPage_eq hread).2 (isOpen_writeBack hw)
      exact hin.withContents _ _
  | newPage fd =>
    obtain ⟨⟨r, s₁⟩, hnew, rfl⟩ := Option.map_eq_some_iff.mp hcall
    rcases BufferPool.newPage_cases hnew with
      ⟨rfl, rfl⟩ | ⟨f, n, disk₀, disk₁, halloc, rfl, hi, hw, hwrite⟩
    · simp only [loadedBy, hnew]
      exact h.withContents _ _
    · simp only [loadedBy, hnew]
      have hin := h.install hi (DiskManager.writePage_pageNo hwrite) fun fd' => by
        rw [DiskManager.writePage_isOpen hwrite, isOpen_writeBack hw,
          DiskManager.allocatePage_openFiles halloc]
      exact hin.withContents _ _
  | unpinPage id isDirty =>
    cases Option.some.inj hcall
    rcases t.pool.unpinPage_cases id isDirty with ⟨-, heq⟩ | ⟨f, hf, -, heq⟩
    · rw [heq]
      exact h.withContents _ _
    · rw [heq]
      exact (h.unpinFrame hf isDirty).withContents _ _
  | flushPage id =>
    obtain ⟨⟨b, s₁⟩, hflush, rfl⟩ := Option.map_eq_some_iff.mp hcall
    rcases BufferPool.flushPage_cases hflush with rfl | ⟨f, hf, hstep⟩
    · exact h.withContents _ _
    · exact (h.flushFrame hstep).withContents _ _
  | flushAllPages fd =>
    have hflushed := BufferPool.flushAllPages_induct (P := fun s => Owned { t with pool := s }) h
      (fun s s₁ id f hs _ hstep => hs.flushFrame hstep) hcall
    exact hflushed.withContents _ _
  | deletePage id =>
    obtain ⟨⟨b, s₁⟩, hdelete, rfl⟩ := Option.map_eq_some_iff.mp hcall
    rcases BufferPool.deletePage_cases hdelete with rfl | ⟨f, disk, hf, hpin, hw, rfl⟩
    · exact h.withContents _ _
    · exact (h.dropFrame hf (isOpen_writeBack hw)).withContents _ _
  | write id data =>
    obtain ⟨f, hf, rfl⟩ := BufferPool.write_eq hcall
    exact (h.setData data).withContents _ _

theorem withDisk (h : Owned t) {disk : DiskManager}
    (hopen : ∀ fd, (disk.openFiles fd).isSome → (t.pool.disk.openFiles fd).isSome) :
    Owned (t.withDisk disk) :=
  ⟨h.keys, h.table, h.free, h.candidates, fun f hf hid hop => h.own f hf hid (hopen _ hop)⟩

theorem reopened (h : Owned t) {path : Path} {fd : Fd} {disk : DiskManager}
    (hopen : t.pool.disk.openFile path fd = some disk)
    (hclean : t.CleanOpen (.openFile path fd)) : Owned (t.reopened fd disk) := by
  obtain ⟨-, file, hfiles⟩ := DiskManager.openFile_openFiles hopen
  refine ⟨h.keys, h.table, h.free, h.candidates, fun f hf hid hop => ?_⟩
  simp only [Traced.reopened, Traced.withDisk, Opened, hfiles] at hf hid hop ⊢
  have hne : (t.pool.pages f).id.fd ≠ fd := fun hfd => hid (hclean f hf hfd)
  rw [Function.update_of_ne hne] at hop ⊢
  exact h.own f hf hid hop

theorem step (h : Owned t) {e : FileEvent} (ho : t.CleanOpen e) {t' : Traced ρ}
    (hs : t.step e = some t') : Owned t' := by
  cases e with
  | call c => exact h.call hs
  | createFile path =>
    obtain ⟨disk, hdisk, rfl⟩ := Option.map_eq_some_iff.mp hs
    refine h.withDisk fun fd hop => ?_
    rwa [DiskManager.createFile_openFiles hdisk] at hop
  | openFile path fd =>
    obtain ⟨disk, hdisk, rfl⟩ := Option.map_eq_some_iff.mp hs
    exact h.reopened hdisk ho
  | closeFile fd =>
    obtain ⟨disk, hdisk, rfl⟩ := Option.map_eq_some_iff.mp hs
    refine h.withDisk fun fd' hop => ?_
    rw [DiskManager.closeFile_openFiles hdisk] at hop
    by_cases hfd : fd' = fd
    · rw [hfd, Function.update_self] at hop
      cases hop
    · rwa [Function.update_of_ne hfd] at hop
  | destroyFile path =>
    obtain ⟨disk, hdisk, rfl⟩ := Option.map_eq_some_iff.mp hs
    refine h.withDisk fun fd hop => ?_
    rwa [DiskManager.destroyFile_openFiles hdisk] at hop
  | setFd2pageno fd n =>
    cases Option.some.inj hs
    exact h.withDisk fun fd hop => hop

theorem loaded_eq (h : Owned t) (hsize : f < t.pool.poolSize) (hid : (t.pool.pages f).id = id)
    (hno : 0 ≤ id.pageNo) (hop : t.Opened id) : t.loaded f = t.opening id.fd := by
  subst hid
  refine h.own f hsize ?_ hop
  simp only [INVALID_PAGE_ID]
  lia

/-- A page that is written back is a page of the file now open under its descriptor. -/
theorem writeBack (h : Owned t) (hsize : f < t.pool.poolSize) {disk disk' : DiskManager}
    (hfiles : disk.openFiles = t.pool.disk.openFiles)
    (hw : (t.pool.pages f).writeBack disk = some disk') (hno : 0 ≤ id.pageNo)
    (hop : t.Opened id) (hne : disk'.page id ≠ t.pool.disk.page id) :
    ∃ f, (t.pool.pages f).id = id ∧ t.loaded f = t.opening id.fd ∧
      disk'.page id = some (t.pool.pages f).data := by
  have hpage : disk.page id = t.pool.disk.page id := by simp [DiskManager.page, hfiles]
  have heq := page_writeBack hw hno
  rw [hpage] at heq
  split at heq
  next hown => exact ⟨f, hown.2.symm, h.loaded_eq hsize hown.2.symm hno hop, heq⟩
  next => exact absurd heq hne

theorem flushed (h : Owned t) (hno : 0 ≤ id.pageNo) (hop : t.Opened id) {fd : Fd}
    (hs : t.pool.flushAllPages fd = some s') (hne : s'.disk.page id ≠ t.pool.disk.page id) :
    ∃ f, (t.pool.pages f).id = id ∧ t.loaded f = t.opening id.fd ∧
      s'.disk.page id = some (t.pool.pages f).data := by
  have hkeep : (∀ g, (s'.pages g).data = (t.pool.pages g).data) ∧
      (s'.disk.page id = t.pool.disk.page id ∨ ∃ f, (t.pool.pages f).id = id ∧
        t.loaded f = t.opening id.fd ∧ s'.disk.page id = some (t.pool.pages f).data) := by
    refine BufferPool.flushAllPages_induct (P := fun s => (∀ g, (s.pages g).data =
      (t.pool.pages g).data) ∧ (s.disk.page id = t.pool.disk.page id ∨ ∃ f,
        (t.pool.pages f).id = id ∧ t.loaded f = t.opening id.fd ∧
        s.disk.page id = some (t.pool.pages f).data)) ⟨fun g => rfl, Or.inl rfl⟩ ?_ hs
    rintro s s₁ q f ⟨hdata, hpage⟩ hmem hstep
    obtain ⟨disk, hwrite, rfl⟩ := BufferPool.flushFrame_eq hstep
    obtain ⟨hsize, hid, -⟩ := h.table q f (lookup_of_mem h.keys hmem)
    refine ⟨fun g => ?_, ?_⟩
    · by_cases hg : g = f
      · simp [BufferPool.setPage, hg, hdata]
      · simp [BufferPool.setPage, Function.update_of_ne hg, hdata]
    · have heq := DiskManager.page_writePage hwrite id hno
      split at heq
      next hq =>
        subst hq
        exact Or.inr ⟨f, hid, h.loaded_eq hsize hid hno hop, by rw [heq, hdata]⟩
      next => rwa [heq]
  exact hkeep.2.resolve_left hne

theorem noLeak (h : Owned t) : NoLeak t := by
  constructor
  · intro id f s' hop hfetch
    rcases BufferPool.fetchPage_cases hfetch with
      ⟨g, hg, hr, rfl⟩ | ⟨-, hr, -⟩ | ⟨g, data, hnone, hr, hi, -, hread⟩
    · cases hr
      obtain ⟨hsize, hid, hvalid⟩ := h.table id f hg
      subst hid
      exact Or.inl ⟨hg, h.own f hsize hvalid hop⟩
    · cases hr
    · cases hr
      refine Or.inr ⟨hnone, ?_⟩
      rw [hi.pages, Function.update_self]
      exact (DiskManager.readPage_eq hread).1
  · intro c s' id hs hop hno hne
    cases c with
    | fetchPage q =>
      obtain ⟨⟨r, s₁⟩, hfetch, rfl⟩ := Option.map_eq_some_iff.mp hs
      rcases BufferPool.fetchPage_cases hfetch with
        ⟨f, -, -, rfl⟩ | ⟨-, -, rfl⟩ | ⟨f, data, -, -, hi, hw, -⟩
      · exact absurd rfl hne
      · exact absurd rfl hne
      · obtain ⟨s₂, hv, -⟩ := hi.victim
        exact Or.inl (h.writeBack (h.victim hv).1 rfl hw hno hop hne)
    | newPage fd =>
      obtain ⟨⟨r, s₁⟩, hnew, rfl⟩ := Option.map_eq_some_iff.mp hs
      rcases BufferPool.newPage_cases hnew with
        ⟨-, rfl⟩ | ⟨f, n, disk₀, disk₁, halloc, -, hi, hw, hwrite⟩
      · exact absurd rfl hne
      · have heq := DiskManager.page_writePage hwrite id hno
        split at heq
        next hid =>
          subst hid
          exact Or.inr ⟨rfl, heq⟩
        next =>
          obtain ⟨s₂, hv, -⟩ := hi.victim
          simp only [heq] at hne ⊢
          exact Or.inl (h.writeBack (h.victim hv).1 (DiskManager.allocatePage_openFiles halloc) hw
            hno hop hne)
    | unpinPage q isDirty =>
      cases Option.some.inj hs
      rcases t.pool.unpinPage_cases q isDirty with ⟨-, heq⟩ | ⟨f, hf, -, heq⟩
      · rw [heq] at hne
        exact absurd rfl hne
      · rw [heq] at hne
        exact absurd rfl hne
    | flushPage q =>
      obtain ⟨⟨b, s₁⟩, hflush, rfl⟩ := Option.map_eq_some_iff.mp hs
      rcases BufferPool.flushPage_cases hflush with rfl | ⟨f, hf, hstep⟩
      · exact absurd rfl hne
      · obtain ⟨disk, hwrite, rfl⟩ := BufferPool.flushFrame_eq hstep
        obtain ⟨hsize, hid, -⟩ := h.table q f hf
        have heq := DiskManager.page_writePage hwrite id hno
        split at heq
        next hq =>
          subst hq
          exact Or.inl ⟨f, hid, h.loaded_eq hsize hid hno hop, heq⟩
        next => exact absurd heq hne
    | flushAllPages fd => exact Or.inl (h.flushed hno hop hs hne)
    | deletePage q =>
      obtain ⟨⟨b, s₁⟩, hdelete, rfl⟩ := Option.map_eq_some_iff.mp hs
      rcases BufferPool.deletePage_cases hdelete with rfl | ⟨f, disk, hf, hpin, hw, rfl⟩
      · exact absurd rfl hne
      · exact Or.inl (h.writeBack (h.table q f hf).1 rfl hw hno hop hne)
    | write q data =>
      obtain ⟨f, hf, rfl⟩ := BufferPool.write_eq hs
      exact absurd rfl hne
  · intro f newId s' hsize hs hold id hid hop
    obtain ⟨disk, log, -, rfl⟩ := BufferPool.updatePage_eq hs
    simp only [lookup_assign, if_neg (Ne.symm hid), lookup_erase]
    split
    next heq =>
      subst heq
      cases hlook : lookup (t.pool.pages f).id t.pool.pageTable with
      | none => rfl
      | some g =>
        have hvalid := (h.table _ g hlook).2.2
        exact absurd (h.own f hsize hvalid hop) hold
    next => rfl

end Owned

end Traced

/-- In every run in which each descriptor is opened while no frame carries a page under its
number, no page leaks from one file to another; and as far as the clients keep to their part,
`fetch_page` answers with the bytes last written to the page of the file open now. -/
theorem no_page_leaks {ρ : Type} [Replacer ρ] (poolSize : Nat) (fd : Fd) (replacer : ρ)
    (hempty : ∀ f, ¬ Replacer.Holds replacer f) (disk : DiskManager) (log : Option LogManager)
    (events : List FileEvent) (t : Traced ρ)
    (hrun : run Traced.step (Traced.start (BufferPool.start poolSize fd replacer disk log)) events =
      some t)
    (hopen : MeetsAll Traced.step Traced.CleanOpen
      (Traced.start (BufferPool.start poolSize fd replacer disk log)) events) :
    t.NoLeak ∧
    (MeetsAll Traced.step Traced.Disciplined
        (Traced.start (BufferPool.start poolSize fd replacer disk log)) events →
      ∀ id f s', t.pool.fetchPage id = some (some f, s') → (s'.pages f).data = t.contents id) := by
  have hframes := BufferPool.frameInv_start poolSize fd hempty disk log
  constructor
  · have hstart := Traced.owned_start hframes fun f => rfl
    have h : t.Owned := run_invariant (fun _ _ _ ht ho hs => ht.step ho hs) hstart hopen hrun
    exact h.noLeak
  · intro hclients id f s' hfetch
    have hstart := Traced.coherent_start hframes rfl
    have h : t.Coherent := run_invariant (fun _ _ _ ht hg hs => ht.step hg.1 hg.2 hs) hstart
      (meetsAll_and hclients hopen) hrun
    exact h.fetch hfetch

/-- A file is created, opened, given one page and closed again, its page flushed. -/
def onePageFile (path : Path) (fd : Fd) (x : UInt8) : List FileEvent :=
  [.createFile path, .openFile path fd, .call (.newPage fd),
    .call (.write ⟨fd, 0⟩ (PageData.fill x)), .call (.unpinPage ⟨fd, 0⟩ true),
    .call (.flushAllPages fd), .closeFile fd]

def emptyPool (poolSize : Nat) : Traced LRUReplacer :=
  Traced.start (BufferPool.start poolSize 0 LRUReplacer.empty (DiskManager.start fun _ => none) none)

/-- The page of the closed file goes out of the pool before its descriptor is given to another
file. -/
theorem no_page_leaks_deleted : ∃ t,
    run Traced.step (emptyPool 2) ([.createFile "a", .openFile "a" 3, .call (.newPage 3),
      .call (.unpinPage ⟨3, 0⟩ true), .call (.deletePage ⟨3, 0⟩), .closeFile 3, .createFile "b",
      .openFile "b" 3]) = some t ∧ t.NoLeak := by
  obtain ⟨t, hrun⟩ := Option.isSome_iff_exists.mp (show (run Traced.step (emptyPool 2)
    ([.createFile "a", .openFile "a" 3, .call (.newPage 3), .call (.unpinPage ⟨3, 0⟩ true),
      .call (.deletePage ⟨3, 0⟩), .closeFile 3, .createFile "b", .openFile "b" 3])).isSome by
    decide +kernel)
  exact ⟨t, hrun, (no_page_leaks 2 0 LRUReplacer.empty (fun f hf => List.not_mem_nil hf) _ none _ t
    hrun (by decide +kernel)).1⟩

/-- `close_file` leaves the pages of the file in the pool. When file `b` gets the descriptor that
file `a` had, `fetch_page` answers with the page of `a`, although the clients kept to their part
and all pages are on disk. -/
theorem page_leaks_to_reused_descriptor : ∃ t f s',
    run Traced.step (emptyPool 2)
      (onePageFile "a" 3 1 ++ onePageFile "b" 4 2 ++ [.openFile "b" 3]) = some t ∧
    MeetsAll Traced.step Traced.Disciplined (emptyPool 2)
      (onePageFile "a" 3 1 ++ onePageFile "b" 4 2 ++ [.openFile "b" 3]) ∧
    t.pool.fetchPage ⟨3, 0⟩ = some (some f, s') ∧ (s'.pages f).data.val.head? = some 1 ∧
    (t.pool.disk.page ⟨3, 0⟩).map (·.val.head?) = some (some 2) ∧ ¬ t.NoLeak := by
  have heval : ((run Traced.step (emptyPool 2)
      (onePageFile "a" 3 1 ++ onePageFile "b" 4 2 ++ [.openFile "b" 3])).bind fun t =>
      (t.pool.fetchPage ⟨3, 0⟩).bind fun r => r.1.map fun f =>
        (f, (r.2.pages f).data.val.head?, (t.pool.disk.page ⟨3, 0⟩).map (·.val.head?),
          lookup ⟨3, 0⟩ t.pool.pageTable,
          decide (t.loaded f ≠ t.opening 3 ∧ t.Opened ⟨3, 0⟩))) =
      some (0, some 1, some (some 2), some 0, true) := by decide +kernel
  obtain ⟨t, hrun, heval⟩ := Option.bind_eq_some_iff.mp heval
  obtain ⟨⟨r, s'⟩, hfetch, heval⟩ := Option.bind_eq_some_iff.mp heval
  obtain ⟨f, rfl, heval⟩ := Option.map_eq_some_iff.mp heval
  simp only [Prod.mk.injEq, decide_eq_true_eq] at heval
  obtain ⟨-, hdata, hdisk, hlook, hstale, hopen⟩ := heval
  refine ⟨t, f, s', hrun, by decide +kernel, hfetch, hdata, hdisk, fun hleak => ?_⟩
  rcases hleak.fetched ⟨3, 0⟩ f s' hopen hfetch with ⟨-, heq⟩ | ⟨hnone, -⟩
  · exact hstale heq
  · rw [hlook] at hnone
    cases hnone

end Grmdb
