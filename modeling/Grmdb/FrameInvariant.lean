import Grmdb.BufferPool
import Grmdb.Runs

namespace Grmdb

open AssocMap Runs

namespace BufferPool

variable {ρ : Type} [Replacer ρ]

/-- How page table, frames, free list and replacer hang together. A frame that `delete_page`
gave back may stand in the replacer as well: `placed` does not exclude it, and `pinned` is all
that is needed of the two. -/
structure FrameInv (s : BufferPool ρ) : Prop where
  keys : (s.pageTable.map Prod.fst).Nodup
  table : ∀ id f, lookup id s.pageTable = some f ↔
    f < s.poolSize ∧ (s.pages f).id = id ∧ id.pageNo ≠ INVALID_PAGE_ID
  pinned : ∀ f, 0 < (s.pages f).pinCount → f ∉ s.freeList ∧ ¬ Replacer.Holds s.replacer f
  nodup : s.freeList.Nodup
  free : ∀ f ∈ s.freeList, f < s.poolSize ∧ (s.pages f).id.pageNo = INVALID_PAGE_ID
  candidates : ∀ f, Replacer.Holds s.replacer f → f < s.poolSize
  placed : ∀ f, f < s.poolSize →
    0 < (s.pages f).pinCount ∨ Replacer.Holds s.replacer f ∨ f ∈ s.freeList

theorem frameInv_start (poolSize : Nat) (fd : Fd) {replacer : ρ}
    (hempty : ∀ f, ¬ Replacer.Holds replacer f) (disk : DiskManager) (log : Option LogManager) :
    FrameInv (start poolSize fd replacer disk log) := by
  refine ⟨by simp [start], ?_, ?_, ?_, ?_, ?_, ?_⟩
  · intro id f
    simp only [start, lookup_nil, reduceCtorEq, false_iff, not_and]
    rintro - rfl h
    exact h rfl
  · simp [start]
  · exact List.nodup_range
  · simp [start]
  · intro f hf
    exact absurd hf (hempty f)
  · intro f hf
    exact Or.inr (Or.inr (List.mem_range.mpr hf))

namespace FrameInv

variable {s s' : BufferPool ρ} {id : PageId} {f : FrameId}

/-- The invariant looks only at the ids and pin counts of the pages. -/
theorem congr (h : FrameInv s) (hsize : s'.poolSize = s.poolSize)
    (htable : s'.pageTable = s.pageTable) (hfree : s'.freeList = s.freeList)
    (hrepl : s'.replacer = s.replacer)
    (hpages : ∀ f, (s'.pages f).id = (s.pages f).id ∧ (s'.pages f).pinCount = (s.pages f).pinCount) :
    FrameInv s' := by
  have hid : ∀ f, (s'.pages f).id = (s.pages f).id := fun f => (hpages f).1
  have hpin : ∀ f, (s'.pages f).pinCount = (s.pages f).pinCount := fun f => (hpages f).2
  constructor
  · rw [htable]
    exact h.keys
  · intro id f
    rw [htable, hsize, hid]
    exact h.table id f
  · intro f
    rw [hpin, hfree, hrepl]
    exact h.pinned f
  · rw [hfree]
    exact h.nodup
  · intro f
    rw [hfree, hsize, hid]
    exact h.free f
  · intro f
    rw [hrepl, hsize]
    exact h.candidates f
  · intro f
    rw [hsize, hpin, hrepl, hfree]
    exact h.placed f

theorem id_eq (h : FrameInv s) (hf : lookup id s.pageTable = some f) : (s.pages f).id = id :=
  ((h.table id f).mp hf).2.1

theorem not_free (h : FrameInv s) (hf : lookup id s.pageTable = some f) : f ∉ s.freeList := by
  intro hmem
  have hno := (h.free f hmem).2
  obtain ⟨-, hid, hne⟩ := (h.table id f).mp hf
  rw [hid] at hno
  exact hne hno

theorem injective (h : FrameInv s) {id' : PageId} (hf : lookup id s.pageTable = some f)
    (hf' : lookup id' s.pageTable = some f) : id = id' :=
  (h.id_eq hf).symm.trans (h.id_eq hf')

/-- The frame that `find_victim_page` hands out is unpinned, and with it gone from both lists
the others stay where they are. -/
theorem victim (h : FrameInv s) {s₁ : BufferPool ρ} (hv : s.findVictimPage = some (f, s₁)) :
    f < s.poolSize ∧ (s.pages f).pinCount = 0 ∧ s₁.freeList.Nodup ∧
    (∀ g, g ∈ s₁.freeList ↔ g ∈ s.freeList ∧ g ≠ f) ∧
    ∀ g, Replacer.Holds (Replacer.pin s₁.replacer f) g ↔ Replacer.Holds s.replacer g ∧ g ≠ f := by
  unfold findVictimPage at hv
  split at hv
  next hfree =>
    split at hv
    · cases hv
    next g replacer hvictim =>
      cases Option.some.inj hv
      have hholds := Replacer.holds_of_victim hvictim
      have hunpinned : (s.pages f).pinCount = 0 := by
        by_contra hpos
        exact (h.pinned f (Nat.pos_of_ne_zero hpos)).2 hholds
      refine ⟨h.candidates f hholds, hunpinned, h.nodup, by simp [hfree], ?_⟩
      intro g
      rw [Replacer.holds_pin, Replacer.holds_victim hvictim]
      tauto
  next g freeList hfree =>
    cases Option.some.inj hv
    have hmem : f ∈ s.freeList := by simp [hfree]
    have hnodup := h.nodup
    rw [hfree] at hnodup
    obtain ⟨hnot, hrest⟩ := List.nodup_cons.mp hnodup
    have hunpinned : (s.pages f).pinCount = 0 := by
      by_contra hpos
      exact (h.pinned f (Nat.pos_of_ne_zero hpos)).1 hmem
    refine ⟨(h.free f hmem).1, hunpinned, hrest, ?_, Replacer.holds_pin s.replacer f⟩
    intro g
    rw [hfree, List.mem_cons]
    constructor
    · intro hg
      refine ⟨Or.inr hg, ?_⟩
      rintro rfl
      exact hnot hg
    · rintro ⟨rfl | hg, hne⟩
      · exact absurd rfl hne
      · exact hg

theorem pinFrame (h : FrameInv s) (hf : lookup id s.pageTable = some f) :
    FrameInv (s.pinFrame f) := by
  have hid : ∀ g, ((s.pinFrame f).pages g).id = (s.pages g).id := by
    intro g
    by_cases hg : g = f
    · simp [BufferPool.pinFrame, setPage, hg]
    · simp [BufferPool.pinFrame, setPage, Function.update_of_ne hg]
  have hother : ∀ g, g ≠ f → ((s.pinFrame f).pages g).pinCount = (s.pages g).pinCount := by
    intro g hg
    simp [BufferPool.pinFrame, setPage, Function.update_of_ne hg]
  have hself : 0 < ((s.pinFrame f).pages f).pinCount := by
    simp [BufferPool.pinFrame, setPage]
  have hholds : ∀ g, Replacer.Holds (s.pinFrame f).replacer g ↔
      Replacer.Holds s.replacer g ∧ g ≠ f := Replacer.holds_pin s.replacer f
  constructor
  · exact h.keys
  · intro id' g
    rw [hid]
    exact h.table id' g
  · intro g hg
    rw [hholds]
    by_cases hgf : g = f
    · rw [hgf]
      exact ⟨h.not_free hf, fun hh => hh.2 rfl⟩
    · rw [hother g hgf] at hg
      exact ⟨(h.pinned g hg).1, fun hh => (h.pinned g hg).2 hh.1⟩
  · exact h.nodup
  · intro g hg
    rw [hid]
    exact h.free g hg
  · intro g hg
    exact h.candidates g ((hholds g).mp hg).1
  · intro g hg
    by_cases hgf : g = f
    · exact Or.inl (hgf ▸ hself)
    · rw [hother g hgf, hholds]
      rcases h.placed g hg with hp | hp | hp
      · exact Or.inl hp
      · exact Or.inr (Or.inl ⟨hp, hgf⟩)
      · exact Or.inr (Or.inr hp)

/-- A page that is not in the pool gets the frame of `find_victim_page`. -/
theorem install (h : FrameInv s) {data : PageData} (hi : s.Installs f id data s')
    (hid : lookup id s.pageTable = none) (hno : id.pageNo ≠ INVALID_PAGE_ID) : FrameInv s' := by
  obtain ⟨s₁, hv, hfree, hrepl⟩ := hi.victim
  obtain ⟨hsize, hunpinned, hnodup, hmem, hholds⟩ := h.victim hv
  rw [← hfree] at hnodup hmem
  rw [← hrepl] at hholds
  have hself : s'.pages f = ⟨id, data, false, 1⟩ := by rw [hi.pages, Function.update_self]
  have hother : ∀ g, g ≠ f → s'.pages g = s.pages g := by
    intro g hg
    rw [hi.pages, Function.update_of_ne hg]
  constructor
  · rw [hi.pageTable]
    exact nodup_keys_assign _ _ (nodup_keys_erase _ h.keys)
  · intro id' g
    rw [hi.pageTable, lookup_assign, lookup_erase, hi.poolSize]
    by_cases hgf : g = f
    · subst hgf
      rw [hself]
      constructor
      · intro hlook
        split at hlook
        next hid' => exact ⟨hsize, hid', hid' ▸ hno⟩
        next =>
          split at hlook
          · cases hlook
          next hne => exact absurd (h.id_eq hlook) hne
      · rintro ⟨-, rfl, -⟩
        simp
    · rw [hother g hgf]
      constructor
      · intro hlook
        split at hlook
        · exact absurd (Option.some.inj hlook).symm hgf
        · split at hlook
          · cases hlook
          · exact (h.table id' g).mp hlook
      · rintro ⟨hg, rfl, hvalid⟩
        have hlook := (h.table _ g).mpr ⟨hg, rfl, hvalid⟩
        have hne : id ≠ (s.pages g).id := by
          rintro rfl
          rw [hid] at hlook
          cases hlook
        have hne' : (s.pages f).id ≠ (s.pages g).id := by
          intro heq
          have hf := (h.table _ f).mpr ⟨hsize, heq, hvalid⟩
          rw [hlook] at hf
          exact hgf (Option.some.inj hf)
        rw [if_neg hne, if_neg hne']
        exact hlook
  · intro g hg
    rw [hmem, hholds]
    by_cases hgf : g = f
    · exact ⟨fun hh => hh.2 hgf, fun hh => hh.2 hgf⟩
    · rw [hother g hgf] at hg
      exact ⟨fun hh => (h.pinned g hg).1 hh.1, fun hh => (h.pinned g hg).2 hh.1⟩
  · exact hnodup
  · intro g hg
    obtain ⟨hg, hgf⟩ := (hmem g).mp hg
    rw [hother g hgf, hi.poolSize]
    exact h.free g hg
  · intro g hg
    rw [hi.poolSize]
    exact h.candidates g ((hholds g).mp hg).1
  · intro g hg
    rw [hi.poolSize] at hg
    rw [hholds, hmem]
    by_cases hgf : g = f
    · rw [hgf, hself]
      exact Or.inl Nat.one_pos
    · rw [hother g hgf]
      rcases h.placed g hg with hp | hp | hp
      · exact Or.inl hp
      · exact Or.inr (Or.inl ⟨hp, hgf⟩)
      · exact Or.inr (Or.inr ⟨hp, hgf⟩)

theorem unpinFrame (h : FrameInv s) (hf : lookup id s.pageTable = some f) (isDirty : Bool) :
    FrameInv (s.unpinFrame f isDirty) := by
  have hid : ∀ g, ((s.unpinFrame f isDirty).pages g).id = (s.pages g).id := by
    intro g
    by_cases hg : g = f
    · cases isDirty <;> simp [BufferPool.unpinFrame, setPage, hg]
    · simp [BufferPool.unpinFrame, setPage, Function.update_of_ne hg]
  have hother : ∀ g, g ≠ f →
      ((s.unpinFrame f isDirty).pages g).pinCount = (s.pages g).pinCount := by
    intro g hg
    simp [BufferPool.unpinFrame, setPage, Function.update_of_ne hg]
  have hself : ((s.unpinFrame f isDirty).pages f).pinCount = (s.pages f).pinCount - 1 := by
    cases isDirty <;> simp [BufferPool.unpinFrame, setPage]
  have hholds : ∀ g, Replacer.Holds (s.unpinFrame f isDirty).replacer g ↔
      Replacer.Holds s.replacer g ∨ g = f ∧ (s.pages f).pinCount - 1 = 0 := by
    intro g
    simp only [BufferPool.unpinFrame]
    split
    next hz =>
      rw [Replacer.holds_unpin]
      simp [hz]
    next hz => simp [hz]
  constructor
  · exact h.keys
  · intro id' g
    rw [hid]
    exact h.table id' g
  · intro g hg
    rw [hholds]
    by_cases hgf : g = f
    · subst hgf
      rw [hself] at hg
      have hpin := h.pinned g (by omega)
      refine ⟨hpin.1, ?_⟩
      rintro (hh | ⟨-, hz⟩)
      · exact hpin.2 hh
      · omega
    · rw [hother g hgf] at hg
      refine ⟨(h.pinned g hg).1, ?_⟩
      rintro (hh | ⟨heq, -⟩)
      · exact (h.pinned g hg).2 hh
      · exact hgf heq
  · exact h.nodup
  · intro g hg
    rw [hid]
    exact h.free g hg
  · intro g hg
    rcases (hholds g).mp hg with hh | ⟨rfl, -⟩
    · exact h.candidates g hh
    · exact ((h.table id g).mp hf).1
  · intro g hg
    rw [hholds]
    by_cases hgf : g = f
    · rw [hgf, hself]
      by_cases hz : (s.pages f).pinCount - 1 = 0
      · exact Or.inr (Or.inl (Or.inr ⟨rfl, hz⟩))
      · exact Or.inl (Nat.pos_of_ne_zero hz)
    · rw [hother g hgf]
      rcases h.placed g hg with hp | hp | hp
      · exact Or.inl hp
      · exact Or.inr (Or.inl (Or.inl hp))
      · exact Or.inr (Or.inr hp)

/-- The dropped frame may be in the replacer and on the free list at once. -/
theorem dropFrame (h : FrameInv s) (hf : lookup id s.pageTable = some f) (disk : DiskManager) :
    FrameInv (s.dropFrame id f disk) := by
  have hnot := h.not_free hf
  obtain ⟨hsize, -, -⟩ := (h.table id f).mp hf
  have hself : (s.dropFrame id f disk).pages f =
      ⟨⟨-1, INVALID_PAGE_ID⟩, PageData.zero, false, 0⟩ := Function.update_self ..
  have hother : ∀ g, g ≠ f → (s.dropFrame id f disk).pages g = s.pages g := fun g hg =>
    Function.update_of_ne hg ..
  have hmem : ∀ g, g ∈ (s.dropFrame id f disk).freeList ↔ g ∈ s.freeList ∨ g = f := by
    intro g
    simp [BufferPool.dropFrame]
  have hlookup : ∀ id', lookup id' (s.dropFrame id f disk).pageTable =
      if id = id' then none else lookup id' s.pageTable := fun id' => lookup_erase id' id _
  constructor
  · exact nodup_keys_erase _ h.keys
  · intro id' g
    rw [hlookup]
    by_cases hgf : g = f
    · subst hgf
      rw [hself]
      constructor
      · intro hlook
        split at hlook
        · cases hlook
        next hne => exact absurd (h.injective hf hlook) hne
      · rintro ⟨-, rfl, hno⟩
        exact absurd rfl hno
    · rw [hother g hgf]
      constructor
      · intro hlook
        split at hlook
        · cases hlook
        · exact (h.table id' g).mp hlook
      · intro hcarry
        have hlook := (h.table id' g).mpr hcarry
        have hne : id ≠ id' := by
          rintro rfl
          rw [hf] at hlook
          exact hgf (Option.some.inj hlook).symm
        rw [if_neg hne]
        exact hlook
  · intro g hg
    by_cases hgf : g = f
    · rw [hgf, hself] at hg
      exact absurd hg (Nat.lt_irrefl 0)
    · rw [hother g hgf] at hg
      have hpin := h.pinned g hg
      rw [hmem]
      exact ⟨fun hh => hh.elim hpin.1 hgf, hpin.2⟩
  · have hnodup : (s.freeList ++ [f]).Nodup := by
      rw [List.nodup_append]
      refine ⟨h.nodup, by simp, ?_⟩
      intro g hg g' hg'
      rw [List.mem_singleton] at hg'
      rintro rfl
      exact hnot (hg' ▸ hg)
    exact hnodup
  · intro g hg
    rcases (hmem g).mp hg with hg | hg
    · rw [hother g fun e => hnot (e ▸ hg)]
      exact h.free g hg
    · rw [hg, hself]
      exact ⟨hsize, rfl⟩
  · exact h.candidates
  · intro g hg
    rw [hmem]
    by_cases hgf : g = f
    · exact Or.inr (Or.inr (Or.inr hgf))
    · rw [hother g hgf]
      rcases h.placed g hg with hp | hp | hp
      · exact Or.inl hp
      · exact Or.inr (Or.inl hp)
      · exact Or.inr (Or.inr (Or.inl hp))

theorem setPage (h : FrameInv s) {page : Page} (hid : page.id = (s.pages f).id)
    (hpin : page.pinCount = (s.pages f).pinCount) : FrameInv (s.setPage f page) := by
  refine h.congr rfl rfl rfl rfl fun g => ?_
  by_cases hg : g = f
  · simp [BufferPool.setPage, hg, hid, hpin]
  · simp [BufferPool.setPage, Function.update_of_ne hg]

theorem flushFrame (h : FrameInv s) (hs : s.flushFrame id f = some s') : FrameInv s' := by
  obtain ⟨disk, -, rfl⟩ := flushFrame_eq hs
  have hset : FrameInv (s.setPage f { s.pages f with isDirty := false }) := h.setPage rfl rfl
  exact hset.congr rfl rfl rfl rfl fun g => ⟨rfl, rfl⟩

end FrameInv

/-- The page number that `allocate_page` gives out for a new page is not in use. -/
def Fresh (s : BufferPool ρ) : PoolCall → Prop
  | .newPage fd => lookup ⟨fd, s.disk.fd2pageno fd⟩ s.pageTable = none
  | _ => True

instance (s : BufferPool ρ) (c : PoolCall) : Decidable (s.Fresh c) :=
  match c with
  | .newPage fd =>
    inferInstanceAs (Decidable (lookup ⟨fd, s.disk.fd2pageno fd⟩ s.pageTable = none))
  | .fetchPage _ | .unpinPage _ _ | .flushPage _ | .flushAllPages _ | .deletePage _ | .write _ _ =>
    isTrue trivial

/-- Every call keeps the invariant, as long as new pages get new numbers. -/
theorem FrameInv.call {s s' : BufferPool ρ} (h : FrameInv s) {c : PoolCall} (hc : s.Fresh c)
    (hs : s.call c = some s') : FrameInv s' := by
  cases c with
  | fetchPage id =>
    obtain ⟨⟨r, s₁⟩, hfetch, rfl⟩ := Option.map_eq_some_iff.mp hs
    rcases fetchPage_cases hfetch with ⟨f, hf, -, rfl⟩ | ⟨-, -, rfl⟩ | ⟨f, data, hnone, -, hi, -, hread⟩
    · exact h.pinFrame hf
    · exact h
    · refine h.install hi hnone ?_
      have hpos := (DiskManager.readPage_eq hread).2
      simp only [INVALID_PAGE_ID]
      lia
  | newPage fd =>
    obtain ⟨⟨r, s₁⟩, hnew, rfl⟩ := Option.map_eq_some_iff.mp hs
    rcases newPage_cases hnew with ⟨-, rfl⟩ | ⟨f, n, disk₀, disk₁, halloc, -, hi, -, hwrite⟩
    · exact h
    · rw [DiskManager.allocatePage_eq halloc] at hi hwrite
      refine h.install hi hc ?_
      have hpos := DiskManager.writePage_pageNo hwrite
      simp only [INVALID_PAGE_ID] at hpos ⊢
      lia
  | unpinPage id isDirty =>
    cases Option.some.inj hs
    rcases s.unpinPage_cases id isDirty with ⟨-, heq⟩ | ⟨f, hf, -, heq⟩
    · rw [heq]
      exact h
    · rw [heq]
      exact h.unpinFrame hf isDirty
  | flushPage id =>
    obtain ⟨⟨b, s₁⟩, hflush, rfl⟩ := Option.map_eq_some_iff.mp hs
    rcases flushPage_cases hflush with rfl | ⟨f, -, hf⟩
    · exact h
    · exact h.flushFrame hf
  | flushAllPages fd =>
    exact flushAllPages_induct h (fun t t' id f ht _ hstep => ht.flushFrame hstep) hs
  | deletePage id =>
    obtain ⟨⟨b, s₁⟩, hdelete, rfl⟩ := Option.map_eq_some_iff.mp hs
    rcases deletePage_cases hdelete with rfl | ⟨f, disk, hf, -, -, rfl⟩
    · exact h
    · exact h.dropFrame hf disk
  | write id data =>
    obtain ⟨f, -, rfl⟩ := write_eq hs
    exact h.setPage rfl rfl

end BufferPool

/-- In every run of pool calls the four structures stay in step: a frame is mapped exactly to
the page it carries, pinned frames are out of reach of `find_victim_page`, free frames are
unmapped, and no frame is lost. -/
theorem buffer_pool_frames (poolSize : Nat) (fd : Fd) (disk : DiskManager)
    (log : Option LogManager) (calls : List PoolCall) (s : BufferPool LRUReplacer)
    (hrun : run BufferPool.call (BufferPool.start poolSize fd LRUReplacer.empty disk log) calls =
      some s)
    (hfresh : MeetsAll BufferPool.call BufferPool.Fresh
      (BufferPool.start poolSize fd LRUReplacer.empty disk log) calls) :
    (∀ id id' f, lookup id s.pageTable = some f → lookup id' s.pageTable = some f → id = id') ∧
    (∀ id f, lookup id s.pageTable = some f ↔
      f < s.poolSize ∧ (s.pages f).id = id ∧ id.pageNo ≠ INVALID_PAGE_ID) ∧
    (∀ f, 0 < (s.pages f).pinCount → f ∉ s.freeList ∧ f ∉ s.replacer.lruList ∧
      f ∉ s.replacer.lruHash) ∧
    s.freeList.Nodup ∧ (∀ f ∈ s.freeList, ∀ id, lookup id s.pageTable ≠ some f) ∧
    (∀ f, f < s.poolSize → 0 < (s.pages f).pinCount ∨ f ∈ s.replacer.lruList ∨ f ∈ s.freeList) ∧
    ∀ f s', s.findVictimPage = some (f, s') → (s.pages f).pinCount = 0 := by
  have hstart : BufferPool.FrameInv (BufferPool.start poolSize fd LRUReplacer.empty disk log) :=
    BufferPool.frameInv_start poolSize fd (fun f hf => List.not_mem_nil hf) disk log
  have h : s.FrameInv :=
    run_invariant (fun _ _ _ hs hc hstep => hs.call hc hstep) hstart hfresh hrun
  refine ⟨fun id id' f => h.injective, h.table, ?_, h.nodup, ?_, h.placed, ?_⟩
  · intro f hf
    obtain ⟨hfree, hholds⟩ := h.pinned f hf
    exact ⟨hfree, hholds, fun hhash => hholds ((s.replacer.hash f).mp hhash)⟩
  · intro f hf id hid
    exact h.not_free hid hf
  · intro f s' hv
    exact (h.victim hv).2.1

/-- One empty file, open under descriptor 3. -/
def oneFile : DiskManager where
  openFiles := fun fd => if fd = 3 then some ("t", DiskFile.empty) else none
  closedFiles := fun _ => none
  path2fd := fun path => if path = "t" then some 3 else none
  fd2pageno := fun _ => 0

def oneFramePool : BufferPool LRUReplacer :=
  BufferPool.start 1 0 LRUReplacer.empty oneFile none

/-- The single frame is freed while it is in the replacer, and then taken again. -/
theorem buffer_pool_frames_deleted : ∃ s,
    run BufferPool.call oneFramePool
      [.newPage 3, .unpinPage ⟨3, 0⟩ true, .deletePage ⟨3, 0⟩, .newPage 3] = some s ∧
    s.freeList.Nodup := by
  obtain ⟨s, hrun⟩ := Option.isSome_iff_exists.mp (show (run BufferPool.call oneFramePool
    [.newPage 3, .unpinPage ⟨3, 0⟩ true, .deletePage ⟨3, 0⟩, .newPage 3]).isSome by decide +kernel)
  have h := buffer_pool_frames 1 0 oneFile none _ s hrun (by decide +kernel)
  exact ⟨s, hrun, h.2.2.2.1⟩

end Grmdb
