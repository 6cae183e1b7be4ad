import Grmdb.RecordFile
import Grmdb.LinkedChain
import Grmdb.Runs

namespace Grmdb

open LinkedChain Runs

namespace RmFile

def nextFree (f : RmFile) (p : PageNo) : Option PageNo := (f.pages p).map (·.nextFreePageNo)

/-- The chain of free pages is `free`: by their counters, each page that is not full once, and no
full page. -/
structure Chained (f : RmFile) (free : List PageNo) : Prop where
  sized : f.recordSize ≤ RM_MAX_RECORD_SIZE
  pages_iff : ∀ p, (∃ page, f.pages p = some page) ↔ 1 ≤ p ∧ p < f.numPages
  pages_pos : 1 ≤ f.numPages
  alloc : f.fd2pageno = f.numPages
  chain : Follows f.nextFree RM_NO_PAGE f.firstFreePageNo free
  free_iff : ∀ p, p ∈ free ↔ ∃ page, f.pages p = some page ∧ page.numRecords < f.perPage
  nodup : free.Nodup

theorem getRecord_of_record {f : RmFile} {rid : Rid} {rec : Bytes} (h : f.record rid = some rec) :
    f.getRecord rid = some rec := by
  obtain ⟨page, hp, hrec⟩ := Option.bind_eq_some_iff.mp h
  split at hrec
  next =>
    rw [getRecord, hp]
    exact hrec
  next => cases hrec

/-- What holds of every page of `f` and of the page put at `p` holds of every page after it. -/
theorem forall_write {P : RmPage → Prop} {f : RmFile} {p first' : PageNo} {page' : RmPage}
    (old : ∀ {q page}, f.pages q = some page → P page) (new : P page') {q : PageNo}
    {page : RmPage} (hq : (write { f with firstFreePageNo := first' } p page').pages q =
      some page) : P page := by
  by_cases hqp : q = p
  · simp only [write, hqp, Function.update_self, Option.some.injEq] at hq
    exact hq ▸ new
  · simp only [write, Function.update_of_ne hqp] at hq
    exact old hq

theorem chained_create {recordSize : Nat} (h : recordSize ≤ RM_MAX_RECORD_SIZE) :
    Chained (create recordSize) [] := by
  refine ⟨h, fun p => ?_, le_rfl, rfl, rfl, fun p => ?_, List.nodup_nil⟩
  · simp only [create, reduceCtorEq, exists_false, false_iff]
    lia
  · simp [create]

variable {f : RmFile} {free free' : List PageNo} {p first' : PageNo} {page page' : RmPage}

theorem Chained.page_ne (h : Chained f free) (hp : f.pages p = some page) : p ≠ RM_NO_PAGE := by
  have := ((h.pages_iff p).mp ⟨page, hp⟩).1
  rw [RM_NO_PAGE]
  lia

theorem Chained.first_room {ps : List PageNo} (h : Chained f (p :: ps))
    (hp : f.pages p = some page) : page.numRecords < f.perPage := by
  obtain ⟨pg, hpg, hlt⟩ := (h.free_iff p).mp (by simp)
  cases Option.some.inj (hpg.symm.trans hp)
  exact hlt

/-- One page replaced, with the header and the free list that go with it. -/
theorem Chained.replace (h : Chained f free) (hp : f.pages p = some page)
    (hchain : Follows (write { f with firstFreePageNo := first' } p page').nextFree RM_NO_PAGE
      first' free')
    (hother : ∀ q, q ≠ p → (q ∈ free' ↔ q ∈ free))
    (hhere : p ∈ free' ↔ page'.numRecords < f.perPage) (hnodup : free'.Nodup) :
    Chained (write { f with firstFreePageNo := first' } p page') free' := by
  refine ⟨h.sized, fun q => ?_, h.pages_pos, h.alloc, hchain, fun q => ?_, hnodup⟩
  · refine Iff.trans ?_ (h.pages_iff q)
    by_cases hq : q = p
    · simp [write, hq, hp]
    · simp [write, hq]
  · by_cases hqp : q = p
    · rw [hqp, hhere]
      simp [write, perPage]
    · rw [hother q hqp, h.free_iff q]
      simp [write, hqp, perPage]

theorem nextFree_write_same (hp : f.pages p = some page)
    (hnext : page'.nextFreePageNo = page.nextFreePageNo) (q : PageNo) :
    (write { f with firstFreePageNo := first' } p page').nextFree q = f.nextFree q := by
  by_cases hq : q = p
  · simp [nextFree, write, hq, hp, hnext]
  · simp [nextFree, write, hq]

theorem nextFree_write_ne {q : PageNo} (hq : q ≠ p) :
    (write { f with firstFreePageNo := first' } p page').nextFree q = f.nextFree q := by
  simp [nextFree, write, hq]

/-- A page whose counter does not cross the full mark stays where it is in the chain. -/
theorem Chained.keep (h : Chained f free) (hp : f.pages p = some page)
    (hnext : page'.nextFreePageNo = page.nextFreePageNo)
    (hfull : page'.numRecords < f.perPage ↔ page.numRecords < f.perPage) :
    Chained (f.write p page') free := by
  refine h.replace hp ?_ (fun q _ => Iff.rfl) ?_ h.nodup
  · exact h.chain.congr fun q _ => nextFree_write_same hp hnext q
  · rw [hfull, h.free_iff]
    simp [hp]

/-- The first page of the chain, now full, leaves it. -/
theorem Chained.pop {ps : List PageNo} (h : Chained f (p :: ps)) (hp : f.pages p = some page)
    (hfull : (f.perPage : Int) ≤ page'.numRecords) :
    Chained (write { f with firstFreePageNo := page.nextFreePageNo } p page') ps := by
  obtain ⟨hnotin, hnodup⟩ := List.nodup_cons.mp h.nodup
  obtain ⟨-, q, hq, rest⟩ := h.chain
  have hnext : page.nextFreePageNo = q := by simpa [nextFree, hp] using hq
  refine h.replace hp ?_ (fun x hx => by simp [hx]) ?_ hnodup
  · rw [hnext]
    refine rest.congr fun x hx => nextFree_write_ne ?_
    rintro rfl
    exact hnotin hx
  · simp [hnotin, hfull]

/-- A page that was full enters the chain at its front. -/
theorem Chained.push (h : Chained f free) (hp : f.pages p = some page)
    (hnext : page'.nextFreePageNo = f.firstFreePageNo)
    (hwas : (f.perPage : Int) ≤ page.numRecords) (hroom : page'.numRecords < f.perPage) :
    Chained (write { f with firstFreePageNo := p } p page') (p :: free) := by
  have hnotin : p ∉ free := by
    intro hm
    obtain ⟨pg, hpg, hlt⟩ := (h.free_iff p).mp hm
    cases Option.some.inj (hpg.symm.trans hp)
    omega
  refine h.replace hp ?_ (fun x hx => by simp [hx]) (by simp [hroom])
    (List.nodup_cons.mpr ⟨hnotin, h.nodup⟩)
  refine h.chain.push (by simp [nextFree, write, hnext]) fun x hx => nextFree_write_ne ?_
  rintro rfl
  exact hnotin hx

theorem Chained.next_absent (h : Chained f free) : f.pages f.fd2pageno = none := by
  cases hp : f.pages f.fd2pageno with
  | none => rfl
  | some page =>
    have := ((h.pages_iff _).mp ⟨page, hp⟩).2
    rw [h.alloc] at this
    exact absurd this (lt_irrefl _)

theorem Chained.perPage_pos (h : Chained f free) : 0 < f.perPage := by
  have := numRecordsPerPage_pos h.sized
  simp only [perPage]
  omega

theorem Chained.createNewPageHandle (h : Chained f free) (heq : f.firstFreePageNo = RM_NO_PAGE) :
    Chained f.createNewPageHandle [f.fd2pageno] := by
  have habsent : f.pages RM_NO_PAGE = none := by
    cases hp : f.pages RM_NO_PAGE with
    | none => rfl
    | some page => exact absurd rfl (h.page_ne hp)
  have hnil : free = [] := by
    have := heq ▸ h.chain
    exact this.eq_nil (by simp [nextFree, habsent])
  have hroom := h.perPage_pos
  have alloc := h.alloc
  have pos := h.pages_pos
  refine ⟨h.sized, fun p => ?_, ?_, ?_, ?_, fun p => ?_, by simp⟩
  · have bound := h.pages_iff p
    simp only [RmFile.createNewPageHandle]
    by_cases hp : p = f.fd2pageno
    · simp only [hp, Function.update_self, Option.some.injEq, exists_eq', true_iff]
      lia
    · rw [Function.update_of_ne hp, bound]
      lia
  · simp only [RmFile.createNewPageHandle]
    lia
  · simp only [RmFile.createNewPageHandle, alloc]
  · exact ⟨rfl, RM_NO_PAGE, by simp [nextFree, RmFile.createNewPageHandle], rfl⟩
  · rw [List.mem_singleton]
    by_cases hpn : p = f.fd2pageno
    · simpa [RmFile.createNewPageHandle, hpn, RmPage.zero, perPage] using hroom
    · have notFree := h.free_iff p
      simp only [hnil, List.not_mem_nil, false_iff] at notFree
      simpa [RmFile.createNewPageHandle, hpn, perPage] using notFree

/-- What holds of every page and of a new page holds after `create_page_handle`. -/
theorem forall_createPageHandle {P : RmPage → Prop}
    (old : ∀ {q page}, f.pages q = some page → P page)
    (new : P { RmPage.zero f.recordSize with nextFreePageNo := RM_NO_PAGE }) {q : PageNo}
    (hq : f.createPageHandle.pages q = some page) : P page := by
  unfold RmFile.createPageHandle at hq
  split at hq
  · exact old hq
  · by_cases hqn : q = f.fd2pageno
    · simp only [RmFile.createNewPageHandle, hqn, Function.update_self, Option.some.injEq] at hq
      exact hq ▸ new
    · simp only [RmFile.createNewPageHandle, Function.update_of_ne hqn] at hq
      exact old hq

theorem createPageHandle_recordSize (f : RmFile) :
    f.createPageHandle.recordSize = f.recordSize := by
  unfold RmFile.createPageHandle
  split <;> rfl

/-- `create_page_handle` leaves a page with a free slot at the head of the chain. -/
theorem Chained.createPageHandle (h : Chained f free) :
    ∃ ps, Chained f.createPageHandle (f.createPageHandle.firstFreePageNo :: ps) ∧
      f.createPageHandle.record = f.record := by
  unfold RmFile.createPageHandle
  split
  · next hne =>
    obtain ⟨ps, -, rfl, -⟩ := h.chain.exists_cons hne
    exact ⟨ps, h, rfl⟩
  · next heq =>
    refine ⟨[], h.createNewPageHandle (not_not.mp heq), ?_⟩
    funext rid
    by_cases hp : rid.pageNo = f.fd2pageno
    · simp [record, RmFile.createNewPageHandle, hp, h.next_absent, RmPage.zero]
    · simp [record, RmFile.createNewPageHandle, hp]

/-- The chain is exact and the counters count the set bits, all of them positions of slots. -/
structure Inv (f : RmFile) (free : List PageNo) : Prop extends Chained f free where
  count : ∀ {p page}, f.pages p = some page → page.numRecords = setBits page.bitmap f.perPage
  inside : ∀ {p page i}, f.pages p = some page → page.bitmap i = true → 0 ≤ i ∧ i < f.perPage

theorem inv_create {recordSize : Nat} (h : recordSize ≤ RM_MAX_RECORD_SIZE) :
    Inv (create recordSize) [] := by
  refine ⟨chained_create h, ?_, ?_⟩
  · intro p page hp
    simp [create] at hp
  · intro p page i hp
    simp [create] at hp

theorem Inv.write (h : Inv f free)
    (hchained : Chained (write { f with firstFreePageNo := first' } p page') free')
    (hcount : page'.numRecords = setBits page'.bitmap f.perPage)
    (hinside : ∀ i, page'.bitmap i = true → 0 ≤ i ∧ i < f.perPage) :
    Inv (write { f with firstFreePageNo := first' } p page') free' := by
  refine ⟨hchained, fun hq => ?_, fun {q pg i} hq => ?_⟩
  · exact forall_write (P := fun pg => pg.numRecords = setBits pg.bitmap f.perPage)
      h.count hcount hq
  · exact forall_write (P := fun pg => ∀ i, pg.bitmap i = true → 0 ≤ i ∧ i < f.perPage)
      (fun hq i => h.inside hq) hinside hq i

theorem Inv.createPageHandle (h : Inv f free) :
    ∃ ps, Inv f.createPageHandle (f.createPageHandle.firstFreePageNo :: ps) ∧
      f.createPageHandle.record = f.record := by
  obtain ⟨ps, hchained, hrecord⟩ := h.toChained.createPageHandle
  have hper : f.createPageHandle.perPage = f.perPage := by
    simp only [perPage, createPageHandle_recordSize]
  refine ⟨ps, ⟨hchained, fun hq => ?_, fun {q pg i} hq => ?_⟩, hrecord⟩
  · rw [hper]
    exact forall_createPageHandle (P := fun pg => pg.numRecords = setBits pg.bitmap f.perPage)
      h.count (by simp [RmPage.zero, setBits]) hq
  · rw [hper]
    exact forall_createPageHandle
      (P := fun pg => ∀ i, pg.bitmap i = true → 0 ≤ i ∧ i < f.perPage)
      (fun hq i => h.inside hq) (by simp [RmPage.zero]) hq i

theorem record_write (f : RmFile) (p : PageNo) (page : RmPage) (rid : Rid) :
    (f.write p page).record rid =
      if rid.pageNo = p then
        if page.bitmap rid.slotNo then some (page.slots rid.slotNo) else none
      else f.record rid := by
  by_cases h : rid.pageNo = p
  · simp [record, write, h]
  · simp [record, write, h]

theorem record_of_page (hp : f.pages p = some page) (i : Int) :
    f.record ⟨p, i⟩ = if page.bitmap i then some (page.slots i) else none := by
  simp [record, hp]

/-- Writing `page'`, which differs from the page of `p` at the position `i` only, changes the
record of that position only. -/
theorem record_write_one (hp : f.pages p = some page) {i : Int} {v : Option Bytes}
    (here : (if page'.bitmap i then some (page'.slots i) else none) = v)
    (bits : ∀ j, j ≠ i → page'.bitmap j = page.bitmap j)
    (bytes : ∀ j, j ≠ i → page'.slots j = page.slots j) (first' : PageNo) :
    (write { f with firstFreePageNo := first' } p page').record =
      Function.update f.record ⟨p, i⟩ v := by
  funext rid
  rw [record_write]
  by_cases hrid : rid = ⟨p, i⟩
  · subst hrid
    simp [here]
  · rw [Function.update_of_ne hrid]
    split
    · next hpage =>
      have hslot : rid.slotNo ≠ i := fun e => hrid (by cases rid; simp_all)
      rw [bits _ hslot, bytes _ hslot]
      obtain ⟨q, j⟩ := rid
      simp only at hpage
      subst hpage
      exact (record_of_page hp j).symm
    · rfl

@[simp] theorem stamp_numRecords (page : RmPage) (ctx : Option Lsn) :
    (page.stamp ctx).numRecords = page.numRecords := by
  cases ctx <;> rfl

@[simp] theorem stamp_bitmap (page : RmPage) (ctx : Option Lsn) :
    (page.stamp ctx).bitmap = page.bitmap := by
  cases ctx <;> rfl

@[simp] theorem stamp_slots (page : RmPage) (ctx : Option Lsn) :
    (page.stamp ctx).slots = page.slots := by
  cases ctx <;> rfl

@[simp] theorem stamp_nextFreePageNo (page : RmPage) (ctx : Option Lsn) :
    (page.stamp ctx).nextFreePageNo = page.nextFreePageNo := by
  cases ctx <;> rfl

/-- What `insert_record(buf)` writes over the page it has chosen. -/
def inserted (page : RmPage) (i : Int) (buf : Bytes) (ctx : Option Lsn) : RmPage :=
  { (page.copy i buf).set i with numRecords := page.numRecords + 1 }.stamp ctx

/-- What `delete_record` writes over the page of the record. -/
def deleted (page : RmPage) (i : Int) (ctx : Option Lsn) : RmPage :=
  { page.reset i with numRecords := page.numRecords - 1 }.stamp ctx

theorem fill_pages (f : RmFile) (p : PageNo) (page : RmPage) : ∃ next, (f.fill p page).pages =
    Function.update f.pages p (some { page with nextFreePageNo := next }) := by
  unfold RmFile.fill
  split
  · exact ⟨RM_NO_PAGE, rfl⟩
  · exact ⟨page.nextFreePageNo, rfl⟩

theorem unfill_pages (f : RmFile) (p : PageNo) (page : RmPage) : ∃ next, (f.unfill p page).pages =
    Function.update f.pages p (some { page with nextFreePageNo := next }) := by
  unfold RmFile.unfill RmFile.releasePageHandle
  split
  · split
    · exact ⟨page.nextFreePageNo, rfl⟩
    · exact ⟨f.firstFreePageNo, rfl⟩
  · exact ⟨page.nextFreePageNo, rfl⟩

/-- The effect of `insert_record(buf)` on the first page of the chain. -/
theorem Inv.fill {ps : List PageNo} {i : Nat} (h : Inv f (p :: ps))
    (hp : f.pages p = some page) (hi : i < f.perPage)
    (hfree : page.bitmap i = false) (buf : Bytes) (ctx : Option Lsn) :
    ∃ free', Inv (f.fill p (inserted page i buf ctx)) free' ∧
      (f.fill p (inserted page i buf ctx)).recordSize = f.recordSize ∧
      (f.fill p (inserted page i buf ctx)).record =
        Function.update f.record ⟨p, i⟩ (some buf) := by
  have hcount : (inserted page i buf ctx).numRecords =
      setBits (inserted page i buf ctx).bitmap f.perPage := by
    have := h.count hp
    simp only [inserted, RmPage.set, RmPage.copy, stamp_numRecords, stamp_bitmap,
      setBits_set hi hfree]
    lia
  have hinside : ∀ j, (inserted page i buf ctx).bitmap j = true → 0 ≤ j ∧ j < f.perPage := by
    intro j hj
    by_cases hji : j = i
    · lia
    · simp only [inserted, RmPage.set, RmPage.copy, stamp_bitmap, Function.update_of_ne hji] at hj
      exact h.inside hp hj
  have here : (if (inserted page i buf ctx).bitmap i then some ((inserted page i buf ctx).slots i)
      else none) = some buf := by
    simp [inserted, RmPage.set, RmPage.copy]
  have bits : ∀ j, j ≠ (i : Int) → (inserted page i buf ctx).bitmap j = page.bitmap j := by
    intro j hj
    simp [inserted, RmPage.set, RmPage.copy, hj]
  have bytes : ∀ j, j ≠ (i : Int) → (inserted page i buf ctx).slots j = page.slots j := by
    intro j hj
    simp [inserted, RmPage.set, RmPage.copy, hj]
  have hroom := h.first_room hp
  unfold RmFile.fill
  split
  · next hfull =>
    have hnext : (inserted page i buf ctx).nextFreePageNo = page.nextFreePageNo := by
      simp [inserted, RmPage.set, RmPage.copy]
    rw [hnext]
    refine ⟨ps, h.write (h.pop hp hfull) hcount hinside, rfl, record_write_one hp ?_ ?_ ?_ _⟩
    · exact here
    · exact bits
    · exact bytes
  · next hnot =>
    refine ⟨p :: ps, h.write (h.keep hp ?_ ?_) hcount hinside, rfl,
      record_write_one hp here bits bytes _⟩
    · simp [inserted, RmPage.set, RmPage.copy]
    · lia

/-- `insert_record(buf)` puts the record into a free slot of the first page of the chain. -/
theorem Inv.insertRecord (h : Inv f free) (buf : Bytes) (ctx : Option Lsn) :
    ∃ f' rid free', f.insertRecord buf ctx = some (f', rid) ∧ Inv f' free' ∧
      f.record rid = none ∧ 0 ≤ rid.slotNo ∧ rid.slotNo < f.perPage ∧
      f'.recordSize = f.recordSize ∧ f'.record = Function.update f.record rid (some buf) := by
  obtain ⟨ps, h₁, hrecord⟩ := h.createPageHandle
  obtain ⟨page, hp, hroom⟩ := (h₁.free_iff f.createPageHandle.firstFreePageNo).mp (by simp)
  have hsize := createPageHandle_recordSize f
  have hcount := h₁.count hp
  obtain ⟨i, hi, hbit, hfree⟩ :=
    @firstBit_free page.bitmap f.createPageHandle.perPage (by lia)
  obtain ⟨free', hinv, hrs, hrec⟩ := h₁.fill hp hi hfree buf ctx
  refine ⟨_, ⟨_, i⟩, free', ?_, hinv, ?_, by simp, ?_, hrs.trans hsize, hrecord ▸ hrec⟩
  · simp only [RmFile.insertRecord, hp, Option.map_some, hbit]
    rfl
  · rw [← hrecord, record_of_page hp, hfree]
    rfl
  · simpa [perPage, hsize] using hi

/-- `delete_record` of a live record. -/
theorem Inv.deleteRecord {rid : Rid} (h : Inv f free) (hlive : f.record rid ≠ none)
    (ctx : Option Lsn) :
    ∃ f' free', f.deleteRecord rid ctx = some f' ∧ Inv f' free' ∧
      f'.recordSize = f.recordSize ∧ f'.record = Function.update f.record rid none := by
  obtain ⟨p, i⟩ := rid
  cases hp : f.pages p with
  | none => simp [record, hp] at hlive
  | some page =>
  have hset : page.bitmap i = true := by
    rw [record_of_page hp] at hlive
    by_contra hb
    simp [hb] at hlive
  obtain ⟨hpos, hlt⟩ := h.inside hp hset
  obtain ⟨j, rfl⟩ := Int.eq_ofNat_of_zero_le hpos
  have hcount : (deleted page j ctx).numRecords =
      setBits (deleted page j ctx).bitmap f.perPage := by
    have := h.count hp
    have := @setBits_reset page.bitmap f.perPage j (by lia) hset
    simp only [deleted, RmPage.reset, stamp_numRecords, stamp_bitmap]
    lia
  have hinside : ∀ k, (deleted page j ctx).bitmap k = true → 0 ≤ k ∧ k < f.perPage := by
    intro k hk
    by_cases hkj : k = j
    · simp [deleted, RmPage.reset, hkj] at hk
    · simp only [deleted, RmPage.reset, stamp_bitmap, Function.update_of_ne hkj] at hk
      exact h.inside hp hk
  have hnum : (deleted page j ctx).numRecords = page.numRecords - 1 := by simp [deleted]
  have hnext : (deleted page j ctx).nextFreePageNo = page.nextFreePageNo := by
    simp [deleted, RmPage.reset]
  have here : (if (deleted page j ctx).bitmap j then some ((deleted page j ctx).slots j)
      else none) = none := by
    simp [deleted, RmPage.reset]
  have bits : ∀ k, k ≠ (j : Int) → (deleted page j ctx).bitmap k = page.bitmap k := by
    intro k hk
    simp [deleted, RmPage.reset, hk]
  have bytes : ∀ k, k ≠ (j : Int) → (deleted page j ctx).slots k = page.slots k := by
    intro k _
    simp [deleted, RmPage.reset]
  have hbound : page.numRecords ≤ f.perPage := by
    have := setBits_le page.bitmap f.perPage
    have := h.count hp
    lia
  have hrun : f.deleteRecord ⟨p, j⟩ ctx = some (f.unfill p (deleted page j ctx)) := by
    simp only [RmFile.deleteRecord, hp, Option.map_some]
    rfl
  rw [hrun]
  unfold RmFile.unfill
  split
  · next hrelease =>
    have hnotfirst : p ≠ f.firstFreePageNo := by
      rintro rfl
      obtain ⟨rest, q, rfl, -⟩ := h.chain.exists_cons (h.page_ne hp)
      obtain ⟨pg, hpg, hroom⟩ := (h.free_iff f.firstFreePageNo).mp (by simp)
      cases Option.some.inj (hpg.symm.trans hp)
      lia
    rw [RmFile.releasePageHandle, if_neg hnotfirst]
    refine ⟨_, p :: free, rfl, h.write (h.push hp rfl ?_ ?_) hcount hinside, rfl, ?_⟩
    · lia
    · simp only
      lia
    · refine record_write_one hp ?_ ?_ ?_ _
      · exact here
      · exact bits
      · exact bytes
  · next hstay =>
    refine ⟨_, free, rfl, h.write (h.keep hp hnext ?_) hcount hinside, rfl, ?_⟩
    · lia
    · exact record_write_one hp here bits bytes _

/-- `update_record` of a live record. -/
theorem Inv.updateRecord {rid : Rid} (h : Inv f free) (hlive : f.record rid ≠ none) (buf : Bytes)
    (ctx : Option Lsn) :
    ∃ f', f.updateRecord rid buf ctx = some f' ∧ Inv f' free ∧ f'.recordSize = f.recordSize ∧
      f'.record = Function.update f.record rid (some buf) := by
  obtain ⟨p, i⟩ := rid
  cases hp : f.pages p with
  | none => simp [record, hp] at hlive
  | some page =>
  have hset : page.bitmap i = true := by
    rw [record_of_page hp] at hlive
    by_contra hb
    simp [hb] at hlive
  refine ⟨f.write p ((page.copy i buf).stamp ctx), by simp [RmFile.updateRecord, hp], ?_, rfl, ?_⟩
  · refine h.write (h.keep hp (by simp [RmPage.copy]) (by simp [RmPage.copy])) ?_ ?_
    · simpa [RmPage.copy] using h.count hp
    · intro j hj
      exact h.inside hp (by simpa [RmPage.copy] using hj)
  · refine record_write_one hp ?_ ?_ ?_ f.firstFreePageNo
    · simp [RmPage.copy, hset]
    · intro j _
      simp [RmPage.copy]
    · intro j hj
      simp [RmPage.copy, hj]

end RmFile

/-- The calls of the record file, each with the LSN of its context. -/
inductive RmOp where
  | insert (buf : Bytes) (ctx : Option Lsn)
  | update (rid : Rid) (buf : Bytes) (ctx : Option Lsn)
  | delete (rid : Rid) (ctx : Option Lsn)

/-- A record file beside the map of the records it should hold. -/
structure RmRun where
  file : RmFile
  map : Rid → Option Bytes

namespace RmRun

def start (recordSize : Nat) : RmRun := ⟨RmFile.create recordSize, fun _ => none⟩

/-- Updates and deletes name a rid that holds a record. -/
def step (s : RmRun) : RmOp → Option RmRun
  | .insert buf ctx =>
    (s.file.insertRecord buf ctx).map fun r => ⟨r.1, Function.update s.map r.2 (some buf)⟩
  | .update rid buf ctx =>
    if s.map rid = none then none
    else (s.file.updateRecord rid buf ctx).map fun f => ⟨f, Function.update s.map rid (some buf)⟩
  | .delete rid ctx =>
    if s.map rid = none then none
    else (s.file.deleteRecord rid ctx).map fun f => ⟨f, Function.update s.map rid none⟩

structure Inv (recordSize : Nat) (s : RmRun) : Prop where
  file : ∃ free, s.file.Inv free
  size : s.file.recordSize = recordSize
  agree : s.file.record = s.map

theorem inv_start {recordSize : Nat} (h : recordSize ≤ RM_MAX_RECORD_SIZE) :
    Inv recordSize (start recordSize) :=
  ⟨⟨[], RmFile.inv_create h⟩, rfl, by funext rid; simp [start, RmFile.create, RmFile.record]⟩

theorem inv_step {recordSize : Nat} {s s' : RmRun} {op : RmOp} (hi : Inv recordSize s)
    (h : s.step op = some s') : Inv recordSize s' := by
  obtain ⟨⟨free, hfile⟩, hsize, hagree⟩ := hi
  cases op with
  | insert buf ctx =>
    obtain ⟨f', rid, free', run, hinv, -, -, -, hrs, hrec⟩ := hfile.insertRecord buf ctx
    simp only [step, run, Option.map_some, Option.some.injEq] at h
    subst h
    exact ⟨⟨free', hinv⟩, hrs.trans hsize, by rw [hrec, hagree]⟩
  | update rid buf ctx =>
    simp only [step] at h
    split at h
    · cases h
    next hlive =>
    obtain ⟨f', run, hinv, hrs, hrec⟩ := hfile.updateRecord (hagree ▸ hlive) buf ctx
    simp only [run, Option.map_some, Option.some.injEq] at h
    subst h
    exact ⟨⟨free, hinv⟩, hrs.trans hsize, by rw [hrec, hagree]⟩
  | delete rid ctx =>
    simp only [step] at h
    split at h
    · cases h
    next hlive =>
    obtain ⟨f', free', run, hinv, hrs, hrec⟩ := hfile.deleteRecord (hagree ▸ hlive) ctx
    simp only [run, Option.map_some, Option.some.injEq] at h
    subst h
    exact ⟨⟨free', hinv⟩, hrs.trans hsize, by rw [hrec, hagree]⟩

theorem inv_run {recordSize : Nat} {s s' : RmRun} {tr : List RmOp} (hi : Inv recordSize s)
    (h : run step s tr = some s') : Inv recordSize s' :=
  run_invariant_all (fun _ _ _ hi hstep => inv_step hi hstep) hi h

/-- What a record file owes its callers: a record goes to a free slot inside its page, every call
on a live record succeeds, live records read back, counters count, and the free page chain is
exact. -/
structure IsMap (recordSize : Nat) (s : RmRun) : Prop where
  insert : ∀ buf ctx, ∃ f rid, s.file.insertRecord buf ctx = some (f, rid) ∧ s.map rid = none ∧
    ∃ i, rid.slotNo = (i : Nat) ∧ i < numRecordsPerPage recordSize ∧
      slotOffset recordSize i + recordSize ≤ PAGE_SIZE
  update : ∀ rid buf ctx, s.map rid ≠ none → ∃ f, s.file.updateRecord rid buf ctx = some f
  delete : ∀ rid ctx, s.map rid ≠ none → ∃ f, s.file.deleteRecord rid ctx = some f
  read : ∀ rid buf, s.map rid = some buf → s.file.getRecord rid = some buf
  count : ∀ p page, s.file.pages p = some page →
    page.numRecords = setBits page.bitmap (numRecordsPerPage recordSize)
  chain : ∃ free : List PageNo, free.Nodup ∧
    Follows s.file.nextFree RM_NO_PAGE s.file.firstFreePageNo free ∧
    ∀ p, p ∈ free ↔ ∃ page, s.file.pages p = some page ∧
      setBits page.bitmap (numRecordsPerPage recordSize) < numRecordsPerPage recordSize

theorem Inv.isMap {recordSize : Nat} {s : RmRun} (hi : Inv recordSize s) : IsMap recordSize s := by
  obtain ⟨⟨free, hfile⟩, rfl, hagree⟩ := hi
  refine ⟨?_, ?_, ?_, ?_, fun p page hp => hfile.count hp, free, hfile.nodup, hfile.chain, ?_⟩
  · intro buf ctx
    obtain ⟨f', rid, -, run, -, hnone, hpos, hlt, -⟩ := hfile.insertRecord buf ctx
    obtain ⟨i, hi⟩ := Int.eq_ofNat_of_zero_le hpos
    have hin : i < numRecordsPerPage s.file.recordSize := by
      rw [hi] at hlt
      exact_mod_cast hlt
    exact ⟨f', rid, run, hagree ▸ hnone, i, hi, hin, slotOffset_fits hin⟩
  · intro rid buf ctx hlive
    obtain ⟨f', run, -⟩ := hfile.updateRecord (hagree ▸ hlive) buf ctx
    exact ⟨f', run⟩
  · intro rid ctx hlive
    obtain ⟨f', -, run, -⟩ := hfile.deleteRecord (hagree ▸ hlive) ctx
    exact ⟨f', run⟩
  · intro rid buf hm
    rw [← hagree] at hm
    obtain ⟨page, hp, hbuf⟩ := Option.bind_eq_some_iff.mp hm
    split at hbuf
    · simp [RmFile.getRecord, hp, Option.some.inj hbuf]
    · cases hbuf
  · intro p
    rw [hfile.free_iff p]
    constructor
    · rintro ⟨page, hp, hlt⟩
      refine ⟨page, hp, ?_⟩
      rw [hfile.count hp] at hlt
      exact_mod_cast hlt
    · rintro ⟨page, hp, hlt⟩
      refine ⟨page, hp, ?_⟩
      rw [hfile.count hp]
      exact_mod_cast hlt

/-- Over every sequence of calls from a new file, the record file is the map of its records. -/
theorem isMap_of_run {recordSize : Nat} (hsize : 1 ≤ recordSize ∧ recordSize ≤ RM_MAX_RECORD_SIZE)
    {tr : List RmOp} {s : RmRun} (h : run step (start recordSize) tr = some s) :
    IsMap recordSize s :=
  (inv_run (inv_start hsize.2) h).isMap

theorem isMap_of_run_insertDelete :
    ∃ s, run step (start 512) [.insert [1] none, .delete ⟨1, 0⟩ none] = some s ∧
      IsMap 512 s := by
  obtain ⟨s, hs⟩ := Option.isSome_iff_exists.mp
    (show (run step (start 512) [.insert [1] none, .delete ⟨1, 0⟩ none]).isSome from by decide)
  exact ⟨s, hs, isMap_of_run (by decide) hs⟩

end RmRun

end Grmdb
