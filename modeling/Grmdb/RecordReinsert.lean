import Grmdb.RecordMap

namespace Grmdb

open LinkedChain Runs

/-- The calls of the record file together with the positional insert of a rollback. -/
inductive RmCall where
  | op (op : RmOp)
  | reinsert (rid : Rid) (buf : Bytes)

namespace RmFile

/-- Updates and deletes name a rid whose bit is set, a positional insert one whose bit is not. -/
def callStep (f : RmFile) : RmCall → Option RmFile
  | .op (.insert buf ctx) => (f.insertRecord buf ctx).map Prod.fst
  | .op (.update rid buf ctx) => if f.isRecord rid then f.updateRecord rid buf ctx else none
  | .op (.delete rid ctx) => if f.isRecord rid then f.deleteRecord rid ctx else none
  | .reinsert rid buf => if f.isRecord rid then none else f.insertRecordAt rid buf

/-- Page `p` is reached from the header along `next_free_page_no`. -/
def OnChain (f : RmFile) (p : PageNo) : Prop :=
  Relation.ReflTransGen (fun a b => f.nextFree a = some b) f.firstFreePageNo p

/-- What a rollback should leave of page `p`: a counter that counts, no full page on the chain and
no later insert into an occupied slot or a slot behind the last one. -/
structure Restored (f : RmFile) (p : PageNo) : Prop where
  count : ∀ page, f.pages p = some page → page.numRecords = setBits page.bitmap f.perPage
  full : ∀ page, f.pages p = some page → setBits page.bitmap f.perPage = f.perPage →
    ¬f.OnChain p
  later : ∀ tr f₁ buf ctx f₂ rid, run callStep f tr = some f₁ →
    f₁.insertRecord buf ctx = some (f₂, rid) →
      f₁.isRecord rid = false ∧ rid.slotNo ≠ f₁.perPage

/-- With positional inserts the counters still bound the chain, and count at most the bits. -/
structure Low (f : RmFile) (free : List PageNo) : Prop extends Chained f free where
  low : ∀ {p page}, f.pages p = some page → page.numRecords ≤ setBits page.bitmap f.perPage

/-- The slot that `insert_record` takes holds no record: the first page of the chain, if there is
one, has a free slot, or no record behind its last slot. -/
def Room (f : RmFile) : Prop :=
  ∀ page, f.pages f.firstFreePageNo = some page →
    (∃ i < f.perPage, page.bitmap (i : Nat) = false) ∨ page.bitmap f.perPage = false

instance decidableRoom (f : RmFile) : Decidable f.Room :=
  decidable_of_iff ((f.pages f.firstFreePageNo).all fun page =>
      decide ((∃ i < f.perPage, page.bitmap (i : Nat) = false) ∨
        page.bitmap f.perPage = false)) <| by
    cases h : f.pages f.firstFreePageNo <;> simp [Room, h]

variable {f f' : RmFile} {free free' : List PageNo} {p first' : PageNo} {page page' : RmPage}

theorem low_create {recordSize : Nat} (h : recordSize ≤ RM_MAX_RECORD_SIZE) :
    Low (create recordSize) [] := by
  refine ⟨chained_create h, ?_⟩
  intro p page hp
  simp [create] at hp

theorem Low.write (h : Low f free)
    (hchained : Chained (write { f with firstFreePageNo := first' } p page') free')
    (hlow : page'.numRecords ≤ setBits page'.bitmap f.perPage) :
    Low (write { f with firstFreePageNo := first' } p page') free' := by
  refine ⟨hchained, fun hq => ?_⟩
  exact forall_write (P := fun pg => pg.numRecords ≤ setBits pg.bitmap f.perPage) h.low hlow hq

theorem Low.le_perPage (h : Low f free) (hp : f.pages p = some page) :
    page.numRecords ≤ f.perPage := by
  have := h.low hp
  have := setBits_le page.bitmap f.perPage
  lia

theorem isRecord_page {rid : Rid} (h : f.isRecord rid = true) :
    ∃ page, f.pages rid.pageNo = some page ∧ page.bitmap rid.slotNo = true := by
  cases hp : f.pages rid.pageNo with
  | none => simp [isRecord, hp] at h
  | some page => exact ⟨page, rfl, by simpa [isRecord, hp] using h⟩

theorem isRecord_iff {rid : Rid} : f.isRecord rid = true ↔ f.record rid ≠ none := by
  cases hp : f.pages rid.pageNo with
  | none => simp [isRecord, record, hp]
  | some page =>
    cases hb : page.bitmap rid.slotNo <;> simp [isRecord, record, hp, hb]

section Puts

variable {rid : Rid} {buf : Bytes} {ctx : Option Lsn}

/-- A call that changes one slot of one page: what a scan shows then, and which pages there are. -/
structure Puts (f f' : RmFile) (rid : Rid) (v : Option Bytes) : Prop where
  record : f'.record = Function.update f.record rid v
  pages : ∀ q, (f.pages q).isSome → (f'.pages q).isSome
  there : (f'.pages rid.pageNo).isSome

theorem puts_of_pages {page page' : RmPage} {v : Option Bytes}
    (hp : f.pages rid.pageNo = some page)
    (hpages : f'.pages = Function.update f.pages rid.pageNo (some page'))
    (here : (if page'.bitmap rid.slotNo then some (page'.slots rid.slotNo) else none) = v)
    (bits : ∀ j, j ≠ rid.slotNo → page'.bitmap j = page.bitmap j)
    (bytes : ∀ j, j ≠ rid.slotNo → page'.slots j = page.slots j) : f.Puts f' rid v := by
  refine ⟨?_, fun q hq => ?_, by simp [hpages]⟩
  · have hone := record_write_one hp here bits bytes f.firstFreePageNo
    rw [← hone]
    funext x
    simp only [RmFile.record, hpages]
    rfl
  · rw [hpages]
    by_cases hqp : q = rid.pageNo
    · simp [hqp]
    · simpa [hqp] using hq

theorem insertRecord_puts (h : Chained f free) (hrun : f.insertRecord buf ctx = some (f', rid)) :
    f.Puts f' rid (some buf) := by
  obtain ⟨-, -, hrecord⟩ := h.createPageHandle
  obtain ⟨page, hp, he⟩ := Option.map_eq_some_iff.mp hrun
  obtain ⟨hf, rfl⟩ := Prod.mk.inj he
  obtain ⟨next, hpages⟩ := fill_pages f.createPageHandle f.createPageHandle.firstFreePageNo
    (inserted page (firstBit false page.bitmap f.createPageHandle.perPage) buf ctx)
  have hput : f.createPageHandle.Puts f' ⟨f.createPageHandle.firstFreePageNo,
      firstBit false page.bitmap f.createPageHandle.perPage⟩ (some buf) := by
    refine puts_of_pages hp (hf ▸ hpages) ?_ ?_ ?_
    · simp [inserted, RmPage.set, RmPage.copy]
    · intro j hj
      simp [inserted, RmPage.set, RmPage.copy, hj]
    · intro j hj
      simp [inserted, RmPage.set, RmPage.copy, hj]
  refine ⟨hrecord ▸ hput.record, fun q hq => hput.pages q ?_, hput.there⟩
  unfold RmFile.createPageHandle
  split
  · exact hq
  · by_cases hqn : q = f.fd2pageno
    · simp [RmFile.createNewPageHandle, hqn]
    · simpa [RmFile.createNewPageHandle, hqn] using hq

theorem deleteRecord_puts (hrun : f.deleteRecord rid ctx = some f') : f.Puts f' rid none := by
  obtain ⟨page, hp, rfl⟩ := Option.map_eq_some_iff.mp hrun
  obtain ⟨next, hpages⟩ := unfill_pages f rid.pageNo (deleted page rid.slotNo ctx)
  refine puts_of_pages hp hpages ?_ ?_ ?_
  · simp [deleted, RmPage.reset]
  · intro j hj
    simp [deleted, RmPage.reset, hj]
  · intro j hj
    simp [deleted, RmPage.reset]

theorem insertRecordAt_puts (hrun : f.insertRecordAt rid buf = some f') :
    f.Puts f' rid (some buf) := by
  obtain ⟨page, hp, rfl⟩ := Option.map_eq_some_iff.mp hrun
  refine puts_of_pages hp rfl ?_ ?_ ?_
  · simp [RmPage.set, RmPage.copy]
  · intro j hj
    simp [RmPage.set, RmPage.copy, hj]
  · intro j hj
    simp [RmPage.set, RmPage.copy, hj]

theorem deleteRecord_of_record {rec : Bytes} (h : f.record rid = some rec) (ctx : Option Lsn) :
    ∃ f', f.deleteRecord rid ctx = some f' ∧ f.Puts f' rid none := by
  obtain ⟨page, hp, -⟩ := Option.bind_eq_some_iff.mp h
  have hrun : ∃ f', f.deleteRecord rid ctx = some f' := by simp [RmFile.deleteRecord, hp]
  obtain ⟨f', hrun⟩ := hrun
  exact ⟨f', hrun, deleteRecord_puts hrun⟩

theorem insertRecordAt_of_page (hp : (f.pages rid.pageNo).isSome) (buf : Bytes) :
    ∃ f', f.insertRecordAt rid buf = some f' ∧ f.Puts f' rid (some buf) := by
  obtain ⟨page, hp⟩ := Option.isSome_iff_exists.mp hp
  have hrun : ∃ f', f.insertRecordAt rid buf = some f' := by simp [RmFile.insertRecordAt, hp]
  obtain ⟨f', hrun⟩ := hrun
  exact ⟨f', hrun, insertRecordAt_puts hrun⟩

theorem updateRecord_of_record {rec : Bytes} (h : f.record rid = some rec) (buf : Bytes)
    (ctx : Option Lsn) :
    ∃ f', f.updateRecord rid buf ctx = some f' ∧ f.Puts f' rid (some buf) := by
  have hlive : f.record rid ≠ none := by simp [h]
  obtain ⟨page, hp, hset⟩ := isRecord_page (isRecord_iff.mpr hlive)
  refine ⟨f.write rid.pageNo ((page.copy rid.slotNo buf).stamp ctx),
    by simp [RmFile.updateRecord, hp], puts_of_pages hp rfl ?_ ?_ ?_⟩
  · simp [RmPage.copy, hset]
  · intro j _
    simp [RmPage.copy]
  · intro j hj
    simp [RmPage.copy, hj]

/-- The first clear bit, or the one behind the last, is clear exactly if one of them is. -/
theorem firstBit_clear_iff (bm : Int → Bool) (n : Nat) :
    bm (firstBit false bm n) = false ↔ (∃ i < n, bm (i : Nat) = false) ∨ bm n = false := by
  rcases lt_or_eq_of_le (setBits_le bm n) with hlt | heq
  · obtain ⟨i, hi, hbit, hfree⟩ := firstBit_free hlt
    rw [hbit]
    exact ⟨fun _ => Or.inl ⟨i, hi, hfree⟩, fun _ => hfree⟩
  · rw [firstBit_full heq]
    refine ⟨Or.inr, fun h => h.resolve_left ?_⟩
    rintro ⟨i, hi, hfree⟩
    have hset := setBits_set hi hfree
    have := setBits_le (Function.update bm i true) n
    omega

/-- `insert_record` returns, and takes a slot without a record exactly if there is room. -/
theorem insertRecord_takes (h : Chained f free) (buf : Bytes) (ctx : Option Lsn) :
    ∃ f' rid, f.insertRecord buf ctx = some (f', rid) ∧ f.Puts f' rid (some buf) ∧
      (f.record rid = none ↔ f.Room) := by
  obtain ⟨ps, hchained, hrecord⟩ := h.createPageHandle
  obtain ⟨page, hp, -⟩ := (hchained.free_iff f.createPageHandle.firstFreePageNo).mp (by simp)
  have hrun : ∃ r, f.insertRecord buf ctx = some r := by simp [RmFile.insertRecord, hp]
  obtain ⟨⟨f', rid⟩, hrun⟩ := hrun
  refine ⟨f', rid, hrun, insertRecord_puts h hrun, ?_⟩
  obtain ⟨page', hp', he⟩ := Option.map_eq_some_iff.mp hrun
  cases Option.some.inj (hp.symm.trans hp')
  obtain ⟨-, rfl⟩ := Prod.mk.inj he
  rw [← hrecord, record_of_page hp]
  have hper : f.createPageHandle.perPage = f.perPage := by
    simp only [perPage, createPageHandle_recordSize]
  have hbit : (if page.bitmap (firstBit false page.bitmap f.createPageHandle.perPage) then
      some (page.slots (firstBit false page.bitmap f.createPageHandle.perPage)) else none) = none ↔
        (∃ i < f.perPage, page.bitmap (i : Nat) = false) ∨ page.bitmap f.perPage = false := by
    rw [hper, ← firstBit_clear_iff]
    simp
  rw [hbit]
  by_cases hne : f.firstFreePageNo = RM_NO_PAGE
  · have hnone : f.pages f.firstFreePageNo = none := by
      cases hq : f.pages f.firstFreePageNo with
      | none => rfl
      | some q => exact absurd hne (h.page_ne hq)
    have hzero : page.bitmap = fun _ => false := by
      simp only [RmFile.createPageHandle, hne, ne_eq, not_true_eq_false, if_false,
        RmFile.createNewPageHandle, Function.update_self, Option.some.injEq] at hp
      rw [← hp]
      rfl
    simp [Room, hnone, hzero]
  · have hsame : f.createPageHandle = f := by simp [RmFile.createPageHandle, hne]
    rw [hsame] at hp
    simp [Room, hp]

end Puts

/-- Resetting a set bit takes at most one from the count. -/
theorem setBits_reset_le (bm : Int → Bool) (n : Nat) (i : Int) (h : bm i = true) :
    setBits bm n ≤ setBits (Function.update bm i false) n + 1 := by
  by_cases hin : 0 ≤ i ∧ i < n
  · obtain ⟨j, rfl⟩ := Int.eq_ofNat_of_zero_le hin.1
    rw [setBits_reset (by lia) h]
  · rw [setBits_update_out false (by lia)]
    exact Nat.le_succ _

/-- Setting a clear bit adds at most one to the count and takes nothing from it. -/
theorem setBits_le_set (bm : Int → Bool) (n : Nat) (i : Int) (h : bm i = false) :
    setBits bm n ≤ setBits (Function.update bm i true) n := by
  by_cases hin : 0 ≤ i ∧ i < n
  · obtain ⟨j, rfl⟩ := Int.eq_ofNat_of_zero_le hin.1
    rw [setBits_set (by lia) h]
    exact Nat.le_succ _
  · rw [setBits_update_out true (by lia)]

theorem Low.insertRecord (h : Low f free) {buf : Bytes} {ctx : Option Lsn} {rid : Rid}
    (hrun : f.insertRecord buf ctx = some (f', rid)) : ∃ free', Low f' free' := by
  obtain ⟨ps, hchained, -⟩ := h.toChained.createPageHandle
  have hper : f.createPageHandle.perPage = f.perPage := by
    simp only [perPage, createPageHandle_recordSize]
  have h₁ : Low f.createPageHandle (f.createPageHandle.firstFreePageNo :: ps) := by
    refine ⟨hchained, fun hq => ?_⟩
    rw [hper]
    exact forall_createPageHandle (P := fun pg => pg.numRecords ≤ setBits pg.bitmap f.perPage)
      h.low (by simp [RmPage.zero]) hq
  simp only [RmFile.insertRecord] at hrun
  generalize f.createPageHandle = f₁ at h₁ hrun
  obtain ⟨page, hp, he⟩ := Option.map_eq_some_iff.mp hrun
  have hroom := h₁.first_room hp
  obtain ⟨rfl, rfl⟩ := Prod.mk.inj he
  have hlow : (inserted page (firstBit false page.bitmap f₁.perPage) buf ctx).numRecords ≤
      setBits (inserted page (firstBit false page.bitmap f₁.perPage) buf ctx).bitmap
        f₁.perPage := by
    have old := h₁.low hp
    simp only [inserted, RmPage.set, RmPage.copy, stamp_numRecords, stamp_bitmap]
    rcases lt_or_eq_of_le (setBits_le page.bitmap f₁.perPage) with hlt | heq
    · obtain ⟨i, hi, hbit, hfree⟩ := firstBit_free hlt
      rw [hbit, setBits_set hi hfree]
      lia
    · rw [firstBit_full heq, setBits_update_out true (by lia)]
      lia
  change ∃ free', Low (f₁.fill _ (inserted page (firstBit false page.bitmap f₁.perPage) buf ctx))
    free'
  unfold RmFile.fill
  split
  · next hfull =>
    have hnext : (inserted page (firstBit false page.bitmap f₁.perPage) buf ctx).nextFreePageNo =
        page.nextFreePageNo := by simp [inserted, RmPage.set, RmPage.copy]
    rw [hnext]
    exact ⟨ps, h₁.write (h₁.pop hp hfull) hlow⟩
  · next hnot =>
    refine ⟨_, h₁.write (h₁.keep hp ?_ ?_) hlow⟩
    · simp [inserted, RmPage.set, RmPage.copy]
    · lia

theorem Low.deleteRecord (h : Low f free) {rid : Rid} {ctx : Option Lsn}
    (hp : f.pages rid.pageNo = some page) (hset : page.bitmap rid.slotNo = true) :
    ∃ free', Low (f.unfill rid.pageNo (deleted page rid.slotNo ctx)) free' := by
  have hlow : (deleted page rid.slotNo ctx).numRecords ≤
      setBits (deleted page rid.slotNo ctx).bitmap f.perPage := by
    have := h.low hp
    have := setBits_reset_le page.bitmap f.perPage rid.slotNo hset
    simp only [deleted, RmPage.reset, stamp_numRecords, stamp_bitmap]
    lia
  have hnum : (deleted page rid.slotNo ctx).numRecords = page.numRecords - 1 := by
    simp [deleted]
  have hbound := h.le_perPage hp
  unfold RmFile.unfill
  split
  · next hrelease =>
    have hnotfirst : rid.pageNo ≠ f.firstFreePageNo := by
      intro e
      rw [e] at hp
      obtain ⟨rest, q, rfl, -⟩ := h.chain.exists_cons (h.page_ne hp)
      have := h.first_room hp
      lia
    rw [RmFile.releasePageHandle, if_neg hnotfirst]
    refine ⟨_, h.write (h.push hp rfl (by lia) ?_) hlow⟩
    simp only
    lia
  · next hstay =>
    refine ⟨free, h.write (h.keep hp ?_ (by lia)) hlow⟩
    simp [deleted, RmPage.reset]

theorem low_step {c : RmCall} (h : ∃ free, Low f free) (hrun : f.callStep c = some f') :
    ∃ free', Low f' free' := by
  obtain ⟨free, h⟩ := h
  cases c with
  | op op =>
    cases op with
    | insert buf ctx =>
      obtain ⟨⟨f₁, rid⟩, hr, rfl⟩ := Option.map_eq_some_iff.mp hrun
      exact h.insertRecord hr
    | update rid buf ctx =>
      simp only [callStep] at hrun
      split at hrun
      · obtain ⟨page, hp, rfl⟩ := Option.map_eq_some_iff.mp hrun
        refine ⟨free, h.write (h.keep hp (by simp [RmPage.copy]) (by simp [RmPage.copy])) ?_⟩
        simpa [RmPage.copy] using h.low hp
      · cases hrun
    | delete rid ctx =>
      simp only [callStep] at hrun
      split at hrun
      · next hset =>
        obtain ⟨page, hp, hbit⟩ := isRecord_page hset
        simp only [RmFile.deleteRecord, hp, Option.map_some, Option.some.injEq] at hrun
        subst hrun
        exact h.deleteRecord hp hbit
      · cases hrun
  | reinsert rid buf =>
    simp only [callStep] at hrun
    split at hrun
    · cases hrun
    · next hclear =>
      obtain ⟨page, hp, rfl⟩ := Option.map_eq_some_iff.mp hrun
      refine ⟨free, h.write (h.keep hp rfl Iff.rfl) ?_⟩
      have hbit : page.bitmap rid.slotNo = false := by simpa [isRecord, hp] using hclear
      have := h.low hp
      have := setBits_le_set page.bitmap f.perPage rid.slotNo hbit
      simp only [RmPage.set, RmPage.copy]
      lia

theorem low_deleteRecord {rid : Rid} {ctx : Option Lsn} (h : ∃ free, Low f free)
    (hlive : f.record rid ≠ none) (hrun : f.deleteRecord rid ctx = some f') :
    ∃ free, Low f' free := by
  refine @low_step f f' (.op (.delete rid ctx)) h ?_
  rw [callStep, if_pos (isRecord_iff.mpr hlive), hrun]

theorem low_insertRecordAt {rid : Rid} {buf : Bytes} (h : ∃ free, Low f free)
    (hfree : f.record rid = none) (hrun : f.insertRecordAt rid buf = some f') :
    ∃ free, Low f' free := by
  refine @low_step f f' (.reinsert rid buf) h ?_
  rw [callStep, if_neg fun hset => isRecord_iff.mp hset hfree, hrun]

theorem low_updateRecord {rid : Rid} {buf : Bytes} {ctx : Option Lsn} (h : ∃ free, Low f free)
    (hlive : f.record rid ≠ none) (hrun : f.updateRecord rid buf ctx = some f') :
    ∃ free, Low f' free := by
  refine @low_step f f' (.op (.update rid buf ctx)) h ?_
  rw [callStep, if_pos (isRecord_iff.mpr hlive), hrun]

theorem low_run {recordSize : Nat} (hsize : recordSize ≤ RM_MAX_RECORD_SIZE) {tr : List RmCall}
    (h : run callStep (create recordSize) tr = some f) : ∃ free, Low f free :=
  run_invariant_all (I := fun f => ∃ free, Low f free) (fun _ _ _ hi hstep => low_step hi hstep)
    ⟨[], low_create hsize⟩ h

/-- A record file that record calls and rollbacks have made. -/
def Reached (f : RmFile) : Prop :=
  ∃ recordSize ≤ RM_MAX_RECORD_SIZE, ∃ calls, run callStep (create recordSize) calls = some f

theorem Reached.low (h : f.Reached) : ∃ free, Low f free := by
  obtain ⟨recordSize, hsize, calls, hrun⟩ := h
  exact low_run hsize hrun

theorem Reached.callStep {c : RmCall} (h : f.Reached) (hrun : f.callStep c = some f') :
    f'.Reached := by
  obtain ⟨recordSize, hsize, calls, hcalls⟩ := h
  refine ⟨recordSize, hsize, calls ++ [c], ?_⟩
  rw [run_append, hcalls, Option.bind_some, run, hrun]
  rfl

theorem Reached.insertRecord {buf : Bytes} {ctx : Option Lsn} {rid : Rid} (h : f.Reached)
    (hrun : f.insertRecord buf ctx = some (f', rid)) : f'.Reached :=
  h.callStep (c := .op (.insert buf ctx)) (by rw [RmFile.callStep, hrun]; rfl)

theorem unfill_page (f : RmFile) (p : PageNo) (page : RmPage) :
    ∃ page', (f.unfill p page).pages p = some page' ∧ page'.numRecords = page.numRecords ∧
      page'.bitmap = page.bitmap := by
  unfold RmFile.unfill RmFile.releasePageHandle
  split
  · split <;> simp [RmFile.write]
  · simp [RmFile.write]

/-- After a delete and the positional insert that takes it back, with the page left alone in
between, the counter of the page is short of its bits. -/
theorem count_reinsert {f₁ f₂ f₃ : RmFile} {rid : Rid} {ctx : Option Lsn} {old : Bytes}
    (hlow : Low f free) (hdel : f.callStep (.op (.delete rid ctx)) = some f₁)
    (hsame : f₂.pages rid.pageNo = f₁.pages rid.pageNo) (hsize : f₂.recordSize = f.recordSize)
    (hre : f₂.callStep (.reinsert rid old) = some f₃) :
    ∃ page, f₃.pages rid.pageNo = some page ∧
      page.numRecords < setBits page.bitmap f₃.perPage := by
  simp only [callStep] at hdel hre
  split at hdel
  swap
  · cases hdel
  next hset =>
  obtain ⟨page, hp, hbit⟩ := isRecord_page hset
  simp only [RmFile.deleteRecord, hp, Option.map_some, Option.some.injEq] at hdel
  obtain ⟨page₁, hp₁, hnum, hbits⟩ := unfill_page f rid.pageNo (deleted page rid.slotNo ctx)
  have hf₁ : f₁.pages rid.pageNo = some page₁ := by rw [← hdel]; exact hp₁
  rw [hf₁] at hsame
  split at hre
  · cases hre
  simp only [RmFile.insertRecordAt, hsame, Option.map_some, Option.some.injEq] at hre
  subst hre
  refine ⟨(page₁.set rid.slotNo).copy rid.slotNo old, by simp [RmFile.write], ?_⟩
  have back : Function.update page₁.bitmap rid.slotNo true = page.bitmap := by
    rw [hbits]
    funext j
    by_cases hj : j = rid.slotNo
    · simp [deleted, RmPage.reset, hj, hbit]
    · simp [deleted, RmPage.reset, hj]
  have := hlow.low hp
  simp only [RmPage.set, RmPage.copy, RmFile.write, perPage, hsize, back, hnum, deleted,
    stamp_numRecords] at this ⊢
  lia

theorem fill_recordSize (f : RmFile) (p : PageNo) (page : RmPage) :
    (f.fill p page).recordSize = f.recordSize := by
  unfold RmFile.fill
  split <;> rfl

theorem unfill_recordSize (f : RmFile) (p : PageNo) (page : RmPage) :
    (f.unfill p page).recordSize = f.recordSize := by
  unfold RmFile.unfill RmFile.releasePageHandle
  split
  · split <;> rfl
  · rfl

theorem recordSize_step {c : RmCall} (h : f.callStep c = some f') :
    f'.recordSize = f.recordSize := by
  cases c with
  | op op =>
    cases op with
    | insert buf ctx =>
      obtain ⟨⟨f₁, rid⟩, hr, rfl⟩ := Option.map_eq_some_iff.mp h
      simp only [RmFile.insertRecord] at hr
      obtain ⟨page, -, he⟩ := Option.map_eq_some_iff.mp hr
      obtain ⟨rfl, -⟩ := Prod.mk.inj he
      rw [fill_recordSize, createPageHandle_recordSize]
    | update rid buf ctx =>
      simp only [callStep] at h
      split at h
      · obtain ⟨page, -, rfl⟩ := Option.map_eq_some_iff.mp h
        rfl
      · cases h
    | delete rid ctx =>
      simp only [callStep] at h
      split at h
      · obtain ⟨page, -, rfl⟩ := Option.map_eq_some_iff.mp h
        exact unfill_recordSize _ _ _
      · cases h
  | reinsert rid buf =>
    simp only [callStep] at h
    split at h
    · cases h
    · obtain ⟨page, -, rfl⟩ := Option.map_eq_some_iff.mp h
      rfl

theorem recordSize_run {tr : List RmCall} (h : run callStep f tr = some f') :
    f'.recordSize = f.recordSize :=
  run_invariant_all (I := fun g => g.recordSize = f.recordSize)
    (fun _ _ _ hi hstep => (recordSize_step hstep).trans hi) rfl h

/-- The rollback of a delete never restores its page: the counter stays one short. -/
theorem not_restored_of_reinsert {recordSize : Nat} (hsize : recordSize ≤ RM_MAX_RECORD_SIZE)
    {before between : List RmCall} {f₁ f₂ f₃ : RmFile} {rid : Rid} {ctx : Option Lsn}
    {old : Bytes} (hbefore : run callStep (create recordSize) before = some f)
    (hdel : f.callStep (.op (.delete rid ctx)) = some f₁)
    (hbetween : run callStep f₁ between = some f₂)
    (hpage : f₂.pages rid.pageNo = f₁.pages rid.pageNo)
    (hre : f₂.callStep (.reinsert rid old) = some f₃) : ¬f₃.Restored rid.pageNo := by
  obtain ⟨free, hlow⟩ := low_run hsize hbefore
  have hrs := (recordSize_run hbetween).trans (recordSize_step hdel)
  obtain ⟨page, hp, hlt⟩ := count_reinsert hlow hdel hpage hrs hre
  intro restored
  exact absurd (restored.count page hp) hlt.ne

/-- Seven records fill a page of 512-byte slots. -/
def fullPage : List RmCall := List.replicate 7 (.op (.insert [1] none))

/-- The record file after the page is filled, a record deleted and put back. -/
theorem fullPage_reinsert : ((run callStep (create 512) fullPage).bind fun f =>
    (f.callStep (.op (.delete ⟨1, 3⟩ none))).bind fun f₁ =>
      (f₁.callStep (.reinsert ⟨1, 3⟩ [1])).bind fun f₃ =>
        (f₃.insertRecord [2] none).map Prod.snd) = some ⟨1, 7⟩ := by
  decide +kernel

theorem not_restored_of_reinsert_fullPage : ∃ f f₁ f₃,
    run callStep (create 512) fullPage = some f ∧
      f.callStep (.op (.delete ⟨1, 3⟩ none)) = some f₁ ∧
      f₁.callStep (.reinsert ⟨1, 3⟩ [1]) = some f₃ ∧ ¬f₃.Restored 1 := by
  obtain ⟨f, hf, h⟩ := Option.bind_eq_some_iff.mp fullPage_reinsert
  obtain ⟨f₁, hf₁, h⟩ := Option.bind_eq_some_iff.mp h
  obtain ⟨f₃, hf₃, -⟩ := Option.bind_eq_some_iff.mp h
  exact ⟨f, f₁, f₃, hf, hf₁, hf₃,
    not_restored_of_reinsert (by decide) hf hf₁ (run_nil f₁) rfl hf₃⟩

/-- After the rollback the page is on the chain with all its slots taken: the next insert writes
behind its last slot. -/
theorem reinsert_overruns_fullPage : ∃ f f₁ f₃,
    run callStep (create 512) fullPage = some f ∧
      f.callStep (.op (.delete ⟨1, 3⟩ none)) = some f₁ ∧
      f₁.callStep (.reinsert ⟨1, 3⟩ [1]) = some f₃ ∧ ¬f₃.Restored 1 ∧
      (f₃.insertRecord [2] none).map Prod.snd = some ⟨1, (f₃.perPage : Int)⟩ := by
  obtain ⟨f, hf, h⟩ := Option.bind_eq_some_iff.mp fullPage_reinsert
  obtain ⟨f₁, hf₁, h⟩ := Option.bind_eq_some_iff.mp h
  obtain ⟨f₃, hf₃, h⟩ := Option.bind_eq_some_iff.mp h
  have hsize : f₃.recordSize = 512 :=
    (recordSize_step hf₃).trans ((recordSize_step hf₁).trans (recordSize_run hf))
  have hper : f₃.perPage = 7 := by
    rw [perPage, hsize]
    decide
  refine ⟨f, f₁, f₃, hf, hf₁, hf₃, fun restored => ?_, by rw [h, hper]; rfl⟩
  obtain ⟨⟨f₄, rid⟩, hins, hrid⟩ := Option.map_eq_some_iff.mp h
  have := (restored.later [] f₃ [2] none f₄ rid rfl hins).2
  simp only at hrid
  rw [hrid, hper] at this
  exact this rfl

end RmFile

end Grmdb
