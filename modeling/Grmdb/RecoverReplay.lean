import Grmdb.Recovery

namespace Grmdb

open AssocMap

/-- The fields of `file_hdr_` that recovery reads and writes. -/
structure FileHead where
  recordSize : Nat
  numPages : Int
  firstFreePageNo : PageNo
  deriving DecidableEq

def RmFile.head (f : RmFile) : FileHead := ⟨f.recordSize, f.numPages, f.firstFreePageNo⟩

def RmFile.withHead (f : RmFile) (h : FileHead) : RmFile :=
  { f with
    recordSize := h.recordSize, numPages := h.numPages, firstFreePageNo := h.firstFreePageNo }

def Db.head (db : Db) (tab : TabName) : Option FileHead := (db tab).map RmFile.head

namespace FileHead

def perPage (h : FileHead) : Nat := numRecordsPerPage h.recordSize

/-- The header that a log record carries. -/
def set (h : FileHead) (place : LogPlace) : FileHead :=
  ⟨h.recordSize, place.numPages, place.firstFreePageNo⟩

/-- `RmFile.fill` on the header and the page alone. -/
def fill (h : FileHead) (page : RmPage) : FileHead × RmPage :=
  if (h.perPage : Int) ≤ page.numRecords then
    ({ h with firstFreePageNo := page.nextFreePageNo },
      { page with nextFreePageNo := RM_NO_PAGE })
  else (h, page)

/-- `RmFile.unfill` on the header and the page alone. -/
def unfill (h : FileHead) (p : PageNo) (page : RmPage) : FileHead × RmPage :=
  if page.numRecords = (h.perPage : Int) - 1 then
    if p = h.firstFreePageNo then (h, page)
    else ({ h with firstFreePageNo := p }, { page with nextFreePageNo := h.firstFreePageNo })
  else (h, page)

end FileHead

namespace LogBody

/-- The header and the page after the redo of a record. -/
def redone (b : LogBody) (lsn : Lsn) (h : FileHead) (page : RmPage) : FileHead × RmPage :=
  match b with
  | .insert value place =>
    (h.set place).fill (RmFile.inserted page place.rid.slotNo value (some lsn))
  | .delete _ place =>
    (h.set place).unfill place.rid.pageNo (RmFile.deleted page place.rid.slotNo (some lsn))
  | .update _ newValue place =>
    (h.set place, (page.copy place.rid.slotNo newValue).stamp (some lsn))
  | _ => (h, page)

/-- The header and the page after the roll-back of a record. -/
def rolledBack (b : LogBody) (h : FileHead) (page : RmPage) : FileHead × RmPage :=
  match b with
  | .insert _ place =>
    h.unfill place.rid.pageNo (RmFile.deleted page place.rid.slotNo none)
  | .delete deleteValue place =>
    (h, (page.set place.rid.slotNo).copy place.rid.slotNo deleteValue)
  | .update oldValue _ place => (h, page.copy place.rid.slotNo oldValue)
  | _ => (h, page)

end LogBody

/-- One page of one table and the header of its file replaced. -/
def Db.change (db : Db) (key : PageKey) (g : FileHead → RmPage → FileHead × RmPage) :
    Option Db :=
  (db key.1).bind fun f => (f.pages key.2).map fun page =>
    Function.update db key.1
      (some ((f.write key.2 (g f.head page).2).withHead (g f.head page).1))

section Change

variable {db db' : Db} {key : PageKey} {g : FileHead → RmPage → FileHead × RmPage}

theorem Db.change_eq_some (h : db.change key g = some db') :
    ∃ head page, db.head key.1 = some head ∧ db.page key = some page ∧
      (∀ tab, db'.head tab = if tab = key.1 then some (g head page).1 else db.head tab) ∧
      ∀ k, db'.page k = if k = key then some (g head page).2 else db.page k := by
  obtain ⟨f, hf, h⟩ := Option.bind_eq_some_iff.mp h
  obtain ⟨page, hp, rfl⟩ := Option.map_eq_some_iff.mp h
  refine ⟨f.head, page, by simp [Db.head, hf], by simp [Db.page, hf, hp], fun tab => ?_, ?_⟩
  · by_cases ht : tab = key.1
    · subst ht
      simp [Db.head, RmFile.head, RmFile.withHead]
    · simp [Db.head, ht]
  · rintro ⟨tab, p⟩
    obtain ⟨tab', p'⟩ := key
    rw [Db.page_update]
    by_cases ht : tab = tab'
    · subst ht
      by_cases hq : p = p'
      · simp [RmFile.withHead, RmFile.write, hq]
      · have hf' : db tab = some f := hf
        simp [RmFile.withHead, RmFile.write, hq, Db.page, hf']
    · simp [ht]

theorem Db.change_isSome (db : Db) (key : PageKey) (g : FileHead → RmPage → FileHead × RmPage) :
    (db.change key g).isSome = (db.page key).isSome := by
  unfold Db.change Db.page
  cases db key.1 with
  | none => rfl
  | some f => cases hp : f.pages key.2 <;> simp [hp]

theorem Db.isSome_head (db : Db) (tab : TabName) : (db.head tab).isSome = (db tab).isSome := by
  simp [Db.head]

end Change

namespace RmFile

theorem fill_eq (f : RmFile) (p : PageNo) (page : RmPage) :
    f.fill p page = (f.write p (f.head.fill page).2).withHead (f.head.fill page).1 := by
  by_cases hfull : (f.perPage : Int) ≤ page.numRecords
  · have hfull' : (f.head.perPage : Int) ≤ page.numRecords := hfull
    rw [fill, FileHead.fill, if_pos hfull, if_pos hfull']
    rfl
  · have hfull' : ¬ (f.head.perPage : Int) ≤ page.numRecords := hfull
    rw [fill, FileHead.fill, if_neg hfull, if_neg hfull']
    rfl

theorem unfill_eq (f : RmFile) (p : PageNo) (page : RmPage) :
    f.unfill p page = (f.write p (f.head.unfill p page).2).withHead (f.head.unfill p page).1 := by
  by_cases hroom : page.numRecords = (f.perPage : Int) - 1
  · have hroom' : page.numRecords = (f.head.perPage : Int) - 1 := hroom
    rw [unfill, FileHead.unfill, if_pos hroom, if_pos hroom', releasePageHandle]
    by_cases hfirst : p = f.firstFreePageNo
    · have hfirst' : p = f.head.firstFreePageNo := hfirst
      rw [if_pos hfirst, if_pos hfirst']
      rfl
    · have hfirst' : ¬ p = f.head.firstFreePageNo := hfirst
      rw [if_neg hfirst, if_neg hfirst']
      rfl
  · have hroom' : ¬ page.numRecords = (f.head.perPage : Int) - 1 := hroom
    rw [unfill, FileHead.unfill, if_neg hroom, if_neg hroom']
    rfl

variable {r : LogRecord} {place : LogPlace}

theorem redo_on_page (f : RmFile) (hplace : r.body.place = some place) :
    f.redo r = (f.pages place.rid.pageNo).map fun page =>
      (f.write place.rid.pageNo (r.body.redone r.lsn f.head page).2).withHead
        (r.body.redone r.lsn f.head page).1 := by
  obtain ⟨lsn, tid, prevLsn, body⟩ := r
  cases body with
  | insert value pl =>
    cases Option.some.inj hplace
    simp only [redo, insertRedo, fill_eq, LogBody.redone]
    rfl
  | delete value pl =>
    cases Option.some.inj hplace
    simp only [redo, deleteRedo, unfill_eq, LogBody.redone]
    rfl
  | update old new pl =>
    cases Option.some.inj hplace
    rfl
  | begin => simp [LogBody.place] at hplace
  | commit => simp [LogBody.place] at hplace
  | abort => simp [LogBody.place] at hplace
  | checkpoint => simp [LogBody.place] at hplace

theorem undo_on_page (f : RmFile) (hplace : r.body.place = some place) :
    f.undo r = (f.pages place.rid.pageNo).map fun page =>
      (f.write place.rid.pageNo (r.body.rolledBack f.head page).2).withHead
        (r.body.rolledBack f.head page).1 := by
  obtain ⟨lsn, tid, prevLsn, body⟩ := r
  cases body with
  | insert value pl =>
    cases Option.some.inj hplace
    simp only [undo, deleteRecord, unfill_eq, LogBody.rolledBack]
    rfl
  | delete value pl =>
    cases Option.some.inj hplace
    rfl
  | update old new pl =>
    cases Option.some.inj hplace
    rfl
  | begin => simp [LogBody.place] at hplace
  | commit => simp [LogBody.place] at hplace
  | abort => simp [LogBody.place] at hplace
  | checkpoint => simp [LogBody.place] at hplace

end RmFile

/-- The record is about the page. -/
def LogRecord.On (r : LogRecord) (key : PageKey) : Prop :=
  r.body.place.map LogPlace.pageKey = some key

instance (r : LogRecord) (key : PageKey) : Decidable (r.On key) :=
  inferInstanceAs (Decidable (_ = _))

theorem LogRecord.On.exists_place {r : LogRecord} {key : PageKey} (h : r.On key) :
    ∃ place, r.body.place = some place ∧ place.pageKey = key :=
  Option.map_eq_some_iff.mp h

theorem LogRecord.on_place {r : LogRecord} {place : LogPlace} (h : r.body.place = some place) :
    r.On place.pageKey := by
  simp [LogRecord.On, h]

theorem LogRecord.On.unique {r : LogRecord} {key key' : PageKey} (h : r.On key)
    (h' : r.On key') : key = key' :=
  Option.some.inj (h.symm.trans h')

/-- The tests of `redo` before a record is applied to its page. -/
def LogRecord.Due (dpt : List (PageKey × Lsn)) (key : PageKey) (page : RmPage) (r : LogRecord) :
    Prop :=
  r.On key ∧ lookup key dpt ≠ none ∧ page.lsn < r.lsn

instance (dpt : List (PageKey × Lsn)) (key : PageKey) (page : RmPage) (r : LogRecord) :
    Decidable (r.Due dpt key page) :=
  inferInstanceAs (Decidable (_ ∧ _ ∧ _))

/-- The record is due on its page. -/
def LogRecord.DueIn (dpt : List (PageKey × Lsn)) (db : Db) (r : LogRecord) : Prop :=
  ∃ place ∈ r.body.place, ∃ page ∈ db.page place.pageKey, r.Due dpt place.pageKey page

instance (dpt : List (PageKey × Lsn)) (db : Db) (r : LogRecord) : Decidable (r.DueIn dpt db) :=
  inferInstanceAs (Decidable (∃ place ∈ r.body.place, ∃ page ∈ db.page place.pageKey, _))

section Round

variable {dpt : List (PageKey × Lsn)} {r : LogRecord} {db db' : Db}

/-- What one round of `redo` does. -/
theorem redoRecord_eq (h : redoRecord dpt r.lsn r db = some db') :
    (¬ r.DueIn dpt db ∧ db' = db) ∨ ∃ key head page, r.On key ∧ db.head key.1 = some head ∧
      db.page key = some page ∧ r.Due dpt key page ∧
      (∀ tab, db'.head tab =
        if tab = key.1 then some (r.body.redone r.lsn head page).1 else db.head tab) ∧
      ∀ k, db'.page k =
        if k = key then some (r.body.redone r.lsn head page).2 else db.page k := by
  unfold redoRecord at h
  split at h
  next hplace =>
    refine Or.inl ⟨?_, (Option.some.inj h).symm⟩
    rintro ⟨place, hin, -⟩
    simp [hplace] at hin
  next place hplace =>
    obtain ⟨f, hf, h⟩ := Option.bind_eq_some_iff.mp h
    split at h
    next hdpt =>
      refine Or.inl ⟨?_, (Option.some.inj h).symm⟩
      rintro ⟨place', hin, page, -, -, hdpt', -⟩
      cases Option.some.inj (hplace.symm.trans hin)
      exact hdpt' hdpt
    next hdpt =>
      obtain ⟨page, hpage, h⟩ := Option.bind_eq_some_iff.mp h
      have hkey : db.page place.pageKey = some page := by
        simp [Db.page, LogPlace.pageKey, hf, hpage]
      split at h
      next hle =>
        refine Or.inl ⟨?_, (Option.some.inj h).symm⟩
        rintro ⟨place', hin, page', hin', -, -, hlt⟩
        cases Option.some.inj (hplace.symm.trans hin)
        cases Option.some.inj (hkey.symm.trans hin')
        exact absurd hle (not_le.mpr hlt)
      next hlsn =>
        have hchange : db.change place.pageKey (r.body.redone r.lsn) = some db' := by
          rw [← h, RmFile.redo_on_page f hplace]
          simp [Db.change, LogPlace.pageKey, hf, hpage]
        obtain ⟨head, page', hhead, hpage', hheads, hpages⟩ := Db.change_eq_some hchange
        cases Option.some.inj (hkey.symm.trans hpage')
        exact Or.inr ⟨place.pageKey, head, page, LogRecord.on_place hplace, hhead, hkey,
          ⟨LogRecord.on_place hplace, hdpt, not_le.mp hlsn⟩, hheads, hpages⟩

/-- A round of `redo` runs through where the table is open and, if the dirty page table has the
page, the page is there. -/
theorem redoRecord_isSome_iff {lsn : Lsn} : (redoRecord dpt lsn r db).isSome = true ↔
    ∀ place, r.body.place = some place → (db place.tableName).isSome = true ∧
      (lookup place.pageKey dpt ≠ none → (db.page place.pageKey).isSome = true) := by
  unfold redoRecord
  cases hplace : r.body.place with
  | none => simp
  | some place =>
    simp only [Option.some.injEq, forall_eq']
    cases hf : db place.tableName with
    | none => simp
    | some f =>
      have hpage : db.page place.pageKey = f.pages place.rid.pageNo := by
        simp [Db.page, LogPlace.pageKey, hf]
      rw [hpage, Option.bind_some]
      split
      next hdpt => simp [hdpt]
      next hdpt =>
        cases hp : f.pages place.rid.pageNo with
        | none => simp [hdpt]
        | some page =>
          rw [Option.bind_some]
          split
          · simp
          · simp [RmFile.redo_on_page f hplace, hp]

/-- What the roll-back of one record does. -/
theorem undoRecord_eq {place : LogPlace} (hplace : r.body.place = some place) :
    undoRecord db r = db.change place.pageKey r.body.rolledBack := by
  unfold undoRecord Db.change
  simp only [hplace, LogPlace.pageKey]
  cases hf : db place.tableName with
  | none => rfl
  | some f =>
    rw [Option.bind_some, Option.bind_some, RmFile.undo_on_page f hplace, Option.map_map]
    rfl

end Round

/-- Two states with the same files, record sizes and pages, whatever is in them. -/
structure SameShape (db db' : Db) : Prop where
  sizes : ∀ tab, (db.head tab).map FileHead.recordSize = (db'.head tab).map FileHead.recordSize
  pages : ∀ key, (db.page key).isSome = (db'.page key).isSome

namespace SameShape

variable {db db' db'' : Db}

theorem refl (db : Db) : SameShape db db := ⟨fun _ => rfl, fun _ => rfl⟩

theorem symm (h : SameShape db db') : SameShape db' db :=
  ⟨fun tab => (h.sizes tab).symm, fun key => (h.pages key).symm⟩

theorem trans (h : SameShape db db') (h' : SameShape db' db'') : SameShape db db'' :=
  ⟨fun tab => (h.sizes tab).trans (h'.sizes tab), fun key => (h.pages key).trans (h'.pages key)⟩

theorem tables (h : SameShape db db') (tab : TabName) : (db tab).isSome = (db' tab).isSome := by
  have := congrArg Option.isSome (h.sizes tab)
  simpa [Db.isSome_head] using this

theorem recordSize (h : SameShape db db') {tab : TabName} {head head' : FileHead}
    (hhead : db.head tab = some head) (hhead' : db'.head tab = some head') :
    head.recordSize = head'.recordSize := by
  simpa [hhead, hhead'] using h.sizes tab

theorem of_change {key : PageKey} {g : FileHead → RmPage → FileHead × RmPage}
    (hsize : ∀ head page, (g head page).1.recordSize = head.recordSize)
    (h : db.change key g = some db') : SameShape db db' := by
  obtain ⟨head, page, hhead, hpage, hheads, hpages⟩ := Db.change_eq_some h
  refine ⟨fun tab => ?_, fun k => ?_⟩
  · rw [hheads]
    split
    next ht => simp [ht, hhead, hsize]
    next => rfl
  · rw [hpages]
    split
    next hk => simp [hk, hpage]
    next => rfl

end SameShape

theorem FileHead.fill_recordSize (h : FileHead) (page : RmPage) :
    (h.fill page).1.recordSize = h.recordSize := by
  unfold FileHead.fill
  split <;> rfl

theorem FileHead.unfill_recordSize (h : FileHead) (p : PageNo) (page : RmPage) :
    (h.unfill p page).1.recordSize = h.recordSize := by
  unfold FileHead.unfill
  split
  · split <;> rfl
  · rfl

namespace LogBody

variable {b : LogBody} {place : LogPlace} {lsn : Lsn} {h h' : FileHead} {page : RmPage}

theorem redone_recordSize : (b.redone lsn h page).1.recordSize = h.recordSize := by
  cases b with
  | insert value pl => exact FileHead.fill_recordSize _ _
  | delete value pl => exact FileHead.unfill_recordSize _ _ _
  | _ => rfl

theorem rolledBack_recordSize : (b.rolledBack h page).1.recordSize = h.recordSize := by
  cases b with
  | insert value pl => exact FileHead.unfill_recordSize _ _ _
  | _ => rfl

/-- Of the header `redo` reads the record size alone. -/
theorem redone_congr (hplace : b.place = some place) (hsize : h.recordSize = h'.recordSize) :
    b.redone lsn h page = b.redone lsn h' page := by
  have hset : ∀ pl, h.set pl = h'.set pl := fun pl => by simp [FileHead.set, hsize]
  cases b <;> simp_all [redone, LogBody.place]

theorem redone_lsn (hplace : b.place = some place) : (b.redone lsn h page).2.lsn = lsn := by
  cases b with
  | insert value pl =>
    simp only [redone, FileHead.fill]
    split <;> rfl
  | delete value pl =>
    simp only [redone, FileHead.unfill]
    split
    · split <;> rfl
    · rfl
  | update old new pl => rfl
  | begin => simp [LogBody.place] at hplace
  | commit => simp [LogBody.place] at hplace
  | abort => simp [LogBody.place] at hplace
  | checkpoint => simp [LogBody.place] at hplace

end LogBody

/-- What `redo` makes of one page when it comes to the record. -/
def LogRecord.replay (dpt : List (PageKey × Lsn)) (h : FileHead) (key : PageKey) (page : RmPage)
    (r : LogRecord) : RmPage :=
  if r.Due dpt key page then (r.body.redone r.lsn h page).2 else page

/-- What `redo` makes of one page with all the records. -/
def replayAll (dpt : List (PageKey × Lsn)) (h : FileHead) (key : PageKey) (rs : List LogRecord)
    (page : RmPage) : RmPage :=
  rs.foldl (LogRecord.replay dpt h key) page

section Replay

variable {dpt : List (PageKey × Lsn)} {h h' : FileHead} {key : PageKey} {r : LogRecord}
  {rs pre rest : List LogRecord} {page : RmPage}

theorem replayAll_append : replayAll dpt h key (pre ++ rest) page =
    replayAll dpt h key rest (replayAll dpt h key pre page) :=
  List.foldl_append

theorem replay_of_not_due (hdue : ¬ r.Due dpt key page) : r.replay dpt h key page = page :=
  if_neg hdue

theorem replay_congr (hsize : h.recordSize = h'.recordSize) :
    r.replay dpt h key page = r.replay dpt h' key page := by
  unfold LogRecord.replay
  split
  next hdue =>
    obtain ⟨place, hplace, -⟩ := hdue.1.exists_place
    rw [LogBody.redone_congr hplace hsize]
  next => rfl

theorem replayAll_congr (hsize : h.recordSize = h'.recordSize) :
    replayAll dpt h key rs page = replayAll dpt h' key rs page := by
  induction rs generalizing page with
  | nil => rfl
  | cons r rs ih =>
    have hround : r.replay dpt h key page = r.replay dpt h' key page := replay_congr hsize
    simp only [replayAll, List.foldl_cons, hround] at ih ⊢
    exact ih

theorem lsn_le_replay : page.lsn ≤ (r.replay dpt h key page).lsn := by
  unfold LogRecord.replay
  split
  next hdue =>
    obtain ⟨place, hplace, -⟩ := hdue.1.exists_place
    rw [LogBody.redone_lsn hplace]
    exact hdue.2.2.le
  next => exact le_rfl

theorem not_due_replay : ¬ r.Due dpt key (r.replay dpt h key page) := by
  intro hdue
  have hbefore : r.Due dpt key page := ⟨hdue.1, hdue.2.1, lsn_le_replay.trans_lt hdue.2.2⟩
  obtain ⟨place, hplace, -⟩ := hdue.1.exists_place
  have hlt := hdue.2.2
  rw [LogRecord.replay, if_pos hbefore, LogBody.redone_lsn hplace] at hlt
  exact absurd hlt (lt_irrefl _)

theorem lsn_le_replayAll : page.lsn ≤ (replayAll dpt h key rs page).lsn := by
  induction rs generalizing page with
  | nil => exact le_rfl
  | cons r rs ih => exact lsn_le_replay.trans ih

/-- Once a page has all the records, none of them is due on it. -/
theorem not_due_replayAll (hr : r ∈ rs) : ¬ r.Due dpt key (replayAll dpt h key rs page) := by
  induction rs generalizing page with
  | nil => simp at hr
  | cons q rs ih =>
    rcases List.mem_cons.mp hr with rfl | hr
    · intro hdue
      exact not_due_replay ⟨hdue.1, hdue.2.1, lsn_le_replayAll.trans_lt hdue.2.2⟩
    · exact ih hr

theorem replayAll_of_not_due (hdue : ∀ r ∈ rs, ¬ r.Due dpt key page) :
    replayAll dpt h key rs page = page := by
  induction rs with
  | nil => rfl
  | cons r rs ih =>
    have hround : r.replay dpt h key page = page := replay_of_not_due (hdue r List.mem_cons_self)
    simp only [replayAll, List.foldl_cons, hround] at ih ⊢
    exact ih fun q hq => hdue q (List.mem_cons_of_mem r hq)

/-- A page that has part of the records comes to the same page as one that has none of them. -/
theorem replayAll_again : replayAll dpt h key (pre ++ rest) (replayAll dpt h key pre page) =
    replayAll dpt h key (pre ++ rest) page := by
  have hpre : replayAll dpt h key pre (replayAll dpt h key pre page) =
      replayAll dpt h key pre page :=
    replayAll_of_not_due fun _ hr => not_due_replayAll hr
  rw [replayAll_append, hpre, replayAll_append]

end Replay

/-- The rounds of `redo` over records that stand at their LSNs. -/
def redoAll (dpt : List (PageKey × Lsn)) (rs : List LogRecord) (db : Db) : Option Db :=
  rs.foldlM (fun db r => redoRecord dpt r.lsn r db) db

section RedoAll

variable {dpt : List (PageKey × Lsn)} {r : LogRecord} {rs pre rest : List LogRecord}
  {db db' mid : Db}

theorem redoAll_append : redoAll dpt (pre ++ rest) db =
    (redoAll dpt pre db).bind fun mid => redoAll dpt rest mid :=
  List.foldlM_append

theorem redoAll_cons : redoAll dpt (r :: rs) db =
    (redoRecord dpt r.lsn r db).bind fun mid => redoAll dpt rs mid :=
  List.foldlM_cons

theorem redoAll_concat (h : redoAll dpt (rs ++ [r]) db = some db') :
    ∃ mid, redoAll dpt rs db = some mid ∧ redoRecord dpt r.lsn r mid = some db' := by
  rw [redoAll_append] at h
  obtain ⟨mid, hmid, h⟩ := Option.bind_eq_some_iff.mp h
  obtain ⟨last, hlast, h⟩ := Option.bind_eq_some_iff.mp (redoAll_cons.symm.trans h)
  cases Option.some.inj h
  exact ⟨mid, hmid, hlast⟩

theorem redoRecord_shape (h : redoRecord dpt r.lsn r db = some db') : SameShape db db' := by
  rcases redoRecord_eq h with ⟨-, rfl⟩ | ⟨key, head, page, -, hhead, hpage, -, hheads, hpages⟩
  · exact SameShape.refl db'
  · refine ⟨fun tab => ?_, fun k => ?_⟩
    · rw [hheads]
      split
      next ht => simp [ht, hhead, LogBody.redone_recordSize]
      next => rfl
    · rw [hpages]
      split
      next hk => simp [hk, hpage]
      next => rfl

theorem redoRecord_page (h : redoRecord dpt r.lsn r db = some db') {key : PageKey}
    {head : FileHead} (hhead : db.head key.1 = some head) :
    db'.page key = (db.page key).map fun page => r.replay dpt head key page := by
  rcases redoRecord_eq h with ⟨hdue, rfl⟩ | ⟨k, head', page, hon, hhead', hpage, hdue, -, hpages⟩
  · cases hp : db'.page key with
    | none => rfl
    | some page =>
      have hnot : ¬ r.Due dpt key page := by
        intro hdue'
        obtain ⟨place, hplace, rfl⟩ := hdue'.1.exists_place
        exact hdue ⟨place, hplace, page, hp, hdue'⟩
      rw [Option.map_some, replay_of_not_due hnot]
  · rw [hpages]
    split
    next hk =>
      subst hk
      cases Option.some.inj (hhead.symm.trans hhead')
      rw [hpage, Option.map_some, LogRecord.replay, if_pos hdue]
    next hk =>
      have hnot : ∀ page, ¬ r.Due dpt key page := fun page hdue' => hk (hdue'.1.unique hon)
      cases db.page key with
      | none => rfl
      | some page => rw [Option.map_some, replay_of_not_due (hnot page)]

theorem redoAll_shape (h : redoAll dpt rs db = some db') : SameShape db db' := by
  induction rs generalizing db with
  | nil =>
    cases Option.some.inj h
    exact SameShape.refl _
  | cons r rs ih =>
    obtain ⟨mid, hmid, h⟩ := Option.bind_eq_some_iff.mp (redoAll_cons.symm.trans h)
    exact (redoRecord_shape hmid).trans (ih h)

/-- Page by page `redo` is `replayAll`. -/
theorem redoAll_page (h : redoAll dpt rs db = some db') {key : PageKey} {head : FileHead}
    (hhead : db.head key.1 = some head) :
    db'.page key = (db.page key).map (replayAll dpt head key rs) := by
  induction rs using List.reverseRecOn generalizing db' with
  | nil =>
    cases Option.some.inj h
    exact (Option.map_id_apply).symm
  | append_singleton rs r ih =>
    obtain ⟨mid, hmid, hlast⟩ := redoAll_concat h
    obtain ⟨head', hhead', hsize⟩ : ∃ head', mid.head key.1 = some head' ∧
        head'.recordSize = head.recordSize := by
      have := (redoAll_shape hmid).sizes key.1
      rw [hhead, Option.map_some] at this
      obtain ⟨head', hhead', hsize⟩ := Option.map_eq_some_iff.mp this.symm
      exact ⟨head', hhead', hsize⟩
    have hround : ∀ page, replayAll dpt head key (rs ++ [r]) page =
        r.replay dpt head' key (replayAll dpt head key rs page) := by
      intro page
      rw [replayAll_append, replay_congr hsize]
      rfl
    rw [redoRecord_page hlast hhead', ih hmid, Option.map_map]
    cases db.page key with
    | none => rfl
    | some page => simp [hround]

/-- Whether the rounds run through depends on the files and pages that are there. -/
theorem redoAll_isSome {db₁ : Db} (h : redoAll dpt rs db = some db') (hshape : SameShape db db₁) :
    (redoAll dpt rs db₁).isSome = true := by
  induction rs generalizing db db₁ with
  | nil => rfl
  | cons r rs ih =>
    obtain ⟨mid, hmid, h⟩ := Option.bind_eq_some_iff.mp (redoAll_cons.symm.trans h)
    have hround : (redoRecord dpt r.lsn r db₁).isSome = true := by
      have hold := redoRecord_isSome_iff.mp (Option.isSome_iff_exists.mpr ⟨mid, hmid⟩)
      refine redoRecord_isSome_iff.mpr fun place hplace => ?_
      rw [← hshape.tables, ← hshape.pages]
      exact hold place hplace
    obtain ⟨mid₁, hmid₁⟩ := Option.isSome_iff_exists.mp hround
    rw [redoAll_cons, hmid₁, Option.bind_some]
    exact ih h ((redoRecord_shape hmid).symm.trans (hshape.trans (redoRecord_shape hmid₁)))

end RedoAll

/-- The last record of the table that `redo` applies. -/
def Db.lastDue (db : Db) (dpt : List (PageKey × Lsn)) (rs : List LogRecord) (tab : TabName) :
    Option LogRecord :=
  (rs.filter fun r =>
    decide (r.DueIn dpt db) && decide (r.body.place.map LogPlace.tableName = some tab)).getLast?

/-- The header of the table that `redo` ends with: the one it starts from, or what its last record
for the table leaves. -/
def Db.headAfter (db : Db) (dpt : List (PageKey × Lsn)) (rs : List LogRecord) (tab : TabName) :
    Option FileHead :=
  match db.lastDue dpt rs tab with
  | none => db.head tab
  | some r =>
    (db.head tab).bind fun h =>
      r.body.place.bind fun place =>
        (db.page place.pageKey).map fun page =>
          let before := rs.filter fun q => q.lsn < r.lsn
          (r.body.redone r.lsn h (replayAll dpt h place.pageKey before page)).1

section Heads

variable {dpt : List (PageKey × Lsn)} {r : LogRecord} {rs : List LogRecord} {db db' mid : Db}
  {tab : TabName}

theorem replayAll_lsn_lt {h : FileHead} {key : PageKey} {page : RmPage} {lsn : Lsn}
    (hpage : page.lsn < lsn) (hrs : ∀ r ∈ rs, r.lsn < lsn) :
    (replayAll dpt h key rs page).lsn < lsn := by
  induction rs generalizing page with
  | nil => exact hpage
  | cons r rs ih =>
    refine ih ?_ fun q hq => hrs q (List.mem_cons_of_mem r hq)
    unfold LogRecord.replay
    split
    next hdue =>
      obtain ⟨place, hplace, -⟩ := hdue.1.exists_place
      rw [LogBody.redone_lsn hplace]
      exact hrs r List.mem_cons_self
    next => exact hpage

theorem Db.exists_head {key : PageKey} {page : RmPage} (h : db.page key = some page) :
    ∃ head, db.head key.1 = some head := by
  obtain ⟨f, hf, -⟩ := Option.bind_eq_some_iff.mp h
  exact ⟨f.head, by simp [Db.head, hf]⟩

/-- The rounds before a record leave it due or not. -/
theorem dueIn_redoAll (h : redoAll dpt rs db = some mid) (hrs : ∀ q ∈ rs, q.lsn < r.lsn) :
    r.DueIn dpt mid ↔ r.DueIn dpt db := by
  constructor
  · rintro ⟨place, hplace, page, hpage, hdue⟩
    obtain ⟨page₀, hpage₀⟩ := Option.isSome_iff_exists.mp
      (((redoAll_shape h).pages place.pageKey).trans (Option.isSome_iff_exists.mpr ⟨page, hpage⟩))
    obtain ⟨head, hhead⟩ := Db.exists_head hpage₀
    have hmid := redoAll_page h hhead
    rw [hpage₀, Option.map_some] at hmid
    cases Option.some.inj (hmid.symm.trans hpage)
    exact ⟨place, hplace, page₀, hpage₀, hdue.1, hdue.2.1, lsn_le_replayAll.trans_lt hdue.2.2⟩
  · rintro ⟨place, hplace, page, hpage, hdue⟩
    obtain ⟨head, hhead⟩ := Db.exists_head hpage
    have hmid := redoAll_page h hhead
    rw [hpage, Option.map_some] at hmid
    exact ⟨place, hplace, _, hmid, hdue.1, hdue.2.1, replayAll_lsn_lt hdue.2.2 hrs⟩

theorem filter_lsn_concat {q : LogRecord} (hq : q.lsn ≤ r.lsn) :
    (rs ++ [r]).filter (fun x => x.lsn < q.lsn) = rs.filter fun x => x.lsn < q.lsn := by
  simp [hq]

/-- A record that is not applied to the table adds nothing. -/
theorem Db.headAfter_concat_of_not (hrs : ∀ q ∈ rs, q.lsn < r.lsn)
    (hnot : ¬ (r.DueIn dpt db ∧ r.body.place.map LogPlace.tableName = some tab)) :
    db.headAfter dpt (rs ++ [r]) tab = db.headAfter dpt rs tab := by
  have hlast : db.lastDue dpt (rs ++ [r]) tab = db.lastDue dpt rs tab := by
    have hnot : (decide (r.DueIn dpt db) &&
        decide (r.body.place.map LogPlace.tableName = some tab)) = false := by
      simpa only [← Bool.decide_and, decide_eq_false_iff_not] using hnot
    rw [Db.lastDue, Db.lastDue, List.filter_append, List.filter_singleton, hnot, cond_false,
      List.append_nil]
  unfold Db.headAfter
  rw [hlast]
  cases hq : db.lastDue dpt rs tab with
  | none => rfl
  | some q =>
    have hin : q ∈ rs := List.mem_of_mem_filter (List.mem_of_getLast? hq)
    simp only [filter_lsn_concat (hrs q hin).le]

theorem Db.headAfter_concat_of_due {key : PageKey} {head : FileHead} {page : RmPage}
    (hrs : ∀ q ∈ rs, q.lsn < r.lsn) (hon : r.On key) (hdue : r.DueIn dpt db)
    (hhead : db.head key.1 = some head) (hpage : db.page key = some page) :
    db.headAfter dpt (rs ++ [r]) key.1 =
      some (r.body.redone r.lsn head (replayAll dpt head key rs page)).1 := by
  obtain ⟨place, hplace, rfl⟩ := hon.exists_place
  have hhead : db.head place.tableName = some head := hhead
  have hlast : db.lastDue dpt (rs ++ [r]) place.tableName = some r := by
    simp [Db.lastDue, hdue, hplace]
  have hbefore : (rs ++ [r]).filter (fun x => x.lsn < r.lsn) = rs := by
    rw [filter_lsn_concat le_rfl, List.filter_eq_self]
    intro q hq
    simpa using hrs q hq
  unfold Db.headAfter
  simp only [LogPlace.pageKey] at hpage ⊢
  rw [hlast]
  simp only [hhead, hplace, hpage, hbefore, Option.bind_some, Option.map_some]

/-- The headers after `redo` over records in the order of their LSNs. -/
theorem redoAll_head (hsorted : rs.Pairwise fun q r => q.lsn < r.lsn)
    (h : redoAll dpt rs db = some db') (tab : TabName) :
    db'.head tab = db.headAfter dpt rs tab := by
  induction rs using List.reverseRecOn generalizing db' with
  | nil =>
    cases Option.some.inj h
    rfl
  | append_singleton rs r ih =>
    obtain ⟨mid, hmid, hlast⟩ := redoAll_concat h
    obtain ⟨hsorted', -, hbelow⟩ := List.pairwise_append.mp hsorted
    have hrs : ∀ q ∈ rs, q.lsn < r.lsn := fun q hq => hbelow q hq r (by simp)
    have hsame := dueIn_redoAll hmid hrs
    rcases redoRecord_eq hlast with ⟨hdue, rfl⟩ |
      ⟨key, head, page, hon, hhead, hpage, hdue, hheads, -⟩
    · rw [Db.headAfter_concat_of_not hrs fun hd => hdue (hsame.mpr hd.1)]
      exact ih hsorted' hmid
    · obtain ⟨place, hplace, rfl⟩ := hon.exists_place
      have hduein : r.DueIn dpt mid := ⟨place, hplace, page, hpage, hdue⟩
      rw [hheads]
      split
      next ht =>
        obtain ⟨page₀, hpage₀⟩ := Option.isSome_iff_exists.mp
          (((redoAll_shape hmid).pages place.pageKey).trans
            (Option.isSome_iff_exists.mpr ⟨page, hpage⟩))
        obtain ⟨head₀, hhead₀⟩ := Db.exists_head hpage₀
        have hpages := redoAll_page hmid hhead₀
        rw [hpage₀, Option.map_some] at hpages
        cases Option.some.inj (hpage.symm.trans hpages)
        have hsize := (redoAll_shape hmid).recordSize hhead₀ hhead
        rw [ht, Db.headAfter_concat_of_due hrs hon (hsame.mp hduein) hhead₀ hpage₀,
          LogBody.redone_congr hplace hsize]
      next ht =>
        rw [Db.headAfter_concat_of_not hrs, ih hsorted' hmid]
        rintro ⟨-, htab⟩
        rw [hplace, Option.map_some, Option.some.injEq] at htab
        exact ht htab.symm

end Heads

/-- The records at `n` LSNs from `lsn` on, as the `redo` loop reads them. -/
def logFrom (log : List LogRecord) : Nat → Lsn → List LogRecord
  | 0, _ => []
  | n + 1, lsn => (recordAt log lsn).toList ++ logFrom log n (lsn + 1)

/-- The records that `redo` reads. -/
def redoReads (log : List LogRecord) : List LogRecord :=
  match firstLsn (analyze log).dpt with
  | none => []
  | some first => logFrom log ((analyze log).lastLsn + 1 - first).toNat first

section Reads

variable {log : List LogRecord} {dpt : List (PageKey × Lsn)} {n : Nat} {lsn : Lsn} {db : Db}

theorem logFrom_lsns
    (hlog : ∀ l, lsn ≤ l → l < lsn + n → ∃ r, recordAt log l = some r ∧ r.lsn = l) :
    (∀ r ∈ logFrom log n lsn, lsn ≤ r.lsn) ∧
      (logFrom log n lsn).Pairwise fun q r => q.lsn < r.lsn := by
  induction n generalizing lsn with
  | zero => simp [logFrom]
  | succ n ih =>
    obtain ⟨r, hr, hrl⟩ := hlog lsn le_rfl (by lia)
    obtain ⟨hlow, hsorted⟩ := @ih (lsn + 1) fun l hl hlt => hlog l (by lia) (by push_cast; lia)
    simp only [logFrom, hr, Option.toList_some, List.singleton_append]
    refine ⟨?_, List.pairwise_cons.mpr ⟨fun q hq => ?_, hsorted⟩⟩
    · rintro q (_ | ⟨_, hq⟩)
      · exact hrl.ge
      · have := hlow q hq
        lia
    · have := hlow q hq
      lia

/-- Where every LSN has its record, the `redo` loop is `redoAll`. -/
theorem redoLoop_eq
    (hlog : ∀ l, lsn ≤ l → l < lsn + n → ∃ r, recordAt log l = some r ∧ r.lsn = l) :
    redoLoop log dpt n lsn db = redoAll dpt (logFrom log n lsn) db := by
  induction n generalizing lsn db with
  | zero => rfl
  | succ n ih =>
    obtain ⟨r, hr, hrl⟩ := hlog lsn le_rfl (by lia)
    have hrest : ∀ mid, redoLoop log dpt n (lsn + 1) mid =
        redoAll dpt (logFrom log n (lsn + 1)) mid := fun mid =>
      ih fun l hl hlt => hlog l (by lia) (by push_cast; lia)
    simp only [redoLoop, logFrom, hr, Option.bind_some, Option.toList_some, List.singleton_append,
      redoAll_cons, hrl, hrest]

end Reads

end Grmdb
