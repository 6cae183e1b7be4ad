import Grmdb.RecordMap
import Grmdb.Analyze
import Grmdb.UndoChain

namespace Grmdb

open AssocMap

/-- The open tables, `fhs_`, with their pages as the buffer pool shows them. -/
abbrev Db := TabName → Option RmFile

def LogBody.isInsert : LogBody → Bool
  | .insert .. => true
  | _ => false

def LogBody.isDelete : LogBody → Bool
  | .delete .. => true
  | _ => false

namespace RmFile

/-- The file header that a log record carries. -/
def setHeader (f : RmFile) (place : LogPlace) : RmFile :=
  { f with firstFreePageNo := place.firstFreePageNo, numPages := place.numPages }

/-- `insert_redo`: after the header, the same end as `insert_record`. -/
def insertRedo (f : RmFile) (lsn : Lsn) (value : Bytes) (place : LogPlace) : Option RmFile :=
  let f := f.setHeader place
  (f.pages place.rid.pageNo).map fun page =>
    f.fill place.rid.pageNo (inserted page place.rid.slotNo value (some lsn))

def deleteRedo (f : RmFile) (lsn : Lsn) (place : LogPlace) : Option RmFile :=
  let f := f.setHeader place
  (f.pages place.rid.pageNo).map fun page =>
    f.unfill place.rid.pageNo (deleted page place.rid.slotNo (some lsn))

def updateRedo (f : RmFile) (lsn : Lsn) (newValue : Bytes) (place : LogPlace) : Option RmFile :=
  let f := f.setHeader place
  (f.pages place.rid.pageNo).map fun page =>
    f.write place.rid.pageNo ((page.copy place.rid.slotNo newValue).stamp (some lsn))

def redo (f : RmFile) (r : LogRecord) : Option RmFile :=
  match r.body with
  | .insert value place => f.insertRedo r.lsn value place
  | .delete _ place => f.deleteRedo r.lsn place
  | .update _ newValue place => f.updateRedo r.lsn newValue place
  | _ => some f

/-- `insert_undo`, `delete_undo` and `update_undo`: no LSN and no log record. -/
def undo (f : RmFile) (r : LogRecord) : Option RmFile :=
  match r.body with
  | .insert _ place => f.deleteRecord place.rid none
  | .delete deleteValue place => f.insertRecordAt place.rid deleteValue
  | .update oldValue _ place => f.updateRecord place.rid oldValue none
  | _ => some f

end RmFile

/-- The record at `log_offsets_[lsn]`; an LSN without an entry gets the offset 0. -/
def recordAt (log : List LogRecord) (lsn : Lsn) : Option LogRecord :=
  (recordOf log lsn).or log.head?

/-- One round of the `redo` loop. A table or a page that is not there throws. -/
def redoRecord (dpt : List (PageKey × Lsn)) (lsn : Lsn) (r : LogRecord) (db : Db) : Option Db :=
  match r.body.place with
  | none => some db
  | some place =>
    (db place.tableName).bind fun f =>
      if lookup place.pageKey dpt = none then some db
      else
        (f.pages place.rid.pageNo).bind fun page =>
          if lsn ≤ page.lsn then some db
          else (f.redo r).map fun f' => Function.update db place.tableName (some f')

/-- The `redo` loop with `n` LSNs to go. -/
def redoLoop (log : List LogRecord) (dpt : List (PageKey × Lsn)) : Nat → Lsn → Db → Option Db
  | 0, _, db => some db
  | n + 1, lsn, db =>
    (recordAt log lsn).bind fun r =>
      (redoRecord dpt lsn r db).bind fun db' => redoLoop log dpt n (lsn + 1) db'

/-- The least LSN of a dirty page table that is not empty. -/
def firstLsn : List (PageKey × Lsn) → Option Lsn
  | [] => none
  | e :: dpt => some (dpt.foldl (fun m e => min e.2 m) e.2)

def redo (a : Analysis) (log : List LogRecord) (db : Db) : Option Db :=
  match firstLsn a.dpt with
  | none => some db
  | some lsn => redoLoop log a.dpt (a.lastLsn + 1 - lsn).toNat lsn db

def undoRecord (db : Db) (r : LogRecord) : Option Db :=
  match r.body.place with
  | none => some db
  | some place =>
    (db place.tableName).bind fun f =>
      (f.undo r).map fun f' => Function.update db place.tableName (some f')

/-- The `undo` loop over its priority queue, with a bound on its rounds. A record that is neither
a data record nor BEGIN is never popped. -/
def undoLoop (log : List LogRecord) : Nat → List Lsn → Db → Option Db
  | 0, queue, db => if queue = [] then some db else none
  | fuel + 1, queue, db =>
    match queue.max? with
    | none => some db
    | some lsn =>
      if lsn = -1 then some db
      else
        (recordAt log lsn).bind fun r =>
          match r.body with
          | .begin => undoLoop log fuel (queue.erase lsn) db
          | .insert .. | .delete .. | .update .. =>
            (undoRecord db r).bind fun db' =>
              undoLoop log fuel (r.prevLsn :: queue.erase lsn) db'
          | _ => undoLoop log fuel queue db

/-- `analyze` looks up the table of every data record. -/
def tablesOpen (log : List LogRecord) (db : Db) : Prop :=
  ∀ r ∈ log, ∀ place ∈ r.body.place, (db place.tableName).isSome

instance (log : List LogRecord) (db : Db) : Decidable (tablesOpen log db) :=
  inferInstanceAs (Decidable (∀ r ∈ log, ∀ place ∈ r.body.place, (db place.tableName).isSome))

/-- `analyze`, `redo` and `undo` as `main` calls them, without the rebuilding of the indexes. -/
def recover (fuel : Nat) (log : List LogRecord) (db : Db) : Option Db :=
  if tablesOpen log db then
    let a := analyze log
    (redo a log db).bind fun db' => undoLoop log fuel (a.att.map Prod.snd) db'
  else none

/-- The records that the `undo` loop rolls back, in its order. -/
def undoneLoop (log : List LogRecord) : Nat → List Lsn → Option (List LogRecord)
  | 0, queue => if queue = [] then some [] else none
  | fuel + 1, queue =>
    match queue.max? with
    | none => some []
    | some lsn =>
      if lsn = -1 then some []
      else
        (recordAt log lsn).bind fun r =>
          match r.body with
          | .begin => undoneLoop log fuel (queue.erase lsn)
          | .insert .. | .delete .. | .update .. =>
            (undoneLoop log fuel (r.prevLsn :: queue.erase lsn)).map (r :: ·)
          | _ => undoneLoop log fuel queue

def undone (fuel : Nat) (log : List LogRecord) : List LogRecord :=
  (undoneLoop log fuel ((analyze log).att.map Prod.snd)).getD []

/-- Which records are undone depends on the log alone. -/
theorem undoLoop_eq (log : List LogRecord) (fuel : Nat) (queue : List Lsn) (db : Db) :
    undoLoop log fuel queue db =
      (undoneLoop log fuel queue).bind fun rs => rs.foldlM undoRecord db := by
  induction fuel generalizing queue db with
  | zero =>
    unfold undoLoop undoneLoop
    split <;> rfl
  | succ fuel ih =>
    have data : ∀ r queue, ((undoRecord db r).bind fun db' => undoLoop log fuel queue db') =
        ((undoneLoop log fuel queue).map (r :: ·)).bind fun rs => rs.foldlM undoRecord db := by
      intro r queue
      simp only [ih]
      cases undoneLoop log fuel queue with
      | none => simp
      | some rs =>
        simp only [Option.bind_some, Option.map_some, List.foldlM_cons]
        rfl
    simp only [undoLoop, undoneLoop]
    cases queue.max? with
    | none => rfl
    | some lsn =>
      simp only
      split
      · rfl
      · cases recordAt log lsn with
        | none => rfl
        | some r =>
          simp only [Option.bind_some]
          split
          · exact ih _ _
          · exact data r _
          · exact data r _
          · exact data r _
          · exact ih _ _

theorem recover_eq_some {fuel : Nat} {log : List LogRecord} {db db' : Db}
    (h : recover fuel log db = some db') :
    tablesOpen log db ∧ ∃ dbr, redo (analyze log) log db = some dbr ∧
      (undone fuel log).foldlM undoRecord dbr = some db' ∧
      undoneLoop log fuel ((analyze log).att.map Prod.snd) = some (undone fuel log) := by
  unfold recover at h
  split at h
  next hopen =>
    obtain ⟨dbr, hredo, hundo⟩ := Option.bind_eq_some_iff.mp h
    rw [undoLoop_eq] at hundo
    obtain ⟨rs, hrs, hfold⟩ := Option.bind_eq_some_iff.mp hundo
    have : undone fuel log = rs := by simp [undone, hrs]
    exact ⟨hopen, dbr, hredo, this ▸ hfold, this ▸ hrs⟩
  next => simp at h

/-- The page that a log record is about, as `redo` leaves it but for its place in the chain. -/
def LogBody.redoPage (lsn : Lsn) (page : RmPage) : LogBody → RmPage
  | .insert value place => RmFile.inserted page place.rid.slotNo value (some lsn)
  | .delete _ place => RmFile.deleted page place.rid.slotNo (some lsn)
  | .update _ newValue place => (page.copy place.rid.slotNo newValue).stamp (some lsn)
  | _ => page

namespace RmFile

variable {f f' : RmFile} {p : PageNo} {page : RmPage} {r : LogRecord} {place : LogPlace}

/-- `redo` of a data record changes its page and the header. -/
theorem redo_pages (h : f.redo r = some f') (hplace : r.body.place = some place) :
    ∃ page next, f.pages place.rid.pageNo = some page ∧
      f'.pages = Function.update f.pages place.rid.pageNo
        (some { r.body.redoPage r.lsn page with nextFreePageNo := next }) := by
  unfold RmFile.redo at h
  split at h
  next value pl hb =>
    simp only [hb, LogBody.place, Option.some.injEq] at hplace
    subst hplace
    obtain ⟨page, hp, rfl⟩ := Option.map_eq_some_iff.mp h
    obtain ⟨next, hpages⟩ := fill_pages (f.setHeader pl) pl.rid.pageNo
      (inserted page pl.rid.slotNo value (some r.lsn))
    exact ⟨page, next, hp, by rw [hpages, hb]; rfl⟩
  next value pl hb =>
    simp only [hb, LogBody.place, Option.some.injEq] at hplace
    subst hplace
    obtain ⟨page, hp, rfl⟩ := Option.map_eq_some_iff.mp h
    obtain ⟨next, hpages⟩ := unfill_pages (f.setHeader pl) pl.rid.pageNo
      (deleted page pl.rid.slotNo (some r.lsn))
    exact ⟨page, next, hp, by rw [hpages, hb]; rfl⟩
  next old value pl hb =>
    simp only [hb, LogBody.place, Option.some.injEq] at hplace
    subst hplace
    obtain ⟨page, hp, rfl⟩ := Option.map_eq_some_iff.mp h
    exact ⟨page, page.nextFreePageNo, hp, by rw [hb]; rfl⟩
  next h₁ h₂ h₃ =>
    exfalso
    cases hb : r.body <;> simp_all [LogBody.place]

theorem redoPage_lsn {b : LogBody} (hplace : b.place = some place) (lsn : Lsn) (page : RmPage) :
    (b.redoPage lsn page).lsn = lsn := by
  cases b <;> simp_all [LogBody.place, LogBody.redoPage, inserted, deleted, RmPage.stamp]

end RmFile

/-- The page of a table, where both are there. -/
def Db.page (db : Db) (key : PageKey) : Option RmPage := (db key.1).bind fun f => f.pages key.2

theorem Db.page_update (db : Db) (tab : TabName) (f : RmFile) (key : PageKey) :
    Db.page (Function.update db tab (some f)) key =
      if key.1 = tab then f.pages key.2 else db.page key := by
  by_cases h : key.1 = tab
  · simp [Db.page, h]
  · simp [Db.page, h]

/-- A round of `redo` leaves a page whose LSN is not below its own, or changes the page of its
record and the header of its table. -/
theorem redoRecord_cases {dpt : List (PageKey × Lsn)} {lsn : Lsn} {r : LogRecord} {db db' : Db}
    (h : redoRecord dpt lsn r db = some db') :
    (db' = db ∧ ∀ place, r.body.place = some place → lookup place.pageKey dpt ≠ none →
      ∃ page, db.page place.pageKey = some page ∧ lsn ≤ page.lsn) ∨
    ∃ place page next, r.body.place = some place ∧
      db.page place.pageKey = some page ∧ page.lsn < lsn ∧
      ∀ key, db'.page key = if key = place.pageKey then
        some { r.body.redoPage r.lsn page with nextFreePageNo := next } else db.page key := by
  unfold redoRecord at h
  split at h
  next hplace => exact Or.inl ⟨(Option.some.inj h).symm, by simp [hplace]⟩
  next place hplace =>
    obtain ⟨f, hf, h⟩ := Option.bind_eq_some_iff.mp h
    split at h
    next hdpt =>
      refine Or.inl ⟨(Option.some.inj h).symm, ?_⟩
      intro place' hplace' hin
      cases Option.some.inj (hplace.symm.trans hplace')
      exact absurd hdpt hin
    next =>
      obtain ⟨page, hpage, h⟩ := Option.bind_eq_some_iff.mp h
      have hkey : db.page place.pageKey = some page := by
        simp [Db.page, LogPlace.pageKey, hf, hpage]
      split at h
      next hle =>
        refine Or.inl ⟨(Option.some.inj h).symm, ?_⟩
        intro place' hplace' _
        cases Option.some.inj (hplace.symm.trans hplace')
        exact ⟨page, hkey, hle⟩
      next hlsn =>
        obtain ⟨f', hredo, rfl⟩ := Option.map_eq_some_iff.mp h
        obtain ⟨page', next, hpage', hpages⟩ := RmFile.redo_pages hredo hplace
        cases Option.some.inj (hpage.symm.trans hpage')
        refine Or.inr ⟨place, page, next, hplace, hkey, not_le.mp hlsn, ?_⟩
        rintro ⟨tab, p⟩
        rw [Db.page_update]
        by_cases htab : tab = place.tableName
        · subst htab
          by_cases hp : p = place.rid.pageNo
          · simp [hpages, LogPlace.pageKey, hp]
          · simp [hpages, LogPlace.pageKey, hp, Db.page, hf]
        · simp [LogPlace.pageKey, htab]

theorem analyzeRecord_lastLsn (a : Analysis) (r : LogRecord) :
    (analyzeRecord a r).lastLsn = r.lsn := by
  unfold analyzeRecord
  split <;> rfl

theorem exists_lastLsn {log : List LogRecord} (h : log ≠ []) :
    ∃ r ∈ log, r.lsn = (analyze log).lastLsn := by
  obtain ⟨pre, r, rfl⟩ := List.eq_nil_or_concat log |>.resolve_left h
  rw [List.concat_eq_append]
  exact ⟨r, by simp, by rw [analyze_concat, analyzeRecord_lastLsn]⟩

/-- The LSNs in the dirty page table are LSNs of the log. -/
theorem exists_of_mem_dpt {log : List LogRecord} {e : PageKey × Lsn}
    (h : e ∈ (analyze log).dpt) : ∃ r ∈ log, r.lsn = e.2 := by
  induction log using List.reverseRecOn with
  | nil => simp [analyze, Analysis.start] at h
  | append_singleton log r ih =>
    have keep : e ∈ (analyze log).dpt → ∃ q ∈ log ++ [r], q.lsn = e.2 := by
      intro hold
      obtain ⟨q, hq, hl⟩ := ih hold
      exact ⟨q, List.mem_append_left _ hq, hl⟩
    have data : ∀ place : LogPlace, e ∈ insertNew place.pageKey r.lsn (analyze log).dpt →
        ∃ q ∈ log ++ [r], q.lsn = e.2 := by
      intro place hin
      rcases mem_insertNew hin with hold | hnew
      · exact keep hold
      · exact ⟨r, by simp, by rw [hnew]⟩
    rw [analyze_concat] at h
    unfold analyzeRecord at h
    split at h
    · exact keep h
    · exact keep h
    · exact keep h
    · exact data _ h
    · exact data _ h
    · exact data _ h
    · simp at h

theorem foldl_min_mem (dpt : List (PageKey × Lsn)) (m : Lsn) :
    dpt.foldl (fun m e => min e.2 m) m = m ∨
      ∃ e ∈ dpt, dpt.foldl (fun m e => min e.2 m) m = e.2 := by
  induction dpt generalizing m with
  | nil => exact Or.inl rfl
  | cons e dpt ih =>
    rw [List.foldl_cons]
    rcases ih (min e.2 m) with h | ⟨e', he', h⟩
    · rcases min_choice e.2 m with hm | hm
      · exact Or.inr ⟨e, List.mem_cons_self, h.trans hm⟩
      · exact Or.inl (h.trans hm)
    · exact Or.inr ⟨e', List.mem_cons_of_mem e he', h⟩

theorem exists_firstLsn {dpt : List (PageKey × Lsn)} {lsn : Lsn} (h : firstLsn dpt = some lsn) :
    ∃ e ∈ dpt, lsn = e.2 := by
  cases dpt with
  | nil => simp [firstLsn] at h
  | cons e dpt =>
    have heq : dpt.foldl (fun m e => min e.2 m) e.2 = lsn := Option.some.inj h
    rcases foldl_min_mem dpt e.2 with hm | ⟨e', he', hm⟩
    · exact ⟨e, List.mem_cons_self, heq.symm.trans hm⟩
    · exact ⟨e', List.mem_cons_of_mem e he', heq.symm.trans hm⟩

end Grmdb
