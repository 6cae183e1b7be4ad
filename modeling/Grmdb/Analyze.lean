import Grmdb.LogManager
import Grmdb.AssocMap

namespace Grmdb

open AssocMap

abbrev PageKey := TabName × PageNo

/-- What `analyze` collects: the active transaction table, the dirty page table and the
transactions whose ABORT record no CHECKPOINT record has followed yet. -/
structure Analysis where
  att : List (TxnId × Lsn)
  dpt : List (PageKey × Lsn)
  abortedTids : List TxnId
  lastLsn : Lsn
  deriving DecidableEq

def Analysis.start : Analysis := ⟨[], [], [], INVALID_LSN⟩

def LogPlace.pageKey (p : LogPlace) : PageKey := (p.tableName, p.rid.pageNo)

def LogBody.place : LogBody → Option LogPlace
  | .update _ _ place | .insert _ place | .delete _ place => some place
  | _ => none

/-- `ATT[log_tid] = lsn`, for the records that carry a transaction. -/
def assignTid (att : List (TxnId × Lsn)) (r : LogRecord) : List (TxnId × Lsn) :=
  match r.logTid with
  | some t => assign t r.lsn att
  | none => att

/-- The three data branches of `analyze`: the first record of a page enters it in the DPT. -/
def analyzeData (a : Analysis) (r : LogRecord) (place : LogPlace) : Analysis :=
  { a with dpt := insertNew place.pageKey r.lsn a.dpt, att := assignTid a.att r, lastLsn := r.lsn }

def analyzeRecord (a : Analysis) (r : LogRecord) : Analysis :=
  match r.body with
  | .begin => { a with att := assignTid a.att r, lastLsn := r.lsn }
  | .commit =>
    { a with
      att := match r.logTid with
        | some t => erase t a.att
        | none => a.att
      lastLsn := r.lsn }
  | .abort =>
    { a with
      abortedTids := match r.logTid with
        | some t => t :: a.abortedTids
        | none => a.abortedTids
      lastLsn := r.lsn }
  | .update _ _ place | .insert _ place | .delete _ place => analyzeData a r place
  | .checkpoint =>
    { att := a.abortedTids.foldl (fun att t => erase t att) a.att
      dpt := []
      abortedTids := []
      lastLsn := r.lsn }

/-- The `analyze` loop over the records of the log file. -/
def analyze (file : List LogRecord) : Analysis := file.foldl analyzeRecord Analysis.start

theorem analyze_concat (l : List LogRecord) (r : LogRecord) :
    analyze (l ++ [r]) = analyzeRecord (analyze l) r := by
  simp [analyze]

theorem lookup_assignTid_other {t : TxnId} (att : List (TxnId × Lsn)) {r : LogRecord}
    (h : r.logTid ≠ some t) : lookup t (assignTid att r) = lookup t att := by
  unfold assignTid
  split
  next u hu =>
    have hne : u ≠ t := fun e => h (by rw [hu, e])
    simp [lookup_assign, hne]
  next => rfl

/-- A record of another transaction, a checkpoint or a COMMIT record brings no transaction
into the ATT. -/
theorem analyzeRecord_att_none {a : Analysis} {r : LogRecord} {t : TxnId}
    (hr : r.logTid = some t → r.body = .commit) (h : lookup t a.att = none) :
    lookup t (analyzeRecord a r).att = none := by
  have hassign : r.body ≠ .commit → lookup t (assignTid a.att r) = none := by
    intro hb
    rw [lookup_assignTid_other a.att (fun ht => hb (hr ht))]
    exact h
  unfold analyzeRecord
  split
  next hb => exact hassign (by simp [hb])
  next =>
    simp only
    split
    · rw [lookup_erase]
      split
      · rfl
      · exact h
    · exact h
  next => exact h
  next hb => exact hassign (by simp [hb])
  next hb => exact hassign (by simp [hb])
  next hb => exact hassign (by simp [hb])
  next =>
    rw [lookup_foldl_erase]
    split
    · rfl
    · exact h

theorem foldl_analyzeRecord_att_none {a : Analysis} {rest : List LogRecord} {t : TxnId}
    (hr : ∀ r ∈ rest, r.logTid = some t → r.body = .commit) (h : lookup t a.att = none) :
    lookup t (rest.foldl analyzeRecord a).att = none := by
  induction rest generalizing a with
  | nil => exact h
  | cons r rest ih =>
    exact ih (fun q hq => hr q (List.mem_cons_of_mem r hq))
      (analyzeRecord_att_none (hr r List.mem_cons_self) h)

/-- A transaction with nothing but COMMIT records after its first one is not rolled back. -/
theorem analyze_committed {before rest : List LogRecord} {c : LogRecord} {t : TxnId}
    (hc : c.logTid = some t) (hb : c.body = .commit)
    (hr : ∀ r ∈ rest, r.logTid = some t → r.body = .commit) :
    lookup t (analyze (before ++ c :: rest)).att = none := by
  rw [analyze, List.foldl_append, List.foldl_cons]
  apply foldl_analyzeRecord_att_none hr
  simp [analyzeRecord, hb, hc, lookup_erase]

/-- A record of another transaction other than a checkpoint leaves the entry of `t` alone. -/
theorem analyzeRecord_att_other {a : Analysis} {r : LogRecord} {t : TxnId}
    (hr : r.logTid ≠ some t) (hb : r.body ≠ .checkpoint) :
    lookup t (analyzeRecord a r).att = lookup t a.att := by
  have hassign := lookup_assignTid_other a.att hr
  unfold analyzeRecord
  split
  next => exact hassign
  next =>
    simp only
    split
    next u hu =>
      have hne : u ≠ t := fun e => hr (by rw [hu, e])
      simp [lookup_erase, hne]
    next => rfl
  next => rfl
  next => exact hassign
  next => exact hassign
  next => exact hassign
  next hc => exact absurd hc hb

theorem mem_abortedTids_other {a : Analysis} {r : LogRecord} {t : TxnId}
    (hr : r.body = .abort → r.logTid ≠ some t) (hb : r.body ≠ .checkpoint) :
    t ∈ (analyzeRecord a r).abortedTids ↔ t ∈ a.abortedTids := by
  unfold analyzeRecord
  split
  next => rfl
  next => rfl
  next hab =>
    simp only
    split
    next u hu =>
      have hne : t ≠ u := fun e => hr hab (by rw [hu, e])
      simp [hne]
    next => rfl
  next => rfl
  next => rfl
  next => rfl
  next hc => exact absurd hc hb

theorem mem_abortedTids_abort {l : List LogRecord} {t : TxnId}
    (h : t ∈ (analyze l).abortedTids) : ∃ r ∈ l, r.logTid = some t ∧ r.body = .abort := by
  induction l using List.reverseRecOn with
  | nil => simp [analyze, Analysis.start] at h
  | append_singleton l r ih =>
    rw [analyze_concat] at h
    by_cases hc : r.body = .checkpoint
    · simp [analyzeRecord, hc] at h
    · by_cases hr : r.body = .abort ∧ r.logTid = some t
      · exact ⟨r, by simp, hr.2, hr.1⟩
      · rw [mem_abortedTids_other (fun hab ht => hr ⟨hab, ht⟩) hc] at h
        obtain ⟨q, hq, hqt⟩ := ih h
        exact ⟨q, List.mem_append_left _ hq, hqt⟩

end Grmdb
