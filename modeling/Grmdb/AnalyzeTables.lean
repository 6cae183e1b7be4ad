import Grmdb.AssocMap
import Grmdb.LogScan

namespace Grmdb

open AssocMap ByteLayout

/-- What `analyze` fills in: `ATT`, `DPT` by `PageId`, `log_offsets_`, `last_lsn_`, and its set of
transactions whose ABORT record no CHECKPOINT record has followed yet. -/
structure RecoveryTables where
  att : List (Int × Lsn)
  dpt : List ((Fd × PageNo) × Lsn)
  logOffsets : List (Lsn × Int)
  lastLsn : Lsn
  abortedTids : List Int

/-- The constructor leaves `last_lsn_` as it is in memory. -/
def RecoveryTables.start (lastLsn : Lsn) : RecoveryTables := ⟨[], [], [], lastLsn, []⟩

/-- The `PageId` of a data record, `fds` being the descriptors of the open tables. -/
def DiskRecord.pageId (fds : Bytes → Option Fd) (r : DiskRecord) : Option (Fd × PageNo) :=
  r.payload.target.bind fun target => (fds target.tableName).map fun fd => (fd, target.rid.pageNo)

/-- One round of `analyze` behind the reads. -/
def takeRecord (fds : Bytes → Option Fd) (a : RecoveryTables) (x : TakenRecord) : RecoveryTables :=
  let a := { a with logOffsets := insertNew x.lsn x.offset a.logOffsets, lastLsn := x.lsn }
  match x.record with
  | none => a
  | some r =>
    match r.header.logType with
    | .begin => { a with att := assign r.header.logTid x.lsn a.att }
    | .commit => { a with att := erase r.header.logTid a.att }
    | .abort => { a with abortedTids := r.header.logTid :: a.abortedTids }
    | .update | .insert | .delete =>
      match r.pageId fds with
      | none => a
      | some pageId =>
        { a with
          dpt := insertNew pageId x.lsn a.dpt
          att := assign r.header.logTid x.lsn a.att }
    | .checkpoint =>
      { a with
        att := a.abortedTids.foldl (fun att tid => erase tid att) a.att
        dpt := []
        abortedTids := [] }

/-- `RecoveryManager::analyze` on the log file. -/
def analyzeFile (fds : Bytes → Option Fd) (file : Bytes) (lastLsn : Lsn) (fuel pos : Nat)
    (logHeader logData : Bytes) : Option RecoveryTables :=
  (analyzeLoop (fun name => (fds name).isSome) file fuel 0 pos logHeader logData).map fun taken =>
    taken.foldl (takeRecord fds) (.start lastLsn)

def LogType.isData : LogType → Bool
  | .update | .insert | .delete => true
  | _ => false

/-- A BEGIN or data record. -/
def DiskRecord.enters (r : DiskRecord) : Bool :=
  r.header.logType == .begin || r.header.logType.isData

def DiskRecord.ends (r : DiskRecord) : Bool :=
  match r.header.logType with
  | .commit | .abort => true
  | _ => false

/-- The records of a transaction, which CHECKPOINT records are not. -/
def ofTid (t : Int) (rs : List DiskRecord) : List DiskRecord :=
  rs.filter fun r => r.header.logType ≠ .checkpoint ∧ r.header.logTid = t

/-- A BEGIN record, data records and then at most one COMMIT or ABORT record. -/
inductive TxnRecords : List DiskRecord → Prop where
  | none : TxnRecords []
  | running {b : DiskRecord} {data : List DiskRecord} (hb : b.header.logType = .begin)
      (hdata : ∀ r ∈ data, r.header.logType.isData = true) : TxnRecords (b :: data)
  | ended {b e : DiskRecord} {data : List DiskRecord} (hb : b.header.logType = .begin)
      (hdata : ∀ r ∈ data, r.header.logType.isData = true) (he : e.ends = true) :
      TxnRecords (b :: (data ++ [e]))

structure WellFormedLog (fds : Bytes → Option Fd) (rs : List DiskRecord) : Prop where
  built : ∀ r ∈ rs, r.Built ∧ r.image.length ≤ LOG_BUFFER_SIZE
  increasing : rs.Pairwise fun r q => r.header.lsn < q.header.lsn
  tables : ∀ r ∈ rs, ∀ target ∈ r.payload.target, (fds target.tableName).isSome = true
  txns : ∀ t, TxnRecords (ofTid t rs)

/-- The LSN of the last BEGIN or data record of the transaction. -/
def LastEntered (rs : List DiskRecord) (t : Int) (l : Lsn) : Prop :=
  ∃ pre r post, rs = pre ++ r :: post ∧ r.header.logTid = t ∧ r.enters = true ∧ r.header.lsn = l ∧
    ∀ q ∈ post, q.header.logTid = t → q.enters = false

def HasTyped (rs : List DiskRecord) (type : LogType) (t : Int) : Prop :=
  ∃ r ∈ rs, r.header.logType = type ∧ r.header.logTid = t

/-- The ABORT record of the transaction is followed by a CHECKPOINT record. -/
def AbortSettled (rs : List DiskRecord) (t : Int) : Prop :=
  ∃ pre a post, rs = pre ++ a :: post ∧ a.header.logType = .abort ∧ a.header.logTid = t ∧
    ∃ c ∈ post, c.header.logType = .checkpoint

/-- The records behind the last CHECKPOINT record. -/
def sinceCheckpoint (rs : List DiskRecord) : List DiskRecord :=
  (rs.reverse.takeWhile fun r => r.header.logType ≠ .checkpoint).reverse

/-- A record of this LSN begins at the offset. -/
def RecordAt (rs : List DiskRecord) (l : Lsn) (offset : Int) : Prop :=
  ∃ pre r post, rs = pre ++ r :: post ∧ r.header.lsn = l ∧
    (pre.flatMap DiskRecord.bytes).length = offset

/-- The tables are what the log says. -/
structure RightTables (fds : Bytes → Option Fd) (rs : List DiskRecord) (a : RecoveryTables) :
    Prop where
  att : ∀ t l, lookup t a.att = some l ↔
    LastEntered rs t l ∧ ¬ HasTyped rs .commit t ∧ ¬ AbortSettled rs t
  dpt : ∀ p l, lookup p a.dpt = some l ↔
    ∃ r ∈ sinceCheckpoint rs, r.pageId fds = some p ∧ r.header.lsn = l ∧
      ∀ q ∈ sinceCheckpoint rs, q.pageId fds = some p → l ≤ q.header.lsn
  logOffsets : ∀ l offset, lookup l a.logOffsets = some offset ↔ RecordAt rs l offset
  lastLsn : ∀ pre r, rs = pre ++ [r] → a.lastLsn = r.header.lsn

section Round

variable {fds : Bytes → Option Fd} {a : RecoveryTables} {r : DiskRecord} {offset : Int}

/-- A data record names a page of an open table, the others name none. -/
structure DiskRecord.Placed (fds : Bytes → Option Fd) (r : DiskRecord) : Prop where
  data : r.header.logType.isData = true → (r.pageId fds).isSome = true
  other : r.header.logType.isData = false → r.pageId fds = none

theorem LogPayload.Matches.target_isSome {t : LogType} {payload : LogPayload}
    (h : payload.Matches t) : payload.target.isSome = t.isData := by
  cases payload <;> cases t <;> first | rfl | cases h

theorem WellFormedLog.placed {rs : List DiskRecord} (h : WellFormedLog fds rs) (hr : r ∈ rs) :
    r.Placed fds := by
  have htarget := (h.built r hr).1.wellBuilt.payload.target_isSome
  have htables := h.tables r hr
  constructor
  · intro hdata
    rw [hdata] at htarget
    obtain ⟨target, hp⟩ := Option.isSome_iff_exists.mp htarget
    simpa [DiskRecord.pageId, hp] using htables target hp
  · intro hdata
    rw [hdata] at htarget
    have hp : r.payload.target = none := by simpa using htarget
    rw [DiskRecord.pageId, hp, Option.bind_none]

theorem takeRecord_logOffsets (x : TakenRecord) :
    (takeRecord fds a x).logOffsets = insertNew x.lsn x.offset a.logOffsets := by
  simp only [takeRecord]
  split
  · rfl
  · split <;> first | rfl | (split <;> rfl)

theorem takeRecord_lastLsn :
    (takeRecord fds a (takenRecord (offset, r))).lastLsn = r.header.lsn := by
  simp only [takeRecord, takenRecord]
  split <;> first | rfl | (split <;> rfl)

/-- What a record does to the entry of a transaction. -/
theorem takeRecord_att (h : r.Placed fds) (t : Int) :
    lookup t (takeRecord fds a (takenRecord (offset, r))).att =
      if r.enters = true ∧ r.header.logTid = t then some r.header.lsn
      else if r.header.logType = .commit ∧ r.header.logTid = t then none
      else if r.header.logType = .checkpoint ∧ t ∈ a.abortedTids then none
      else lookup t a.att := by
  have hdata := h.data
  cases ht : r.header.logType <;> rw [ht] at hdata <;>
    simp only [takeRecord, takenRecord, DiskRecord.enters, ht]
  case begin => simp [lookup_assign]
  case commit => simp [lookup_erase, LogType.isData]
  case abort => simp [LogType.isData]
  case checkpoint => simp [lookup_foldl_erase, LogType.isData]
  all_goals
    obtain ⟨p, hp⟩ := Option.isSome_iff_exists.mp (hdata rfl)
    simp [hp, lookup_assign, LogType.isData]

theorem takeRecord_abortedTids (t : Int) :
    t ∈ (takeRecord fds a (takenRecord (offset, r))).abortedTids ↔
      r.header.logType ≠ .checkpoint ∧
        (r.header.logType = .abort ∧ r.header.logTid = t ∨ t ∈ a.abortedTids) := by
  cases ht : r.header.logType <;> simp only [takeRecord, takenRecord, ht]
  case abort => simp [eq_comm]
  case begin => simp
  case commit => simp
  case checkpoint => simp
  all_goals split <;> simp

theorem takeRecord_dpt (h : r.Placed fds) (p : Fd × PageNo) :
    lookup p (takeRecord fds a (takenRecord (offset, r))).dpt =
      if r.header.logType = .checkpoint then none
      else if r.pageId fds = some p then some ((lookup p a.dpt).getD r.header.lsn)
      else lookup p a.dpt := by
  have hdata := h.data
  have hother := h.other
  cases ht : r.header.logType <;> rw [ht] at hdata hother <;>
    simp only [takeRecord, takenRecord, ht]
  case begin => simp [hother rfl]
  case commit => simp [hother rfl]
  case abort => simp [hother rfl]
  case checkpoint => simp
  all_goals
    obtain ⟨q, hq⟩ := Option.isSome_iff_exists.mp (hdata rfl)
    simp only [hq, lookup_insertNew, Option.some.injEq, reduceCtorEq, if_false]
    by_cases hpq : q = p <;> simp [hpq]

end Round

section Shape

variable {fds : Bytes → Option Fd} {rs pre post : List DiskRecord} {r : DiskRecord} {t : Int}
  {l : Lsn}

theorem ofTid_concat : ofTid t (rs ++ [r]) =
    ofTid t rs ++ if r.header.logType ≠ .checkpoint ∧ r.header.logTid = t then [r] else [] := by
  simp only [ofTid, List.filter_append, List.filter_cons, List.filter_nil, decide_eq_true_eq]

theorem DiskRecord.not_ends_of_begin (h : r.header.logType = .begin) : r.ends = false := by
  simp [ends, h]

theorem DiskRecord.not_ends_of_data (h : r.header.logType.isData = true) : r.ends = false := by
  cases ht : r.header.logType <;> simp_all [ends, LogType.isData]

/-- In front of the last record of a transaction there is none that ends it. -/
theorem TxnRecords.left (h : TxnRecords (rs ++ [r])) :
    TxnRecords rs ∧ ∀ q ∈ rs, q.ends = false := by
  generalize hall : rs ++ [r] = all at h
  have running : ∀ {b data}, b.header.logType = .begin →
      (∀ q ∈ data, q.header.logType.isData = true) →
      TxnRecords (b :: data) ∧ ∀ q ∈ b :: data, q.ends = false := by
    intro b data hb hdata
    refine ⟨.running hb hdata, fun q hq => ?_⟩
    rcases List.mem_cons.mp hq with rfl | hq
    · exact DiskRecord.not_ends_of_begin hb
    · exact DiskRecord.not_ends_of_data (hdata q hq)
  cases h with
  | none => simp at hall
  | @running b data hb hdata =>
    cases rs with
    | nil => exact ⟨.none, by simp⟩
    | cons x rs =>
      obtain ⟨rfl, rfl⟩ := List.cons.inj hall
      exact running hb fun q hq => hdata q (List.mem_append_left _ hq)
  | @ended b e data hb hdata he =>
    rw [← List.cons_append] at hall
    obtain ⟨rfl, -⟩ := List.append_inj' hall rfl
    exact running hb hdata

theorem WellFormedLog.left (h : WellFormedLog fds (rs ++ [r])) : WellFormedLog fds rs := by
  refine ⟨fun q hq => h.built q (List.mem_append_left _ hq),
    (List.pairwise_append.mp h.increasing).1, fun q hq => h.tables q (List.mem_append_left _ hq), fun t => ?_⟩
  have htxn := h.txns t
  rw [ofTid_concat] at htxn
  split at htxn
  · exact htxn.left.1
  · rwa [List.append_nil] at htxn

/-- A transaction that goes on has not ended before. -/
theorem WellFormedLog.not_ended (h : WellFormedLog fds (rs ++ [r]))
    (hr : r.header.logType ≠ .checkpoint) {q : DiskRecord} (hq : q ∈ rs)
    (htid : q.header.logTid = r.header.logTid) : q.ends = false := by
  have htxn := h.txns r.header.logTid
  rw [ofTid_concat, if_pos ⟨hr, rfl⟩] at htxn
  by_cases hc : q.header.logType = .checkpoint
  · simp [DiskRecord.ends, hc]
  · exact htxn.left.2 q (List.mem_filter.mpr ⟨hq, by simpa using ⟨hc, htid⟩⟩)

theorem WellFormedLog.lsn_lt (h : WellFormedLog fds (rs ++ [r])) {q : DiskRecord} (hq : q ∈ rs) :
    q.header.lsn < r.header.lsn :=
  (List.pairwise_append.mp h.increasing).2.2 q hq r (List.mem_singleton_self r)

theorem lastEntered_concat : LastEntered (rs ++ [r]) t l ↔
    if r.enters = true ∧ r.header.logTid = t then r.header.lsn = l else LastEntered rs t l := by
  constructor
  · rintro ⟨pre, q, post, hsplit, htid, hq, hl, hpost⟩
    rcases List.eq_nil_or_concat' post with rfl | ⟨post, x, rfl⟩
    · obtain ⟨rfl, hx⟩ := List.append_inj' hsplit rfl
      cases hx
      rwa [if_pos ⟨hq, htid⟩]
    · rw [← List.cons_append, ← List.append_assoc] at hsplit
      obtain ⟨rfl, hx⟩ := List.append_inj' hsplit rfl
      cases hx
      have hlast := hpost r (by simp)
      rw [if_neg]
      · exact ⟨pre, q, post, rfl, htid, hq, hl, fun y hy => hpost y (List.mem_append_left _ hy)⟩
      · rintro ⟨henters, hown⟩
        rw [hlast hown] at henters
        cases henters
  · split
    next h =>
      rintro rfl
      exact ⟨rs, r, [], rfl, h.2, h.1, rfl, by simp⟩
    next h =>
      rintro ⟨pre, q, post, rfl, htid, hq, hl, hpost⟩
      refine ⟨pre, q, post ++ [r], by simp, htid, hq, hl, fun y hy hown => ?_⟩
      rcases List.mem_append.mp hy with hy | hy
      · exact hpost y hy hown
      · rw [List.mem_singleton.mp hy] at hown ⊢
        by_contra henters
        exact h ⟨by simpa using henters, hown⟩

theorem hasTyped_concat {type : LogType} : HasTyped (rs ++ [r]) type t ↔
    HasTyped rs type t ∨ r.header.logType = type ∧ r.header.logTid = t := by
  simp only [HasTyped, List.mem_append, List.mem_singleton]
  constructor
  · rintro ⟨q, hq | rfl, h⟩
    · exact .inl ⟨q, hq, h⟩
    · exact .inr h
  · rintro (⟨q, hq, h⟩ | h)
    · exact ⟨q, .inl hq, h⟩
    · exact ⟨r, .inr rfl, h⟩

theorem abortSettled_concat : AbortSettled (rs ++ [r]) t ↔
    AbortSettled rs t ∨ r.header.logType = .checkpoint ∧ HasTyped rs .abort t := by
  constructor
  · rintro ⟨pre, a, post, hsplit, ha, htid, c, hc, hckpt⟩
    rcases List.eq_nil_or_concat' post with rfl | ⟨post, x, rfl⟩
    · cases hc
    · rw [← List.cons_append, ← List.append_assoc] at hsplit
      obtain ⟨rfl, hx⟩ := List.append_inj' hsplit rfl
      cases hx
      rcases List.mem_append.mp hc with hc | hc
      · exact .inl ⟨pre, a, post, rfl, ha, htid, c, hc, hckpt⟩
      · rw [List.mem_singleton.mp hc] at hckpt
        exact .inr ⟨hckpt, a, by simp, ha, htid⟩
  · rintro (⟨pre, a, post, rfl, ha, htid, c, hc, hckpt⟩ | ⟨hckpt, a, hmem, ha, htid⟩)
    · exact ⟨pre, a, post ++ [r], by simp, ha, htid, c, List.mem_append_left _ hc, hckpt⟩
    · obtain ⟨pre, post, rfl⟩ := List.append_of_mem hmem
      exact ⟨pre, a, post ++ [r], by simp, ha, htid, r, by simp, hckpt⟩

theorem sinceCheckpoint_concat : sinceCheckpoint (rs ++ [r]) =
    if r.header.logType = .checkpoint then [] else sinceCheckpoint rs ++ [r] := by
  rw [sinceCheckpoint, List.reverse_append, List.reverse_singleton, List.singleton_append,
    List.takeWhile_cons]
  by_cases h : r.header.logType = .checkpoint
  · simp [h]
  · simp [h, sinceCheckpoint]

theorem recordAt_concat {offset : Int} : RecordAt (rs ++ [r]) l offset ↔
    RecordAt rs l offset ∨ r.header.lsn = l ∧ (rs.flatMap DiskRecord.bytes).length = offset := by
  constructor
  · rintro ⟨pre, q, post, hsplit, hl, hoffset⟩
    rcases List.eq_nil_or_concat' post with rfl | ⟨post, x, rfl⟩
    · obtain ⟨rfl, hx⟩ := List.append_inj' hsplit rfl
      cases hx
      exact .inr ⟨hl, hoffset⟩
    · rw [← List.cons_append, ← List.append_assoc] at hsplit
      obtain ⟨rfl, -⟩ := List.append_inj' hsplit rfl
      exact .inl ⟨pre, q, post, rfl, hl, hoffset⟩
  · rintro (⟨pre, q, post, rfl, hl, hoffset⟩ | ⟨hl, hoffset⟩)
    · exact ⟨pre, q, post ++ [r], by simp, hl, hoffset⟩
    · exact ⟨rs, r, [], rfl, hl, hoffset⟩

theorem RecordAt.mem {offset : Int} (h : RecordAt rs l offset) : ∃ q ∈ rs, q.header.lsn = l := by
  obtain ⟨pre, q, post, rfl, hl, -⟩ := h
  exact ⟨q, by simp, hl⟩

/-- The first record that names a page has the smallest LSN of those that do. -/
theorem first_eq_smallest {named : DiskRecord → Prop} [DecidablePred named]
    (h : rs.Pairwise fun r q => r.header.lsn < q.header.lsn) :
    (rs.find? fun r => named r).map (fun r => r.header.lsn) = some l ↔
      ∃ r ∈ rs, named r ∧ r.header.lsn = l ∧ ∀ q ∈ rs, named q → l ≤ q.header.lsn := by
  induction rs with
  | nil => simp
  | cons r rs ih =>
    obtain ⟨hfirst, hrest⟩ := List.pairwise_cons.mp h
    by_cases hr : named r
    · rw [List.find?_cons_of_pos (by simpa using hr), Option.map_some, Option.some.injEq]
      constructor
      · rintro rfl
        refine ⟨r, List.mem_cons_self, hr, rfl, fun q hq _ => ?_⟩
        rcases List.mem_cons.mp hq with rfl | hq
        · exact le_rfl
        · exact (hfirst q hq).le
      · rintro ⟨q, hq, -, rfl, hall⟩
        have hle := hall r List.mem_cons_self hr
        rcases List.mem_cons.mp hq with rfl | hq
        · rfl
        · exact absurd (hfirst q hq) (not_lt.mpr hle)
    · rw [List.find?_cons_of_neg (by simpa using hr), ih hrest]
      simp [hr]

end Shape

/-- The tables when the rounds have taken these records. -/
def tablesOf (fds : Bytes → Option Fd) (lastLsn : Lsn) (rs : List DiskRecord) : RecoveryTables :=
  ((placedFrom 0 rs).map takenRecord).foldl (takeRecord fds) (.start lastLsn)

section Tables

variable {fds : Bytes → Option Fd} {lastLsn : Lsn} {rs : List DiskRecord} {r : DiskRecord}

theorem placedFrom_concat (offset : Nat) (rs : List DiskRecord) (r : DiskRecord) :
    placedFrom offset (rs ++ [r]) = placedFrom offset rs ++
      [(((offset + (rs.map fun q => q.header.logTotLen).sum : Nat) : Int), r)] := by
  induction rs generalizing offset with
  | nil => rfl
  | cons q rs ih =>
    rw [List.cons_append, placedFrom, placedFrom, ih, List.map_cons, List.sum_cons,
      List.cons_append, Nat.add_assoc]

theorem WellFormedLog.logTotLen (h : WellFormedLog fds rs) (hr : r ∈ rs) :
    r.header.logTotLen = r.image.length := by
  obtain ⟨hbuilt, hfits⟩ := h.built r hr
  exact hbuilt.wellBuilt.logTotLen_eq (lt_of_le_of_lt hfits (by decide))

theorem WellFormedLog.bytes_eq (h : WellFormedLog fds rs) (hr : r ∈ rs) : r.bytes = r.image :=
  DiskRecord.bytes_eq (h.logTotLen hr)

theorem WellFormedLog.length_bytes (h : WellFormedLog fds rs) :
    (rs.map fun q => q.header.logTotLen).sum = (rs.flatMap DiskRecord.bytes).length := by
  have hlengths : (rs.map fun q => q.header.logTotLen) = rs.map fun q => q.bytes.length :=
    List.map_congr_left fun q hq => by rw [h.logTotLen hq, h.bytes_eq hq]
  rw [hlengths, List.length_flatMap]

theorem tablesOf_concat (h : WellFormedLog fds (rs ++ [r])) :
    tablesOf fds lastLsn (rs ++ [r]) = takeRecord fds (tablesOf fds lastLsn rs)
      (takenRecord (((rs.flatMap DiskRecord.bytes).length : Int), r)) := by
  rw [tablesOf, placedFrom_concat, h.left.length_bytes, List.map_append, List.foldl_append,
    Nat.zero_add]
  rfl

/-- Of the transactions with an ABORT record the set holds those that are not settled. -/
theorem tablesOf_aborted (h : WellFormedLog fds rs) (t : Int) :
    HasTyped rs .abort t ↔ AbortSettled rs t ∨ t ∈ (tablesOf fds lastLsn rs).abortedTids := by
  induction rs using List.reverseRecOn with
  | nil => simp [HasTyped, AbortSettled, tablesOf, placedFrom, RecoveryTables.start]
  | append_singleton rs r ih =>
    have ih := ih h.left
    rw [tablesOf_concat h, takeRecord_abortedTids, abortSettled_concat, hasTyped_concat]
    by_cases hc : r.header.logType = .checkpoint
    · simp [hc]
      tauto
    · simp [hc, ih]
      tauto

theorem tablesOf_att (h : WellFormedLog fds rs) (t : Int) (l : Lsn) :
    lookup t (tablesOf fds lastLsn rs).att = some l ↔
      LastEntered rs t l ∧ ¬ HasTyped rs .commit t ∧ ¬ AbortSettled rs t := by
  induction rs using List.reverseRecOn with
  | nil => simp [LastEntered, tablesOf, placedFrom, RecoveryTables.start]
  | append_singleton rs r ih =>
    have ih := ih h.left
    have haborted := @tablesOf_aborted fds lastLsn rs h.left t
    have hplaced : r.Placed fds := h.placed (by simp)
    rw [tablesOf_concat h, takeRecord_att hplaced, lastEntered_concat, hasTyped_concat,
      abortSettled_concat]
    by_cases hown : r.enters = true ∧ r.header.logTid = t
    · have htype : r.header.logType ≠ .checkpoint ∧ r.header.logType ≠ .commit := by
        constructor <;> intro ht <;> simp [DiskRecord.enters, ht, LogType.isData] at hown
      have hrunning : ∀ q ∈ rs, q.header.logTid = t → q.ends = false := by
        intro q hq htid
        exact h.not_ended htype.1 hq (htid.trans hown.2.symm)
      have hcommit : ¬ HasTyped rs .commit t := by
        rintro ⟨q, hq, ht, htid⟩
        have hends := hrunning q hq htid
        simp [DiskRecord.ends, ht] at hends
      have habort : ¬ AbortSettled rs t := by
        rintro ⟨pre, q, post, rfl, ht, htid, -⟩
        have hends := hrunning q (by simp) htid
        simp [DiskRecord.ends, ht] at hends
      simp [if_pos hown, hcommit, habort, htype.1, htype.2]
    rw [if_neg hown, if_neg hown]
    by_cases hcommit : r.header.logType = .commit ∧ r.header.logTid = t
    · simp [hcommit]
    rw [if_neg hcommit]
    by_cases hckpt : r.header.logType = .checkpoint ∧ t ∈ (tablesOf fds lastLsn rs).abortedTids
    · have hrecord := haborted.mpr (.inr hckpt.2)
      simp [hckpt, hrecord]
    · rw [if_neg hckpt, ih]
      have hsettled : AbortSettled rs t ∨ r.header.logType = .checkpoint ∧ HasTyped rs .abort t ↔
          AbortSettled rs t := by
        rw [haborted]
        constructor
        · rintro (hs | ⟨htype, hs | hmem⟩)
          · exact hs
          · exact hs
          · exact absurd ⟨htype, hmem⟩ hckpt
        · exact .inl
      rw [hsettled, or_iff_left hcommit]

theorem tablesOf_find (h : WellFormedLog fds rs) (p : Fd × PageNo) :
    lookup p (tablesOf fds lastLsn rs).dpt =
      ((sinceCheckpoint rs).find? fun r => r.pageId fds = some p).map fun r => r.header.lsn := by
  induction rs using List.reverseRecOn with
  | nil => rfl
  | append_singleton rs r ih =>
    have hplaced : r.Placed fds := h.placed (by simp)
    rw [tablesOf_concat h, takeRecord_dpt hplaced, sinceCheckpoint_concat, ih h.left]
    by_cases hc : r.header.logType = .checkpoint
    · simp [hc]
    rw [if_neg hc, if_neg hc, List.find?_append]
    by_cases hp : r.pageId fds = some p
    · rw [if_pos hp, List.find?_cons_of_pos (by simpa using hp)]
      cases (sinceCheckpoint rs).find? fun r => r.pageId fds = some p <;> rfl
    · rw [if_neg hp, List.find?_cons_of_neg (by simpa using hp), List.find?_nil, Option.or_none]

theorem WellFormedLog.sinceCheckpoint_increasing (h : WellFormedLog fds rs) :
    (sinceCheckpoint rs).Pairwise fun r q => r.header.lsn < q.header.lsn := by
  refine h.increasing.sublist ?_
  have hsub := (rs.reverse.takeWhile_sublist fun r => r.header.logType ≠ .checkpoint).reverse
  rwa [List.reverse_reverse] at hsub

theorem tablesOf_logOffsets (h : WellFormedLog fds rs) (l : Lsn) (offset : Int) :
    lookup l (tablesOf fds lastLsn rs).logOffsets = some offset ↔ RecordAt rs l offset := by
  induction rs using List.reverseRecOn generalizing l offset with
  | nil => simp [RecordAt, tablesOf, placedFrom, RecoveryTables.start]
  | append_singleton rs r ih =>
    have ih := ih h.left
    rw [tablesOf_concat h, takeRecord_logOffsets, lookup_insertNew, recordAt_concat, takenRecord]
    have hnew : ∀ o, ¬ RecordAt rs r.header.lsn o := by
      intro o hat
      obtain ⟨q, hq, hl⟩ := hat.mem
      have hlt := h.lsn_lt hq
      rw [hl] at hlt
      exact lt_irrefl _ hlt
    by_cases hl : r.header.lsn = l
    · subst hl
      have hnone : lookup r.header.lsn (tablesOf fds lastLsn rs).logOffsets = none := by
        cases hlookup : lookup r.header.lsn (tablesOf fds lastLsn rs).logOffsets with
        | none => rfl
        | some o => exact absurd ((ih _ _).mp hlookup) (hnew o)
      simp [hnone, hnew]
    · rw [if_neg hl, ih]
      simp [hl]

/-- One pass fills in the right tables. -/
theorem tablesOf_right (h : WellFormedLog fds rs) :
    RightTables fds rs (tablesOf fds lastLsn rs) where
  att := tablesOf_att h
  dpt p l := by
    rw [tablesOf_find h]
    exact first_eq_smallest h.sinceCheckpoint_increasing
  logOffsets := tablesOf_logOffsets h
  lastLsn pre r hr := by
    subst hr
    rw [tablesOf_concat h]
    exact takeRecord_lastLsn

end Tables

/-- `analyze` on the log of these records, whatever the buffers and `last_lsn_` hold at first. -/
def AnalyzesTables (fds : Bytes → Option Fd) (rs : List DiskRecord) : Prop :=
  ∀ lastLsn pos logHeader logData, logHeader.length = LOG_HEADER_SIZE →
    logData.length = LOG_BUFFER_SIZE →
    ∃ fuel a, analyzeFile fds (rs.flatMap DiskRecord.bytes) lastLsn fuel pos logHeader logData =
      some a ∧ RightTables fds rs a

section Run

variable {fds : Bytes → Option Fd} {rs : List DiskRecord} {r : DiskRecord}

theorem WellFormedLog.chunk (h : WellFormedLog fds rs) (hr : r ∈ rs) :
    LogChunk (fun name => (fds name).isSome) r.bytes r.header.lsn (some r) := by
  obtain ⟨hbuilt, hfits⟩ := h.built r hr
  refine hbuilt.chunk hfits ?_
  rw [DiskRecord.tableOpen, Option.all_eq_true]
  exact h.tables r hr

theorem takenFrom_placed (h : ∀ r ∈ rs, r.header.logTotLen = r.bytes.length)
    (offset : Nat) : takenFrom offset (rs.map fun r => (r.bytes, r.header.lsn, some r)) =
      (placedFrom offset rs).map takenRecord := by
  induction rs generalizing offset with
  | nil => rfl
  | cons r rs ih =>
    have hr := h r List.mem_cons_self
    simp only [List.map_cons, takenFrom, placedFrom, takenRecord, hr,
      ih fun q hq => h q (List.mem_cons_of_mem _ hq)]

/-- Every offset that is taken lies before the size that `get_file_size` answers. -/
theorem analyzeLoop_offset_lt {isOpen : Bytes → Bool} {file logHeader logData : Bytes}
    {fuel pos : Nat} {offset : Int} {taken : List TakenRecord}
    (h : analyzeLoop isOpen file fuel offset pos logHeader logData = some taken) :
    ∀ x ∈ taken, x.offset < toInt32 file.length := by
  induction fuel generalizing offset pos logHeader logData taken with
  | zero => cases h
  | succ fuel ih =>
    by_cases hmore : offset < toInt32 file.length
    · obtain ⟨x, rest, pos', header', data', rfl, hoffset, hrun⟩ := analyzeLoop_cons_inv hmore h
      intro y hy
      rcases List.mem_cons.mp hy with rfl | hy
      · rwa [hoffset]
      · exact ih hrun y hy
    · simp only [analyzeLoop, if_neg hmore] at h
      cases h
      simp

theorem takeRecord_offset {a : RecoveryTables} {x : TakenRecord} {l : Lsn} {offset : Int}
    (h : lookup l (takeRecord fds a x).logOffsets = some offset) :
    x.offset = offset ∨ lookup l a.logOffsets = some offset := by
  rw [takeRecord_logOffsets, lookup_insertNew] at h
  by_cases hl : x.lsn = l
  · subst hl
    rw [if_pos rfl] at h
    cases hlookup : lookup x.lsn a.logOffsets with
    | none => rw [hlookup] at h; exact .inl (Option.some.inj h)
    | some o => rw [hlookup] at h; exact .inr h
  · rw [if_neg hl] at h
    exact .inr h

theorem foldl_takeRecord_offset {taken : List TakenRecord} {a : RecoveryTables} {l : Lsn}
    {offset : Int} (h : lookup l (taken.foldl (takeRecord fds) a).logOffsets = some offset) :
    (∃ x ∈ taken, x.offset = offset) ∨ lookup l a.logOffsets = some offset := by
  induction taken generalizing a with
  | nil => exact .inr h
  | cons x taken ih =>
    rcases ih h with ⟨y, hy, heq⟩ | h
    · exact .inl ⟨y, List.mem_cons_of_mem _ hy, heq⟩
    · rcases takeRecord_offset h with heq | h
      · exact .inl ⟨x, List.mem_cons_self, heq⟩
      · exact .inr h

theorem toInt32_le_of_ge {n : Nat} (h : 2 ^ 31 ≤ n) : toInt32 n ≤ (n : Int) - 2 ^ 32 := by
  unfold toInt32
  split <;> omega

/-- The offset of the last record of a log that is too long stands nowhere in the tables. -/
theorem not_analyzesTables_long (h : WellFormedLog fds rs)
    (hlong : 2 ^ 31 ≤ (rs.flatMap DiskRecord.bytes).length) : ¬ AnalyzesTables fds rs := by
  intro hright
  obtain ⟨fuel, a, hrun, htables⟩ := hright 0 0 (List.replicate LOG_HEADER_SIZE 0)
    (List.replicate LOG_BUFFER_SIZE 0) List.length_replicate List.length_replicate
  obtain ⟨taken, htaken, rfl⟩ := Option.map_eq_some_iff.mp hrun
  rcases List.eq_nil_or_concat' rs with rfl | ⟨pre, r, rfl⟩
  · simp at hlong
  · have hat : RecordAt (pre ++ [r]) r.header.lsn (pre.flatMap DiskRecord.bytes).length :=
      ⟨pre, r, [], rfl, rfl, rfl⟩
    rcases foldl_takeRecord_offset ((htables.logOffsets _ _).mpr hat) with ⟨x, hx, heq⟩ | hnone
    · have hlt := analyzeLoop_offset_lt htaken x hx
      have hle := toInt32_le_of_ge hlong
      have hfits := (h.built r (by simp)).2
      rw [← h.bytes_eq (by simp)] at hfits
      have hbuffer : LOG_BUFFER_SIZE < 2 ^ 31 := by decide
      simp only [List.flatMap_append, List.flatMap_singleton, List.length_append] at hle hlt
      omega
    · cases hnone

/-- `analyze` computes the right tables of every well-formed log up to the size that an `int` can
hold. -/
theorem analyzesTables_iff (h : WellFormedLog fds rs) :
    AnalyzesTables fds rs ↔ (rs.flatMap DiskRecord.bytes).length < 2 ^ 31 := by
  constructor
  · intro hright
    by_contra hlong
    exact not_analyzesTables_long h (not_lt.mp hlong) hright
  · intro hsize lastLsn pos logHeader logData hheader hdata
    have hcs : ∀ c ∈ rs.map fun r => (r.bytes, r.header.lsn, some r),
        LogChunk (fun name => (fds name).isSome) c.1 c.2.1 c.2.2 := by
      intro c hc
      obtain ⟨r, hr, rfl⟩ := List.mem_map.mp hc
      exact h.chunk hr
    have hfile : rs.flatMap DiskRecord.bytes =
        ((rs.map fun r => (r.bytes, r.header.lsn, some r)).map Prod.fst).flatten := by
      rw [List.map_map, List.flatMap_def]
      rfl
    have hlen : ∀ r ∈ rs, r.header.logTotLen = r.bytes.length := by
      intro r hr
      rw [h.logTotLen hr, h.bytes_eq hr]
    have hrun := @analyzeLoop_whole _ _ logHeader logData pos _ hcs hsize hfile hheader hdata
      (rs.length + 1) (by simp)
    refine ⟨rs.length + 1, tablesOf fds lastLsn rs, ?_, tablesOf_right h⟩
    rw [analyzeFile, hrun, takenFrom_placed hlen]
    rfl

end Run

/-- A transaction that has only begun. -/
def begunRecord (k : Nat) : DiskRecord :=
  ⟨{ (beginLogRecord k).header with lsn := k }, (beginLogRecord k).payload⟩

def begunLog (n : Nat) : List DiskRecord := (List.range n).map begunRecord

section Begun

variable {fds : Bytes → Option Fd} {n : Nat} {r : DiskRecord}

theorem mem_begunLog (h : r ∈ begunLog n) : ∃ k < n, r = begunRecord k := by
  obtain ⟨k, hk, rfl⟩ := List.mem_map.mp h
  exact ⟨k, List.mem_range.mp hk, rfl⟩

theorem length_begunRecord (k : Nat) : (begunRecord k).image.length = 20 := rfl

theorem length_begunLog (n : Nat) : ((begunLog n).flatMap DiskRecord.bytes).length = n * 20 := by
  have hlen : ∀ r ∈ begunLog n, r.bytes.length = 20 := by
    intro r hr
    obtain ⟨k, -, rfl⟩ := mem_begunLog hr
    rw [DiskRecord.bytes_eq rfl, length_begunRecord]
  rw [List.length_flatMap, List.map_congr_left hlen, List.map_const', List.sum_replicate, begunLog,
    List.length_map, List.length_range, smul_eq_mul]

theorem txnRecords_begunLog (t : Int) (n : Nat) : TxnRecords (ofTid t (begunLog n)) := by
  have hnone : ∀ n : Nat, (n : Int) ≤ t → ofTid t (begunLog n) = [] := by
    intro n hn
    refine List.filter_eq_nil_iff.mpr fun r hr => ?_
    obtain ⟨k, hk, rfl⟩ := mem_begunLog hr
    have hne : (k : Int) ≠ t := by omega
    simp [begunRecord, beginLogRecord, hne]
  induction n with
  | zero => exact .none
  | succ n ih =>
    rw [begunLog, List.range_succ, List.map_append, List.map_singleton, ofTid_concat]
    split
    next h =>
      rw [show ofTid t ((List.range n).map begunRecord) = [] from hnone n h.2.le, List.nil_append]
      exact .running rfl (by simp)
    next =>
      rw [List.append_nil]
      exact ih

theorem wellFormedLog_begunLog (hn : n ≤ 2 ^ 31) : WellFormedLog fds (begunLog n) where
  built r hr := by
    obtain ⟨k, hk, rfl⟩ := mem_begunLog hr
    have hrange : IsInt32 k := by
      constructor <;> omega
    refine ⟨.setLsn (.begin hrange) hrange, ?_⟩
    rw [length_begunRecord, LOG_BUFFER_SIZE, PAGE_SIZE]
    norm_num
  increasing := by
    rw [begunLog, List.pairwise_map]
    exact List.pairwise_lt_range.imp fun hlt => Int.ofNat_lt.mpr hlt
  tables r hr := by
    obtain ⟨k, -, rfl⟩ := mem_begunLog hr
    intro target htarget
    cases htarget
  txns t := txnRecords_begunLog t n

/-- A log of 2.5 GiB: `get_file_size` answers a negative number. -/
theorem not_analyzesTables_begunLog :
    WellFormedLog (fun _ => none) (begunLog (2 ^ 27)) ∧
      ¬ AnalyzesTables (fun _ => none) (begunLog (2 ^ 27)) := by
  have h : WellFormedLog (fun _ => none) (begunLog (2 ^ 27)) :=
    wellFormedLog_begunLog (by norm_num)
  refine ⟨h, not_analyzesTables_long h ?_⟩
  rw [length_begunLog]
  norm_num

end Begun

def DiskRecord.atLsn (r : DiskRecord) (lsn : Lsn) : DiskRecord :=
  { r with header := { r.header with lsn := lsn } }

/-- A committed, an aborted and a running transaction, and a checkpoint in front of the last. -/
def mixedLog : List DiskRecord :=
  [(beginLogRecord 1).atLsn 0, (insertLogRecord 1 0 [1, 2] ⟨⟨1, 0⟩, [116], 1, 2⟩).atLsn 1,
    (beginLogRecord 2).atLsn 2, (deleteLogRecord 2 2 [3, 4] ⟨⟨1, 1⟩, [116], 1, 2⟩).atLsn 3,
    (commitLogRecord 1).atLsn 4, (abortLogRecord 2).atLsn 5, ckpLogRecord.atLsn 6,
    (beginLogRecord 3).atLsn 7, (updateLogRecord 3 7 [1, 2] [5, 6] ⟨⟨1, 0⟩, [116], 1, 2⟩).atLsn 8]

theorem txnRecords_mixedLog (t : Int) : TxnRecords (ofTid t mixedLog) := by
  by_cases h₁ : t = 1
  · subst h₁
    have heq : ofTid 1 mixedLog = (beginLogRecord 1).atLsn 0 ::
        ([(insertLogRecord 1 0 [1, 2] ⟨⟨1, 0⟩, [116], 1, 2⟩).atLsn 1] ++
          [(commitLogRecord 1).atLsn 4]) := rfl
    rw [heq]
    exact .ended rfl (by decide) rfl
  by_cases h₂ : t = 2
  · subst h₂
    have heq : ofTid 2 mixedLog = (beginLogRecord 2).atLsn 2 ::
        ([(deleteLogRecord 2 2 [3, 4] ⟨⟨1, 1⟩, [116], 1, 2⟩).atLsn 3] ++
          [(abortLogRecord 2).atLsn 5]) := rfl
    rw [heq]
    exact .ended rfl (by decide) rfl
  by_cases h₃ : t = 3
  · subst h₃
    have heq : ofTid 3 mixedLog = [(beginLogRecord 3).atLsn 7,
        (updateLogRecord 3 7 [1, 2] [5, 6] ⟨⟨1, 0⟩, [116], 1, 2⟩).atLsn 8] := rfl
    rw [heq]
    exact .running rfl (by decide)
  have hall : ∀ r ∈ mixedLog, r.header.logType = .checkpoint ∨ r.header.logTid = 1 ∨
      r.header.logTid = 2 ∨ r.header.logTid = 3 := by decide
  have hnone : ofTid t mixedLog = [] := by
    refine List.filter_eq_nil_iff.mpr fun r hr hboth => ?_
    obtain ⟨htype, htid⟩ := of_decide_eq_true hboth
    rcases hall r hr with h | h | h | h
    · exact htype h
    · exact h₁ (htid.symm.trans h)
    · exact h₂ (htid.symm.trans h)
    · exact h₃ (htid.symm.trans h)
  rw [hnone]
  exact .none

theorem wellFormedLog_mixedLog :
    WellFormedLog (fun name => if name = [116] then some 5 else none) mixedLog where
  built := by
    have hrange : ∀ {rid : Rid}, IsInt32 rid.pageNo → IsInt32 rid.slotNo →
        LogTarget.InRange ⟨rid, [116], 1, 2⟩ := fun hp hs =>
      ⟨hp, hs, show IsInt32 1 by decide, show IsInt32 2 by decide⟩
    have hbuilt : ∀ r ∈ mixedLog, r.Built := by
      simp only [mixedLog, List.forall_mem_cons, List.not_mem_nil, IsEmpty.forall_iff, implies_true,
        and_true]
      refine ⟨.setLsn (.begin ?_) ?_, .setLsn (.insert ?_ ?_ (hrange ?_ ?_)) ?_,
        .setLsn (.begin ?_) ?_, .setLsn (.delete ?_ ?_ (hrange ?_ ?_)) ?_, .setLsn (.commit ?_) ?_,
        .setLsn (.abort ?_) ?_, .setLsn .checkpoint ?_, .setLsn (.begin ?_) ?_,
        .setLsn (.update ?_ ?_ (hrange ?_ ?_)) ?_⟩ <;> decide
    have hfits : ∀ r ∈ mixedLog, r.image.length ≤ LOG_BUFFER_SIZE := by decide +kernel
    exact fun r hr => ⟨hbuilt r hr, hfits r hr⟩
  increasing := by decide
  tables := by decide +kernel
  txns := txnRecords_mixedLog

theorem analyzesTables_mixedLog :
    AnalyzesTables (fun name => if name = [116] then some 5 else none) mixedLog :=
  (analyzesTables_iff wellFormedLog_mixedLog).mpr (by decide +kernel)

end Grmdb
