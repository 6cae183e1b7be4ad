import Grmdb.RecoverTwice
import Grmdb.RedoHistory

namespace Grmdb

open AssocMap

/-- The tests of `redo` before a record is applied. -/
def redoApplies (dpt : List (PageKey × Lsn)) (lsn : Lsn) (r : LogRecord) (db : Db) : Bool :=
  r.body.place.any fun place =>
    (lookup place.pageKey dpt).isSome && (db.page place.pageKey).any fun page => page.lsn < lsn

/-- `redoLoop` with the records that it applies. -/
def redoTraceLoop (log : List LogRecord) (dpt : List (PageKey × Lsn)) :
    Nat → Lsn → Db → Option (List LogRecord × Db)
  | 0, _, db => some ([], db)
  | n + 1, lsn, db => do
    let r ← recordAt log lsn
    let db' ← redoRecord dpt lsn r db
    let (rs, last) ← redoTraceLoop log dpt n (lsn + 1) db'
    return (if redoApplies dpt lsn r db then r :: rs else rs, last)

def redoTrace (a : Analysis) (log : List LogRecord) (db : Db) : Option (List LogRecord × Db) :=
  match firstLsn a.dpt with
  | none => some ([], db)
  | some lsn => redoTraceLoop log a.dpt (a.lastLsn + 1 - lsn).toNat lsn db

/-- A data record of a page of the dirty page table, no older than the oldest entry and newer than
the page. -/
def redoDue (dpt : List (PageKey × Lsn)) (db : Db) (r : LogRecord) : Bool :=
  redoApplies dpt r.lsn r db && dpt.any fun e => e.2 ≤ r.lsn

/-- Every page that the log names is on disk. -/
def PagesThere (log : List LogRecord) (db : Db) : Prop :=
  ∀ r ∈ log, ∀ place ∈ r.body.place, (db.page place.pageKey).isSome = true

section Trace

variable {log : List LogRecord} {dpt : List (PageKey × Lsn)} {lsn : Lsn} {r : LogRecord}
  {db db' : Db} {n : Nat}

theorem redoTraceLoop_db : (redoTraceLoop log dpt n lsn db).map Prod.snd =
    redoLoop log dpt n lsn db := by
  induction n generalizing lsn db with
  | zero => rfl
  | succ n ih =>
    simp only [redoTraceLoop, redoLoop, Option.bind_eq_bind]
    cases recordAt log lsn with
    | none => rfl
    | some r =>
      simp only [Option.bind_some]
      cases redoRecord dpt lsn r db with
      | none => rfl
      | some mid =>
        rw [Option.bind_some, Option.bind_some, ← ih]
        cases redoTraceLoop log dpt n (lsn + 1) mid <;> rfl

/-- The trace is that of `redo`. -/
theorem redoTrace_db (a : Analysis) (log : List LogRecord) (db : Db) :
    (redoTrace a log db).map Prod.snd = redo a log db := by
  unfold redoTrace redo
  cases firstLsn a.dpt with
  | none => rfl
  | some first => exact redoTraceLoop_db

/-- A record in the trace has been applied to the file of its table. -/
theorem redoRecord_of_applies (happlies : redoApplies dpt lsn r db = true) :
    ∃ place f, r.body.place = some place ∧ db place.tableName = some f ∧
      redoRecord dpt lsn r db =
        (f.redo r).map fun f' => Function.update db place.tableName (some f') := by
  obtain ⟨place, hplace, htest⟩ := (Option.any_eq_true _ _).mp happlies
  obtain ⟨hdpt, hold⟩ := (Bool.and_eq_true _ _).mp htest
  obtain ⟨page, hpage, hlt⟩ := (Option.any_eq_true _ _).mp hold
  obtain ⟨f, hf, hp⟩ := Option.bind_eq_some_iff.mp hpage
  have hf : db place.tableName = some f := hf
  refine ⟨place, f, hplace, hf, ?_⟩
  have hin : lookup place.pageKey dpt ≠ none := by
    intro hnone
    rw [hnone] at hdpt
    cases hdpt
  have hnew : ¬ lsn ≤ page.lsn := not_le.mpr (of_decide_eq_true hlt)
  have hp : f.pages place.rid.pageNo = some page := hp
  simp only [redoRecord, hplace, hf, Option.bind_some, if_neg hin, hp, if_neg hnew]

/-- A record that is not in the trace has changed nothing. -/
theorem redoRecord_of_not_applies (happlies : redoApplies dpt lsn r db = false)
    (h : redoRecord dpt lsn r db = some db') : db' = db := by
  unfold redoRecord at h
  split at h
  next => exact (Option.some.inj h).symm
  next place hplace =>
    obtain ⟨f, hf, h⟩ := Option.bind_eq_some_iff.mp h
    split at h
    next => exact (Option.some.inj h).symm
    next hdpt =>
      obtain ⟨page, hpage, h⟩ := Option.bind_eq_some_iff.mp h
      split at h
      next => exact (Option.some.inj h).symm
      next hlsn =>
        exfalso
        have hkey : db.page place.pageKey = some page := by
          simp [Db.page, LogPlace.pageKey, hf, hpage]
        have hsome := Option.isSome_iff_ne_none.mpr hdpt
        simp [redoApplies, hplace, hsome, hkey, not_le.mp hlsn] at happlies

/-- A round leaves the tests of a later record as they are. -/
theorem redoApplies_round {q : LogRecord} (h : redoRecord dpt r.lsn r db = some db')
    (hlt : r.lsn < q.lsn) : redoApplies dpt q.lsn q db' = redoApplies dpt q.lsn q db := by
  rcases redoRecord_cases h with ⟨rfl, -⟩ | ⟨place, page, next, hplace, hpage, hold, hpages⟩
  · rfl
  · cases hq : q.body.place with
    | none => simp [redoApplies, hq]
    | some at_ =>
      simp only [redoApplies, hq, Option.any_some]
      by_cases hkey : at_.pageKey = place.pageKey
      · have hstamp := RmFile.redoPage_lsn hplace r.lsn page
        rw [hpages, if_pos hkey, hkey, hpage]
        simp [hstamp, hlt, hold.trans hlt]
      · rw [hpages, if_neg hkey]

/-- What the rounds from `i` on apply, by the pages as they find them. -/
theorem redoTraceLoop_eq {rs : List LogRecord} {last : Db} {i : Nat} (hn : Numbered log)
    (hlen : i + n = log.length) (h : redoTraceLoop log dpt n i db = some (rs, last)) :
    rs = (log.drop i).filter fun r => redoApplies dpt r.lsn r db := by
  induction n generalizing i db rs with
  | zero =>
    cases h
    rw [List.drop_of_length_le (by omega), List.filter_nil]
  | succ n ih =>
    have hlt : i < log.length := by omega
    have hget : log[i]? = some log[i] := List.getElem?_eq_getElem hlt
    have hlsn : log[i].lsn = i := hn i _ hget
    simp only [redoTraceLoop, Hist.recordAt_numbered hn hget, Option.bind_eq_bind, Option.bind_some,
      Option.bind_eq_some_iff, Prod.exists] at h
    obtain ⟨mid, hround, rest, last', hrest, heq⟩ := h
    cases heq
    have hrun : redoTraceLoop log dpt n ((i + 1 : Nat) : Lsn) mid = some (rest, last) := hrest
    have hrest := ih (by omega) hrun
    rw [← hlsn] at hround
    have hsame : ∀ q ∈ log.drop (i + 1),
        redoApplies dpt q.lsn q mid = redoApplies dpt q.lsn q db := by
      intro q hq
      obtain ⟨j, hj, rfl⟩ := List.mem_iff_getElem.mp hq
      refine redoApplies_round hround ?_
      have hj : i + 1 + j < log.length := by
        rw [List.length_drop] at hj
        omega
      rw [List.getElem_drop, hlsn, hn _ _ (List.getElem?_eq_getElem hj)]
      lia
    rw [hrest, List.filter_congr hsame, ← List.cons_getElem_drop_succ (h := hlt), List.filter_cons,
      ← hlsn]

theorem RmFile.redo_isSome {f : RmFile} {page : RmPage} {place : LogPlace}
    (hplace : r.body.place = some place) (hp : f.pages place.rid.pageNo = some page) :
    (f.redo r).isSome = true := by
  unfold RmFile.redo
  cases hb : r.body <;> rw [hb] at hplace <;> cases hplace <;>
    simp [insertRedo, deleteRedo, updateRedo, setHeader, hp]

theorem redoRecord_isSome (h : ∀ place ∈ r.body.place, (db.page place.pageKey).isSome = true) :
    (redoRecord dpt lsn r db).isSome = true := by
  unfold redoRecord
  cases hplace : r.body.place with
  | none => rfl
  | some place =>
    obtain ⟨page, hpage⟩ := Option.isSome_iff_exists.mp (h place hplace)
    obtain ⟨f, hf, hp⟩ := Option.bind_eq_some_iff.mp hpage
    have hf : db place.tableName = some f := hf
    have hp : f.pages place.rid.pageNo = some page := hp
    simp only [hf, hp, Option.bind_some]
    split
    · rfl
    · split
      · rfl
      · simpa using RmFile.redo_isSome hplace hp

/-- With every page there the loop comes to its end. -/
theorem redoTraceLoop_isSome {i : Nat} (hn : Numbered log) (hlen : i + n = log.length)
    (hpages : PagesThere log db) : (redoTraceLoop log dpt n i db).isSome = true := by
  induction n generalizing i db with
  | zero => rfl
  | succ n ih =>
    have hlt : i < log.length := by omega
    have hget : log[i]? = some log[i] := List.getElem?_eq_getElem hlt
    have hlsn : log[i].lsn = i := hn i _ hget
    obtain ⟨mid, hround⟩ := Option.isSome_iff_exists.mp
      (@redoRecord_isSome dpt i log[i] db (hpages _ (List.getElem_mem hlt)))
    have hmid : PagesThere log mid := by
      intro r hr place hplace
      obtain ⟨page, hpage⟩ := Option.isSome_iff_exists.mp (hpages r hr place hplace)
      obtain ⟨page', hpage', -⟩ := (redoRecord_grows hround hlsn).pages _ page hpage
      rw [hpage']
      rfl
    obtain ⟨x, hx⟩ := Option.isSome_iff_exists.mp
      (@ih mid (i + 1) (by omega) hmid)
    have hx : redoTraceLoop log dpt n ((i : Lsn) + 1) mid = some x := hx
    simp only [redoTraceLoop, Hist.recordAt_numbered hn hget, Option.bind_eq_bind, Option.bind_some,
      hround, hx]
    rfl

end Trace

section Whole

variable {log : List LogRecord} {db : Db}

theorem Numbered.exists_index {r : LogRecord} (hn : Numbered log) (hr : r ∈ log) :
    ∃ i < log.length, r.lsn = (i : Int) := by
  obtain ⟨i, hi, rfl⟩ := List.mem_iff_getElem.mp hr
  exact ⟨i, hi, hn i _ (List.getElem?_eq_getElem hi)⟩

theorem Numbered.lastLsn (hn : Numbered log) (hne : log ≠ []) :
    (analyze log).lastLsn + 1 = log.length := by
  obtain ⟨pre, r, rfl⟩ := (List.eq_nil_or_concat' log).resolve_left hne
  rw [analyze_concat, analyzeRecord_lastLsn, hn pre.length r (by simp)]
  simp

/-- Where `redo` begins and how many rounds it makes. -/
theorem Numbered.redoStart (hn : Numbered log) {first : Lsn}
    (hfirst : firstLsn (analyze log).dpt = some first) :
    ∃ i n : Nat, first = i ∧ i + n = log.length ∧
      ((analyze log).lastLsn + 1 - first).toNat = n := by
  obtain ⟨e, he, rfl⟩ := exists_firstLsn hfirst
  obtain ⟨r, hr, hlsn⟩ := exists_of_mem_dpt he
  obtain ⟨i, hi, hri⟩ := hn.exists_index hr
  have hlast := hn.lastLsn (List.ne_nil_of_mem hr)
  refine ⟨i, log.length - i, ?_, by omega, ?_⟩
  · rw [← hlsn, hri]
  · rw [hlast, ← hlsn, hri]
    omega

/-- The records from the oldest entry on. -/
theorem Numbered.filter_due (hn : Numbered log) {dpt : List (PageKey × Lsn)} {i : Nat}
    (hfirst : firstLsn dpt = some (i : Int)) : log.filter (redoDue dpt db) =
      (log.drop i).filter fun r => redoApplies dpt r.lsn r db := by
  have hage : ∀ r : LogRecord, (dpt.any fun e => e.2 ≤ r.lsn) = decide ((i : Int) ≤ r.lsn) := by
    intro r
    rw [Bool.eq_iff_iff, List.any_eq_true, decide_eq_true_iff]
    constructor
    · rintro ⟨⟨key, l⟩, he, hle⟩
      exact (firstLsn_le hfirst he).trans (of_decide_eq_true hle)
    · intro hle
      obtain ⟨e, he, heq⟩ := exists_firstLsn hfirst
      exact ⟨e, he, by rw [← heq]; exact decide_eq_true hle⟩
  have hindex : ∀ (j : Nat) (hj : j < log.length), log[j].lsn = (j : Int) := by
    intro j hj
    exact hn j _ (List.getElem?_eq_getElem hj)
  have htake : (log.take i).filter (redoDue dpt db) = [] := by
    refine List.filter_eq_nil_iff.mpr fun r hr => ?_
    obtain ⟨j, hj, rfl⟩ := List.mem_iff_getElem.mp hr
    rw [List.length_take] at hj
    have hnot : ¬ (i : Int) ≤ log[j].lsn := by
      rw [hindex]
      omega
    simp [redoDue, hage, hnot]
  have hdrop : (log.drop i).filter (redoDue dpt db) =
      (log.drop i).filter fun r => redoApplies dpt r.lsn r db := by
    refine List.filter_congr fun r hr => ?_
    obtain ⟨j, hj, rfl⟩ := List.mem_iff_getElem.mp hr
    rw [List.length_drop] at hj
    have hle : (i : Int) ≤ log[i + j].lsn := by
      rw [hindex]
      omega
    simp [redoDue, hage, hle]
  rw [← List.take_append_drop i log, List.filter_append, htake, List.nil_append, hdrop,
    List.take_append_drop]

/-- One pass of `redo` applies the records that are due, in the order of the log. -/
theorem redoTrace_due (hn : Numbered log) {rs : List LogRecord} {db' : Db}
    (h : redoTrace (analyze log) log db = some (rs, db')) :
    rs = log.filter (redoDue (analyze log).dpt db) := by
  unfold redoTrace at h
  cases hfirst : firstLsn (analyze log).dpt with
  | none =>
    rw [hfirst] at h
    cases h
    have hdpt : (analyze log).dpt = [] := by
      cases hd : (analyze log).dpt with
      | nil => rfl
      | cons e dpt => simp [hd, firstLsn] at hfirst
    symm
    refine List.filter_eq_nil_iff.mpr fun r _ => ?_
    simp [redoDue, hdpt]
  | some first =>
    rw [hfirst] at h
    obtain ⟨i, n, rfl, hlen, hrounds⟩ := hn.redoStart hfirst
    dsimp only at h
    rw [hrounds] at h
    rw [hn.filter_due hfirst, redoTraceLoop_eq hn hlen h]

theorem CaughtUp.not_applies {dpt : List (PageKey × Lsn)} {lsn : Lsn} {r : LogRecord}
    (h : CaughtUp dpt lsn r db) : redoApplies dpt lsn r db = false := by
  cases hplace : r.body.place with
  | none => simp [redoApplies, hplace]
  | some place =>
    cases hdpt : lookup place.pageKey dpt with
    | none => simp [redoApplies, hplace, hdpt]
    | some l =>
      obtain ⟨page, hpage, hle⟩ := h place hplace (by simp [hdpt])
      simp [redoApplies, hplace, hpage, hle]

/-- The loop over pages that have every change already. -/
theorem redoTraceLoop_of_caughtUp {dpt : List (PageKey × Lsn)} {lsn : Lsn} {n : Nat}
    (hopen : tablesOpen log db)
    (h : ∀ l, lsn ≤ l → l < lsn + n → ∃ r, recordAt log l = some r ∧ CaughtUp dpt l r db) :
    redoTraceLoop log dpt n lsn db = some ([], db) := by
  induction n generalizing lsn with
  | zero => rfl
  | succ n ih =>
    obtain ⟨r, hr, hcaught⟩ := h lsn le_rfl (by lia)
    have hround := redoRecord_of_caughtUp hcaught (hopen r (mem_of_recordAt hr))
    have hrest : redoTraceLoop log dpt n (lsn + 1) db = some ([], db) :=
      ih fun l hl hlt => h l (by lia) (by push_cast; lia)
    simp only [redoTraceLoop, hr, Option.bind_eq_bind, Option.bind_some, hround, hrest,
      hcaught.not_applies]
    rfl

/-- A second pass changes nothing. -/
theorem redoTrace_again (hn : Numbered log) (hopen : tablesOpen log db) {rs : List LogRecord}
    {db' : Db} (h : redoTrace (analyze log) log db = some (rs, db')) :
    redoTrace (analyze log) log db' = some ([], db') := by
  unfold redoTrace at h ⊢
  cases hfirst : firstLsn (analyze log).dpt with
  | none => rfl
  | some first =>
    rw [hfirst] at h
    obtain ⟨i, n, rfl, hlen, hrounds⟩ := hn.redoStart hfirst
    dsimp only at h ⊢
    rw [hrounds] at h ⊢
    have hloop : redoLoop log (analyze log).dpt n i db = some db' := by
      rw [← redoTraceLoop_db, h]
      rfl
    have hrecords : ∀ l : Lsn, i ≤ l → l < i + n → ∃ r, recordAt log l = some r ∧ r.lsn = l := by
      intro l hl hlt
      lift l to Nat using by lia
      have hbound : l < log.length := by lia
      have hget : log[l]? = some log[l] := List.getElem?_eq_getElem hbound
      exact ⟨_, Hist.recordAt_numbered hn hget, hn l _ hget⟩
    obtain ⟨hgrow, hcaught⟩ := redoLoop_caughtUp hloop hrecords
    refine redoTraceLoop_of_caughtUp ?_ fun l hl hlt => ?_
    · exact fun r hr place hplace => hgrow.tables _ (hopen r hr place hplace)
    · obtain ⟨r, hr, -⟩ := hrecords l hl hlt
      exact ⟨r, hr, hcaught l hl hlt r hr⟩

/-- `redo` runs through where the pages are there, and wherever it has run through, it has applied
each record that was due once and a second pass applies none. -/
theorem redo_twice (hn : Numbered log) (hopen : tablesOpen log db) :
    (PagesThere log db → (redoTrace (analyze log) log db).isSome = true) ∧
    ∀ rs db', redoTrace (analyze log) log db = some (rs, db') →
      rs = log.filter (redoDue (analyze log).dpt db) ∧
      redoTrace (analyze log) log db' = some ([], db') := by
  refine ⟨fun hpages => ?_, fun rs db' h => ⟨redoTrace_due hn h, redoTrace_again hn hopen h⟩⟩
  unfold redoTrace
  cases hfirst : firstLsn (analyze log).dpt with
  | none => rfl
  | some first =>
    obtain ⟨i, n, rfl, hlen, hrounds⟩ := hn.redoStart hfirst
    dsimp only
    rw [hrounds]
    exact redoTraceLoop_isSome hn hlen hpages

end Whole

/-- One row inserted and changed, whose page is on disk with the insertion. -/
def changedRow : List LogRecord :=
  [⟨0, some 1, -1, .begin⟩, ⟨1, some 1, 0, .insert [7] ⟨⟨1, 0⟩, "t", 1, 2⟩⟩,
    ⟨2, some 1, 1, .update [7] [8] ⟨⟨1, 0⟩, "t", 1, 2⟩⟩, ⟨3, some 1, 2, .commit⟩]

def changedRowDisk : Db := tabDb "t"
  { RmFile.create 1 with
    pages := fun p => if p = 1 then
      some ⟨1, -1, 1, fun i => i == 0, fun i => if i = 0 then [7] else [0]⟩ else none }

theorem redo_twice_changedRow : ∃ db',
    redoTrace (analyze changedRow) changedRow changedRowDisk =
      some ([⟨2, some 1, 1, .update [7] [8] ⟨⟨1, 0⟩, "t", 1, 2⟩⟩], db') ∧
    redoTrace (analyze changedRow) changedRow db' = some ([], db') := by
  have hn : Numbered changedRow := by
    intro i r hr
    obtain ⟨hi, rfl⟩ := List.getElem?_eq_some_iff.mp hr
    change i < 4 at hi
    interval_cases i <;> rfl
  have htwice := redo_twice hn (show tablesOpen changedRow changedRowDisk from by decide)
  obtain ⟨⟨rs, db'⟩, hrun⟩ := Option.isSome_iff_exists.mp (htwice.1 (by
    unfold PagesThere
    decide))
  obtain ⟨hrs, hagain⟩ := htwice.2 rs db' hrun
  have hdue : changedRow.filter (redoDue (analyze changedRow).dpt changedRowDisk) =
      [⟨2, some 1, 1, .update [7] [8] ⟨⟨1, 0⟩, "t", 1, 2⟩⟩] := by
    decide
  exact ⟨db', by rw [hrun, hrs, hdue], hagain⟩

end Grmdb
