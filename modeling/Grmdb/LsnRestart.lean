import Grmdb.Analyze
import Grmdb.UndoChain

namespace Grmdb

open Runs

inductive ServerPhase where
  | down
  | recovering
  | serving
  deriving DecidableEq, Repr

/-- A database directory and the process that has it open, as far as LSNs go: the log, and the
LSN in the header of every table page, in the buffer pool and on disk. -/
structure LsnState where
  phase : ServerPhase
  log : LogManager
  pool : PageKey → Option Lsn
  disk : PageKey → Option Lsn

/-- `stamp` is `set_page_lsn(get_lsn())` of an operation with a context, `writePage` any write of
a buffered page to disk. -/
inductive LsnEv where
  | openDb (persist : Lsn)
  | redo (r : LogRecord)
  | serve
  | append (tid : Option TxnId) (prevLsn : Lsn) (body : LogBody)
  | flushLog
  | fetchPage (p : PageKey)
  | newPage (p : PageKey)
  | stamp (p : PageKey)
  | writePage (p : PageKey)
  | freeFrame (p : PageKey)
  | dropTable (fd : TabName)
  | crash

namespace LsnState

/-- The directory that `create_db` makes. -/
def created : LsnState := ⟨.down, LogManager.fresh 0, fun _ => none, fun _ => none⟩

def setPool (s : LsnState) (p : PageKey) (lsn : Option Lsn) : LsnState :=
  { s with pool := Function.update s.pool p lsn }

def setDisk (s : LsnState) (p : PageKey) (lsn : Option Lsn) : LsnState :=
  { s with disk := Function.update s.disk p lsn }

/-- The constructor of the log manager starts `global_lsn_` at 0, and recovery leaves it there. -/
def step (s : LsnState) : LsnEv → Option LsnState
  | .openDb persist =>
    if s.phase = .down then
      some { s with
        phase := .recovering
        log := { LogManager.fresh persist with file := s.log.file } }
    else none
  | .redo r =>
    match s.phase, r.body.place with
    | .recovering, some place =>
      match s.pool place.pageKey with
      | some lsn =>
        if r ∈ s.log.file ∧ lsn < r.lsn then some (s.setPool place.pageKey (some r.lsn)) else none
      | none => none
    | _, _ => none
  | .serve => if s.phase = .recovering then some { s with phase := .serving } else none
  | .append tid prevLsn body =>
    if s.phase = .serving then some { s with log := s.log.addLogToBuffer tid prevLsn body }
    else none
  | .flushLog =>
    if s.phase = .serving then some { s with log := s.log.flushLogToDisk } else none
  | .fetchPage p =>
    if s.phase ≠ .down ∧ s.pool p = none then some (s.setPool p (s.disk p)) else none
  | .newPage p =>
    if s.phase = .serving ∧ s.disk p = none then
      some ((s.setPool p (some 0)).setDisk p (some 0))
    else none
  | .stamp p =>
    match s.phase, s.pool p with
    | .serving, some _ => some (s.setPool p (some s.log.globalLsn))
    | _, _ => none
  | .writePage p =>
    match s.phase, s.pool p with
    | .down, _ | _, none => none
    | _, some lsn => some (s.setDisk p (some lsn))
  | .freeFrame p =>
    if s.phase ≠ .down ∧ s.pool p = s.disk p then some (s.setPool p none) else none
  | .dropTable fd =>
    if s.phase = .serving then
      some { s with
        pool := fun p => if p.1 = fd then none else s.pool p
        disk := fun p => if p.1 = fd then none else s.disk p }
    else none
  | .crash =>
    if s.phase ≠ .down then
      some { s with phase := .down, log := { s.log with buffer := [] }, pool := fun _ => none }
    else none

/-- LSNs increase along the log file, `log_offsets_` finds each record under its own LSN, and
the LSN of a new record is above those in the file and on the pages on disk. -/
structure LsnsIdentify (s : LsnState) : Prop where
  increasing : s.log.file.Pairwise fun r r' => r.lsn < r'.lsn
  found : ∀ r ∈ s.log.file, recordOf s.log.file r.lsn = some r
  aboveFile : s.phase = .serving → ∀ r ∈ s.log.file, r.lsn < s.log.globalLsn
  abovePages : s.phase = .serving → ∀ p lsn, s.disk p = some lsn → lsn < s.log.globalLsn

/-- A process serves only on a directory without log records and table pages, and writes no page
whose LSN no record has got yet. -/
def StartsClean (s : LsnState) : LsnEv → Prop
  | .serve => s.log.file = [] ∧ ∀ p, s.disk p = none
  | .newPage _ => 0 < s.log.globalLsn
  | .writePage p => s.phase = .serving → ∀ lsn, s.pool p = some lsn → lsn < s.log.globalLsn
  | _ => True

/-- LSNs are counted from 0. -/
structure Counted (s : LsnState) : Prop where
  next : 0 ≤ s.log.globalLsn
  records : ∀ r ∈ s.log.records, 0 ≤ r.lsn
  pool : ∀ p lsn, s.pool p = some lsn → 0 ≤ lsn
  disk : ∀ p lsn, s.disk p = some lsn → 0 ≤ lsn

structure Inv (s : LsnState) : Prop where
  counted : s.Counted
  increasing : s.log.records.Pairwise fun r r' => r.lsn < r'.lsn
  above : s.phase = .serving → ∀ r ∈ s.log.records, r.lsn < s.log.globalLsn
  abovePages : s.phase = .serving → ∀ p lsn, s.disk p = some lsn → lsn < s.log.globalLsn
  noBuffer : s.phase ≠ .serving → s.log.buffer = []
  restarted : s.phase = .recovering → s.log.globalLsn = 0

end LsnState

theorem recordOf_of_increasing {log : List LogRecord}
    (h : log.Pairwise fun r r' => r.lsn < r'.lsn) {r : LogRecord} (hr : r ∈ log) :
    recordOf log r.lsn = some r := by
  obtain ⟨pre, post, rfl⟩ := List.append_of_mem hr
  have hpre : pre.find? (fun q => q.lsn = r.lsn) = none := by
    rw [List.find?_eq_none]
    intro q hq heq
    have hlt := (List.pairwise_append.mp h).2.2 q hq r List.mem_cons_self
    rw [decide_eq_true_eq] at heq
    lia
  rw [recordOf, List.find?_append, hpre]
  simp

namespace LsnState

theorem Inv.identify {s : LsnState} (hi : s.Inv) : s.LsnsIdentify := by
  have hinc : s.log.file.Pairwise fun r r' => r.lsn < r'.lsn :=
    (List.pairwise_append.mp hi.increasing).1
  refine ⟨hinc, fun r hr => recordOf_of_increasing hinc hr, ?_, hi.abovePages⟩
  intro hs r hr
  exact hi.above hs r (List.mem_append_left _ hr)

theorem inv_created : created.Inv := by
  refine ⟨⟨le_rfl, ?_, ?_, ?_⟩, ?_, ?_, ?_, ?_, ?_⟩
  all_goals simp [created, LogManager.fresh, LogManager.records]

/-- Where only the pages in the buffer pool change. -/
theorem Inv.pool {s : LsnState} (hi : s.Inv) (pool : PageKey → Option Lsn)
    (h : ∀ p lsn, pool p = some lsn → 0 ≤ lsn) : Inv { s with pool := pool } :=
  ⟨⟨hi.counted.next, hi.counted.records, h, hi.counted.disk⟩, hi.increasing, hi.above,
    hi.abovePages, hi.noBuffer, hi.restarted⟩

theorem Inv.setPool {s : LsnState} (hi : s.Inv) (p : PageKey) {lsn : Lsn} (h : 0 ≤ lsn) :
    (s.setPool p (some lsn)).Inv := by
  refine hi.pool _ ?_
  intro q l hq
  by_cases he : q = p
  · have : lsn = l := by simpa [he] using hq
    lia
  · exact hi.counted.pool q l (by simpa [he] using hq)

/-- Where one page on disk changes too. -/
theorem Inv.setDisk {s : LsnState} (hi : s.Inv) (p : PageKey) {lsn : Lsn} (h : 0 ≤ lsn)
    (hb : s.phase = .serving → lsn < s.log.globalLsn) : (s.setDisk p (some lsn)).Inv := by
  refine ⟨⟨hi.counted.next, hi.counted.records, hi.counted.pool, ?_⟩, hi.increasing, hi.above,
    ?_, hi.noBuffer, hi.restarted⟩
  · intro q l hq
    by_cases he : q = p
    · have : lsn = l := by simpa [LsnState.setDisk, he] using hq
      lia
    · exact hi.counted.disk q l (by simpa [LsnState.setDisk, he] using hq)
  · intro hs q l hq
    by_cases he : q = p
    · have : lsn = l := by simpa [LsnState.setDisk, he] using hq
      exact this ▸ hb hs
    · exact hi.abovePages hs q l (by simpa [LsnState.setDisk, he] using hq)

/-- `add_log_to_buffer` gives the record the next number, above all those in use. -/
theorem Inv.append {s : LsnState} (hi : s.Inv) (hp : s.phase = .serving) (tid : Option TxnId)
    (prevLsn : Lsn) (body : LogBody) :
    Inv { s with log := s.log.addLogToBuffer tid prevLsn body } := by
  have habove := hi.above hp
  have hnext := hi.counted.next
  refine ⟨⟨?_, ?_, hi.counted.pool, hi.counted.disk⟩, ?_, ?_, ?_, ?_, ?_⟩
  · simp only [LogManager.add_globalLsn]
    lia
  · intro r hr
    rw [LogManager.add_records] at hr
    rcases List.mem_append.mp hr with hr | hr
    · exact hi.counted.records r hr
    · rw [List.mem_singleton] at hr
      subst hr
      exact hnext
  · rw [LogManager.add_records, List.pairwise_append]
    refine ⟨hi.increasing, List.pairwise_singleton _ _, ?_⟩
    intro r hr q hq
    rw [List.mem_singleton] at hq
    subst hq
    exact habove r hr
  · intro _ r hr
    rw [LogManager.add_records] at hr
    simp only [LogManager.add_globalLsn]
    rcases List.mem_append.mp hr with hr | hr
    · have := habove r hr
      lia
    · rw [List.mem_singleton] at hr
      subst hr
      exact lt_add_one _
  · intro _ p lsn hl
    simp only [LogManager.add_globalLsn]
    have := hi.abovePages hp p lsn hl
    lia
  all_goals simp [hp]

theorem step_inv {s s' : LsnState} {e : LsnEv} (hi : s.Inv) (hgood : s.StartsClean e)
    (hs : s.step e = some s') : s'.Inv := by
  cases e with
  | openDb persist =>
    simp only [step] at hs
    split at hs
    next hp =>
      cases Option.some.inj hs
      have hbuf : s.log.buffer = [] := hi.noBuffer (by simp [hp])
      have hrec : s.log.records = s.log.file := by simp [LogManager.records, hbuf]
      refine ⟨⟨le_rfl, ?_, hi.counted.pool, hi.counted.disk⟩, ?_, ?_, ?_, ?_, fun _ => rfl⟩
      · simpa [LogManager.records, LogManager.fresh, hbuf] using hi.counted.records
      · simpa [LogManager.records, LogManager.fresh, hbuf] using hi.increasing
      all_goals simp [LogManager.fresh]
    next => simp at hs
  | redo r =>
    simp only [step] at hs
    split at hs
    next place hp hplace =>
      split at hs
      next lsn hlsn =>
        split at hs
        next h =>
          cases Option.some.inj hs
          exact hi.setPool _ (hi.counted.records r (List.mem_append_left _ h.1))
        next => simp at hs
      next => simp at hs
    next => simp at hs
  | serve =>
    simp only [step] at hs
    split at hs
    next hp =>
      cases Option.some.inj hs
      obtain ⟨hfile, hdisk⟩ := hgood
      have hrec : s.log.records = [] := by
        simp [LogManager.records, hfile, hi.noBuffer (by simp [hp])]
      refine ⟨⟨hi.counted.next, hi.counted.records, hi.counted.pool, hi.counted.disk⟩,
        hi.increasing, ?_, ?_, ?_, ?_⟩
      · intro _ r hr
        rw [hrec] at hr
        simp at hr
      · intro _ p lsn hl
        simp [hdisk p] at hl
      all_goals simp
    next => simp at hs
  | append tid prevLsn body =>
    simp only [step] at hs
    split at hs
    next hp =>
      cases Option.some.inj hs
      exact hi.append hp tid prevLsn body
    next => simp at hs
  | flushLog =>
    simp only [step] at hs
    split at hs
    next hp =>
      cases Option.some.inj hs
      refine ⟨⟨?_, ?_, hi.counted.pool, hi.counted.disk⟩, ?_, ?_, ?_, ?_, ?_⟩
      · simpa using hi.counted.next
      · simpa using hi.counted.records
      · simpa using hi.increasing
      · simpa using hi.above
      · simpa using hi.abovePages
      all_goals simp [hp]
    next => simp at hs
  | fetchPage p =>
    simp only [step] at hs
    split at hs
    next h =>
      cases Option.some.inj hs
      refine hi.pool _ ?_
      intro q l hq
      by_cases he : q = p
      · exact hi.counted.disk p l (by simpa [he] using hq)
      · exact hi.counted.pool q l (by simpa [he] using hq)
    next => simp at hs
  | newPage p =>
    simp only [step] at hs
    split at hs
    next h =>
      cases Option.some.inj hs
      exact (hi.setPool p le_rfl).setDisk p le_rfl fun _ => hgood
    next => simp at hs
  | stamp p =>
    simp only [step] at hs
    split at hs
    next hp hl =>
      cases Option.some.inj hs
      exact hi.setPool p hi.counted.next
    next => simp at hs
  | writePage p =>
    simp only [step] at hs
    split at hs
    next => simp at hs
    next => simp at hs
    next lsn hl _ =>
      cases Option.some.inj hs
      exact hi.setDisk p (hi.counted.pool p lsn hl) fun hs => hgood hs lsn hl
  | freeFrame p =>
    simp only [step] at hs
    split at hs
    next h =>
      cases Option.some.inj hs
      refine hi.pool _ ?_
      intro q l hq
      by_cases he : q = p
      · simp [he] at hq
      · exact hi.counted.pool q l (by simpa [he] using hq)
    next => simp at hs
  | dropTable fd =>
    simp only [step] at hs
    split at hs
    next hp =>
      cases Option.some.inj hs
      refine ⟨⟨hi.counted.next, hi.counted.records, ?_, ?_⟩, hi.increasing, hi.above, ?_,
        hi.noBuffer, hi.restarted⟩
      · intro p lsn hl
        simp only [Option.ite_none_left_eq_some] at hl
        exact hi.counted.pool p lsn hl.2
      · intro p lsn hl
        simp only [Option.ite_none_left_eq_some] at hl
        exact hi.counted.disk p lsn hl.2
      · intro hs p lsn hl
        simp only [Option.ite_none_left_eq_some] at hl
        exact hi.abovePages hs p lsn hl.2
    next => simp at hs
  | crash =>
    simp only [step] at hs
    split at hs
    next hp =>
      cases Option.some.inj hs
      refine ⟨⟨hi.counted.next, ?_, ?_, hi.counted.disk⟩, ?_, ?_, ?_, ?_, ?_⟩
      · intro r hr
        exact hi.counted.records r (List.mem_append_left _ (by simpa [LogManager.records] using hr))
      · simp
      · simpa [LogManager.records] using (List.pairwise_append.mp hi.increasing).1
      all_goals simp
    next => simp at hs

/-- A step that is not clean breaks the order at once. -/
theorem step_not_identify {s s' : LsnState} {e : LsnEv} (hi : s.Inv) (hbad : ¬ s.StartsClean e)
    (hs : s.step e = some s') : ¬ s'.LsnsIdentify := by
  intro hid
  cases e with
  | serve =>
    simp only [step] at hs
    split at hs
    next hp =>
      cases Option.some.inj hs
      have hzero := hi.restarted hp
      apply hbad
      refine ⟨List.eq_nil_iff_forall_not_mem.mpr fun r hr => ?_, fun p => ?_⟩
      · have hlt := hid.aboveFile rfl r hr
        have hge := hi.counted.records r (List.mem_append_left _ hr)
        simp only [hzero] at hlt
        lia
      · cases hd : s.disk p with
        | none => rfl
        | some lsn =>
          have hlt := hid.abovePages rfl p lsn hd
          have hge := hi.counted.disk p lsn hd
          simp only [hzero] at hlt
          lia
    next => simp at hs
  | newPage p =>
    simp only [step] at hs
    split at hs
    next h =>
      cases Option.some.inj hs
      exact hbad (hid.abovePages h.1 p 0 (by simp [setDisk]))
    next => simp at hs
  | writePage p =>
    simp only [step] at hs
    split at hs
    next => simp at hs
    next => simp at hs
    next lsn hl _ =>
      cases Option.some.inj hs
      apply hbad
      intro hserving l hpool
      have hsame : lsn = l := Option.some.inj (hl.symm.trans hpool)
      exact hid.abovePages hserving p l (by simp [setDisk, hsame])
  | openDb | redo | append | flushLog | fetchPage | stamp | freeFrame | dropTable | crash =>
    exact hbad trivial

/-- LSNs identify records in every state of a run over any number of processes, exactly when
every process that serves found an empty log and no pages, and pages reach the disk only below
the next LSN. -/
theorem lsnsIdentify_iff_startsClean {tr : List LsnEv} {s : LsnState}
    (h : run step created tr = some s) :
    (∀ tr₁ tr₂ s₁, tr = tr₁ ++ tr₂ → run step created tr₁ = some s₁ → s₁.LsnsIdentify) ↔
      MeetsAll step StartsClean created tr :=
  forall_prefix_iff_meetsAll (I := Inv) (fun _ hi => hi.identify)
    (fun _ _ _ hi hgood hs => step_inv hi hgood hs)
    (fun _ _ _ hi hbad hs => step_not_identify hi hbad hs) inv_created h

def rowBody : LogBody := .insert [1] ⟨⟨1, 0⟩, "t", 1, 2⟩

/-- A process inserts a row, crashes and is started again. -/
def crashTrace : List LsnEv :=
  [.openDb 0, .serve, .append (some 0) (-1) .begin, .newPage ("t", 1), .stamp ("t", 1),
    .append (some 0) 0 rowBody, .writePage ("t", 1), .flushLog, .crash, .openDb 0]

theorem lsnsIdentify_iff_startsClean_crash : ∃ s, run step created crashTrace = some s ∧
    s.log.file = [⟨0, some 0, -1, .begin⟩, ⟨1, some 0, 0, rowBody⟩] ∧
    ∀ tr₁ tr₂ s₁, crashTrace = tr₁ ++ tr₂ → run step created tr₁ = some s₁ →
      s₁.LsnsIdentify := by
  refine ⟨_, rfl, by decide +kernel, (lsnsIdentify_iff_startsClean rfl).mpr ?_⟩
  refine meetsAll_cons rfl trivial (meetsAll_cons rfl ⟨rfl, fun _ => rfl⟩ ?_)
  refine meetsAll_cons rfl trivial (meetsAll_cons rfl ?_ (meetsAll_cons rfl trivial ?_))
  · show (0 : Lsn) < _
    decide +kernel
  refine meetsAll_cons rfl trivial (meetsAll_cons rfl ?_ ?_)
  · intro _ lsn hl
    have : (1 : Lsn) = lsn := by simpa [setPool, setDisk, LogManager.fresh] using hl
    subst this
    decide +kernel
  exact meetsAll_cons rfl trivial (meetsAll_cons rfl trivial (meetsAll_cons rfl trivial trivial))

/-- The restarted process serves and logs the begin of its first transaction. -/
def againTrace : List LsnEv :=
  crashTrace ++ [.serve, .append (some 0) (-1) .begin, .flushLog]

theorem not_lsnsIdentify_again : ∃ s, run step created againTrace = some s ∧
    s.log.file.map (·.lsn) = [0, 1, 0] ∧ s.disk ("t", 1) = some 1 ∧ ¬ s.LsnsIdentify := by
  refine ⟨_, rfl, by decide +kernel, by decide +kernel, fun h => ?_⟩
  have hinc := List.pairwise_map.mpr h.increasing
  revert hinc
  decide +kernel

end LsnState

end Grmdb
