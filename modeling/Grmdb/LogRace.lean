import Grmdb.LogAppend
import Grmdb.Runs

namespace Grmdb

open ByteLayout Runs

/-- `add_log_to_buffer` before its latch: the test for space and the flush it asks for. -/
def ByteLog.makeRoom (s : ByteLog) (r : DiskRecord) : ByteLog :=
  if s.logBuffer.isFull r.header.logTotLen then s.flushLogToDisk else s

/-- `add_log_to_buffer` under its latch. -/
def ByteLog.copyRecord (s : ByteLog) (r : DiskRecord) : ByteLog :=
  let r := r.setLsn s.globalLsn
  { s with
    globalLsn := s.globalLsn + 1
    logBuffer :=
      { buffer := memcpy s.logBuffer.buffer s.logBuffer.offset r.bytes
        offset := s.logBuffer.offset + r.header.logTotLen } }

/-- The log with the calls that are past the test and have not copied their record yet. The
records copied so far stand in `appended`, in the order of the copies. -/
structure LogRace where
  log : ByteLog
  inFlight : List (Nat × DiskRecord)
  appended : List DiskRecord
  deriving DecidableEq

inductive LogRaceEvent where
  | test (client : Nat) (r : DiskRecord)
  | append (client : Nat)
  | flushLogToDisk
  deriving DecidableEq

def LogRace.fresh (persist : Lsn) : LogRace := ⟨ByteLog.fresh persist, [], []⟩

/-- The record with which `client` is between the test and the latch. -/
def LogRace.pending (s : LogRace) (client : Nat) : Option (Nat × DiskRecord) :=
  s.inFlight.find? fun call => call.1 = client

def LogRace.step (s : LogRace) : LogRaceEvent → Option LogRace
  | .test client r =>
    match s.pending client with
    | some _ => none
    | none => some { s with log := s.log.makeRoom r, inFlight := s.inFlight ++ [(client, r)] }
  | .append client =>
    match s.pending client with
    | none => none
    | some call =>
      some
        { log := s.log.copyRecord call.2
          inFlight := s.inFlight.erase call
          appended := s.appended ++ [call.2.setLsn s.log.globalLsn] }
  | .flushLogToDisk => some { s with log := s.log.flushLogToDisk }

/-- The bytes that the calls in flight are going to copy. -/
def LogRace.owed (s : LogRace) : Nat := (s.inFlight.map fun call => call.2.image.length).sum

/-- A record is tested for only where the array holds it together with those already let
through. -/
def LogRace.Reserves (s : LogRace) : LogRaceEvent → Prop
  | .test _ r =>
    (s.log.makeRoom r).logBuffer.offset + s.owed + r.image.length ≤ LOG_BUFFER_SIZE + 1
  | .append _ => True
  | .flushLogToDisk => True

instance LogRace.decidableReserves (s : LogRace) (e : LogRaceEvent) : Decidable (s.Reserves e) :=
  match e with
  | .test _ _ => inferInstanceAs (Decidable (_ ≤ _))
  | .append _ => isTrue trivial
  | .flushLogToDisk => isTrue trivial

def LogRaceEvent.Built : LogRaceEvent → Prop
  | .test _ r => r.Built
  | .append _ => True
  | .flushLogToDisk => True

/-- The array has its size and holds, behind the file, the bytes of all the copied records. -/
structure ByteLog.Intact (s : ByteLog) (appended : List DiskRecord) : Prop where
  capacity : s.logBuffer.buffer.length = LOG_BUFFER_SIZE + 1
  room : s.logBuffer.offset ≤ LOG_BUFFER_SIZE + 1
  bytes : s.file ++ s.logBuffer.buffer.take s.logBuffer.offset = serialized appended

theorem ByteLog.intact_fresh (persist : Lsn) : (ByteLog.fresh persist).Intact [] := by
  constructor <;> simp [fresh, LogBuffer.empty, serialized]

section Steps

variable {s : ByteLog} {appended : List DiskRecord}

theorem ByteLog.Intact.flush (h : s.Intact appended) : s.flushLogToDisk.Intact appended := by
  unfold flushLogToDisk
  split
  next => exact h
  next =>
    refine ⟨by simp [LogBuffer.empty], by simp [LogBuffer.empty], ?_⟩
    simp [LogBuffer.empty, h.bytes]

theorem ByteLog.Intact.makeRoom (h : s.Intact appended) (r : DiskRecord) :
    (s.makeRoom r).Intact appended := by
  unfold ByteLog.makeRoom
  split
  next => exact h.flush
  next => exact h

/-- The copy of a record that the array has room for. -/
theorem ByteLog.Intact.copy (h : s.Intact appended) {r : DiskRecord}
    (hlen : r.header.logTotLen = r.image.length)
    (hfit : s.logBuffer.offset + r.image.length ≤ LOG_BUFFER_SIZE + 1) :
    (s.copyRecord r).Intact (appended ++ [r.setLsn s.globalLsn]) := by
  have hcap := h.capacity
  have hbytes : (r.setLsn s.globalLsn).bytes.length = r.image.length := by
    rw [DiskRecord.bytes_eq (by simpa using hlen)]
    simp
  refine ⟨?_, ?_, ?_⟩
  · simp only [copyRecord]
    rw [length_memcpy (by omega), hcap]
  · simp only [copyRecord, DiskRecord.setLsn_logTotLen]
    omega
  · simp only [copyRecord, DiskRecord.setLsn_logTotLen, hlen]
    rw [← hbytes, take_memcpy (by omega), ← List.append_assoc, h.bytes]
    simp [serialized]

end Steps

/-- What holds between the steps: every call in flight finds the space it was let through for. -/
structure LogRace.Inv (s : LogRace) : Prop where
  intact : s.log.Intact s.appended
  reserved : s.log.logBuffer.offset + s.owed ≤ LOG_BUFFER_SIZE + 1
  built : ∀ call ∈ s.inFlight, call.2.Built

theorem LogRace.inv_fresh (persist : Lsn) : (LogRace.fresh persist).Inv := by
  refine ⟨ByteLog.intact_fresh persist, ?_, ?_⟩
  · simp [fresh, ByteLog.fresh, LogBuffer.empty, owed]
  · simp [fresh]

theorem LogRace.pending_mem {s : LogRace} {client : Nat} {call : Nat × DiskRecord}
    (h : s.pending client = some call) : call ∈ s.inFlight :=
  List.mem_of_find?_eq_some h

theorem LogRace.owed_erase {s : LogRace} {call : Nat × DiskRecord} (h : call ∈ s.inFlight) :
    s.owed = call.2.image.length + ((s.inFlight.erase call).map fun q => q.2.image.length).sum := by
  have hperm := (List.perm_cons_erase h).map fun q : Nat × DiskRecord => q.2.image.length
  rw [owed, hperm.sum_eq, List.map_cons, List.sum_cons]

/-- The room for a call in flight. -/
theorem LogRace.Inv.room {s : LogRace} (h : s.Inv) {call : Nat × DiskRecord}
    (hcall : call ∈ s.inFlight) :
    s.log.logBuffer.offset + call.2.image.length ≤ LOG_BUFFER_SIZE + 1 := by
  have hreserved := h.reserved
  rw [LogRace.owed_erase hcall] at hreserved
  omega

theorem LogRace.Inv.logTotLen {s : LogRace} (h : s.Inv) {call : Nat × DiskRecord}
    (hcall : call ∈ s.inFlight) : call.2.header.logTotLen = call.2.image.length := by
  have hroom := h.room hcall
  have hsize : LOG_BUFFER_SIZE + 1 < 2 ^ 31 := by decide
  exact (h.built call hcall).wellBuilt.logTotLen_eq (by omega)

theorem LogRace.Inv.step {s s' : LogRace} {e : LogRaceEvent} (h : s.Inv) (hbuilt : e.Built)
    (hroom : s.Reserves e) (hstep : s.step e = some s') : s'.Inv := by
  cases e with
  | test client r =>
    simp only [LogRace.step] at hstep
    split at hstep
    next => cases hstep
    next =>
      cases hstep
      refine ⟨h.intact.makeRoom r, ?_, ?_⟩
      · simp only [Reserves, owed] at hroom
        simp only [owed, List.map_append, List.sum_append, List.map_cons, List.map_nil,
          List.sum_cons, List.sum_nil]
        omega
      · intro call hcall
        rcases List.mem_append.mp hcall with hcall | hcall
        · exact h.built call hcall
        · cases List.mem_singleton.mp hcall
          exact hbuilt
  | append client =>
    simp only [LogRace.step] at hstep
    split at hstep
    next => cases hstep
    next call hpending =>
      cases hstep
      have hcall := pending_mem hpending
      refine ⟨h.intact.copy (h.logTotLen hcall) (h.room hcall), ?_, ?_⟩
      · have hreserved := h.reserved
        rw [owed_erase hcall] at hreserved
        have hlen := h.logTotLen hcall
        simp only [ByteLog.copyRecord, DiskRecord.setLsn_logTotLen, owed]
        omega
      · intro q hq
        exact h.built q (List.mem_of_mem_erase hq)
  | flushLogToDisk =>
    cases hstep
    refine ⟨h.intact.flush, ?_, h.built⟩
    have hreserved := h.reserved
    have hzero : s.log.flushLogToDisk.logBuffer.offset = 0 := s.log.flush_offset
    simp only [owed] at hreserved ⊢
    omega

/-- As long as every test finds room for its record beside the records already let through, no
interleaving writes behind the array, and file and buffer hold all the records copied. -/
theorem LogRace.append_in_bounds (persist : Lsn) (tr : List LogRaceEvent)
    (hbuilt : ∀ e ∈ tr, e.Built) (hroom : MeetsAll step Reserves (fresh persist) tr) :
    ∀ tr₁ tr₂ s, tr = tr₁ ++ tr₂ → run step (fresh persist) tr₁ = some s →
      (∀ client call, s.pending client = some call →
        s.log.logBuffer.offset + call.2.header.logTotLen ≤ LOG_BUFFER_SIZE + 1) ∧
      s.log.logBuffer.buffer.length = LOG_BUFFER_SIZE + 1 ∧
      s.log.file ++ s.log.logBuffer.buffer.take s.log.logBuffer.offset =
        serialized s.appended := by
  rintro tr₁ tr₂ s rfl hrun
  have hgood : MeetsAll step (fun s e => s.Reserves e ∧ e.Built) (fresh persist) tr₁ := by
    refine meetsAll_and (meetsAll_left hroom) (meetsAll_of_mem fun e he _ => ?_)
    exact hbuilt e (List.mem_append_left tr₂ he)
  have hinv : s.Inv := run_invariant (fun s e s' h hg hs => h.step hg.2 hg.1 hs)
    (inv_fresh persist) hgood hrun
  refine ⟨fun client call hcall => ?_, hinv.intact.capacity, hinv.intact.bytes⟩
  have hmem := pending_mem hcall
  rw [hinv.logTotLen hmem]
  exact hinv.room hmem

/-- Two clients test before either of them copies its record. -/
def twoCommits : List LogRaceEvent :=
  [.test 0 (commitLogRecord 0), .test 1 (commitLogRecord 1), .append 1, .append 0, .flushLogToDisk]

theorem LogRace.append_in_bounds_twoCommits :
    ∃ s, run step (fresh INVALID_LSN) twoCommits = some s ∧
      s.log.file ++ s.log.logBuffer.buffer.take s.log.logBuffer.offset = serialized s.appended := by
  have hbuilt : ∀ e ∈ twoCommits, e.Built := by
    simp only [twoCommits, List.forall_mem_cons, List.not_mem_nil, false_imp_iff, implies_true,
      and_true, LogRaceEvent.Built]
    exact ⟨.commit (by decide), .commit (by decide)⟩
  have hsome : (run step (fresh INVALID_LSN) twoCommits).isSome = true := by decide +kernel
  obtain ⟨s, hs⟩ := Option.isSome_iff_exists.mp hsome
  exact ⟨s, hs, (append_in_bounds INVALID_LSN twoCommits hbuilt (by decide) twoCommits [] s
    (List.append_nil _).symm hs).2.2⟩

/-- Client 0 appends one record after the other. -/
def commitsOfOne : Nat → List LogRaceEvent
  | 0 => []
  | n + 1 => commitsOfOne n ++ [.test 0 (commitLogRecord 0), .append 0]

theorem built_commitsOfOne (n : Nat) : ∀ e ∈ commitsOfOne n, e.Built := by
  induction n with
  | zero => simp [commitsOfOne]
  | succ n ih =>
    intro e he
    simp only [commitsOfOne, List.mem_append, List.mem_cons, List.not_mem_nil, or_false] at he
    rcases he with he | rfl | rfl
    · exact ih e he
    · exact .commit (by decide)
    · trivial

theorem LogRace.run_commitsOfOne {n : Nat} (h : 20 * n ≤ LOG_BUFFER_SIZE) :
    ∃ s, run step (fresh INVALID_LSN) (commitsOfOne n) = some s ∧
      s.log.logBuffer.offset = 20 * n ∧ s.inFlight = [] := by
  induction n with
  | zero => exact ⟨_, rfl, rfl, rfl⟩
  | succ n ih =>
    obtain ⟨s, hrun, hoffset, hflight⟩ := ih (by omega)
    have hlen : (commitLogRecord 0).header.logTotLen = 20 := rfl
    have hroom : s.log.makeRoom (commitLogRecord 0) = s.log := by
      simp [ByteLog.makeRoom, LogBuffer.isFull, hoffset, hlen]
      omega
    refine ⟨?_, ?_, ?_, ?_⟩
    rotate_left
    · rw [commitsOfOne, run_append, hrun]
      simp only [Option.bind_some, run, step, pending, hflight, List.find?_nil, List.nil_append,
        hroom, List.find?_cons, decide_true]
      rfl
    · simp [ByteLog.copyRecord, hoffset, hlen]
      omega
    · simp

/-- The buffer has room for one more record, and two clients are let through for it. -/
theorem LogRace.append_out_of_bounds :
    ∃ s, run step (fresh INVALID_LSN)
        (commitsOfOne 209714 ++
          [.test 0 (commitLogRecord 0), .test 1 (commitLogRecord 1), .append 0]) = some s ∧
      (∀ e ∈ commitsOfOne 209714 ++
        [.test 0 (commitLogRecord 0), .test 1 (commitLogRecord 1), .append 0], e.Built) ∧
      ∃ call, s.pending 1 = some call ∧
        LOG_BUFFER_SIZE + 1 < s.log.logBuffer.offset + call.2.header.logTotLen := by
  have hsize : LOG_BUFFER_SIZE = 4194304 := rfl
  obtain ⟨s, hrun, hoffset, hflight⟩ := run_commitsOfOne (n := 209714) (by omega)
  have hlen : ∀ tid, (commitLogRecord tid).header.logTotLen = 20 := fun _ => rfl
  have hroom : ∀ tid, s.log.makeRoom (commitLogRecord tid) = s.log := by
    intro tid
    simp [ByteLog.makeRoom, LogBuffer.isFull, hoffset, hlen, hsize]
  refine ⟨?_, ?_, ?_, ?_⟩
  rotate_left
  · rw [run_append, hrun]
    simp only [Option.bind_some, run, step, pending, hflight, List.find?_nil, List.nil_append,
      hroom, List.find?_cons]
    rfl
  · intro e he
    rcases List.mem_append.mp he with he | he
    · exact built_commitsOfOne _ e he
    · simp only [List.mem_cons, List.not_mem_nil, or_false] at he
      rcases he with rfl | rfl | rfl
      · exact .commit (by decide)
      · exact .commit (by decide)
      · trivial
  · refine ⟨(1, commitLogRecord 1), ?_, ?_⟩
    · simp [pending]
    · simp only [ByteLog.copyRecord, DiskRecord.setLsn_logTotLen, hlen, hoffset, hsize]
      omega

end Grmdb
