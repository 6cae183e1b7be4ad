import Grmdb.LogCut
import Grmdb.LogManager

namespace Grmdb

open ByteLayout

/-- `LogBuffer`: the array and the place of the next record in it. -/
structure LogBuffer where
  buffer : Bytes
  offset : Nat
  deriving DecidableEq

def LogBuffer.empty : LogBuffer := ⟨List.replicate (LOG_BUFFER_SIZE + 1) 0, 0⟩

def LogBuffer.isFull (b : LogBuffer) (appendSize : Nat) : Bool :=
  decide (LOG_BUFFER_SIZE < b.offset + appendSize)

/-- The log manager down to the bytes of its buffer and of the log file. -/
structure ByteLog where
  globalLsn : Lsn
  persistLsn : Lsn
  logBuffer : LogBuffer
  file : Bytes
  deriving DecidableEq

def ByteLog.fresh (persist : Lsn) : ByteLog := ⟨0, persist, LogBuffer.empty, []⟩

/-- `write_log` goes to the end of the file; the buffer is cleared behind it. -/
def ByteLog.flushLogToDisk (s : ByteLog) : ByteLog :=
  if s.logBuffer.offset = 0 then s
  else
    { s with
      file := s.file ++ s.logBuffer.buffer.take s.logBuffer.offset
      logBuffer := LogBuffer.empty
      persistLsn := s.globalLsn }

/-- The record as `add_log_to_buffer` numbers it. -/
def DiskRecord.setLsn (r : DiskRecord) (lsn : Lsn) : DiskRecord :=
  { r with header := { r.header with lsn := lsn } }

def ByteLog.addLogToBuffer (s : ByteLog) (r : DiskRecord) : ByteLog :=
  let logRecordSize := r.header.logTotLen
  let s := if s.logBuffer.isFull logRecordSize then s.flushLogToDisk else s
  let r := r.setLsn s.globalLsn
  { s with
    globalLsn := s.globalLsn + 1
    logBuffer :=
      { buffer := memcpy s.logBuffer.buffer s.logBuffer.offset r.bytes
        offset := s.logBuffer.offset + logRecordSize } }

inductive LogCall where
  | addLogToBuffer (r : DiskRecord)
  | flushLogToDisk
  deriving DecidableEq

def ByteLog.call (s : ByteLog) : LogCall → ByteLog
  | .addLogToBuffer r => s.addLogToBuffer r
  | .flushLogToDisk => s.flushLogToDisk

/-- The records that the calls append when the next LSN is `lsn`, in the order of the calls. -/
def appendedFrom (lsn : Lsn) : List LogCall → List DiskRecord
  | [] => []
  | .addLogToBuffer r :: calls => r.setLsn lsn :: appendedFrom (lsn + 1) calls
  | .flushLogToDisk :: calls => appendedFrom lsn calls

/-- The serialised records, one behind the other. -/
def serialized (rs : List DiskRecord) : Bytes := rs.flatMap DiskRecord.bytes

/-- The records whose bytes are in the file and those whose bytes are still in the buffer. -/
structure ByteLog.Holds (s : ByteLog) (written pending : List DiskRecord) : Prop where
  file : s.file = serialized written
  buffer : s.logBuffer.buffer.take s.logBuffer.offset = serialized pending
  capacity : s.logBuffer.buffer.length = LOG_BUFFER_SIZE + 1
  room : s.logBuffer.offset ≤ LOG_BUFFER_SIZE
  offset : s.logBuffer.offset = 0 → pending = []
  persisted : ∀ r ∈ written, r.header.lsn < s.persistLsn
  numbered : ∀ r ∈ written ++ pending, r.header.lsn < s.globalLsn

@[simp] theorem serialized_append (rs qs : List DiskRecord) :
    serialized (rs ++ qs) = serialized rs ++ serialized qs := by
  simp [serialized]

@[simp] theorem DiskRecord.setLsn_logTotLen (r : DiskRecord) (lsn : Lsn) :
    (r.setLsn lsn).header.logTotLen = r.header.logTotLen := rfl

@[simp] theorem DiskRecord.setLsn_lsn (r : DiskRecord) (lsn : Lsn) :
    (r.setLsn lsn).header.lsn = lsn := rfl

@[simp] theorem DiskRecord.length_image_setLsn (r : DiskRecord) (lsn : Lsn) :
    (r.setLsn lsn).image.length = r.image.length := by
  simp [image, setLsn]

theorem ByteLog.holds_fresh (persist : Lsn) : (ByteLog.fresh persist).Holds [] [] := by
  constructor <;> simp [fresh, LogBuffer.empty, serialized]

section Calls

variable {s : ByteLog} {written pending : List DiskRecord}

theorem ByteLog.Holds.flush (h : s.Holds written pending) :
    s.flushLogToDisk.Holds (written ++ pending) [] := by
  unfold flushLogToDisk
  split
  next hz =>
    cases h.offset hz
    simpa using h
  next hz =>
    refine ⟨?_, ?_, ?_, ?_, fun _ => rfl, ?_, ?_⟩
    · simp [h.file, h.buffer]
    · simp [LogBuffer.empty, serialized]
    · simp [LogBuffer.empty]
    · simp [LogBuffer.empty]
    · exact h.numbered
    · simpa using h.numbered

/-- The copy into the buffer, where the record fits behind what is there. -/
theorem ByteLog.Holds.push (h : s.Holds written pending) {r : DiskRecord}
    (hlen : r.header.logTotLen = r.image.length)
    (hfit : s.logBuffer.offset + r.header.logTotLen ≤ LOG_BUFFER_SIZE) :
    ByteLog.Holds
      { s with
        globalLsn := s.globalLsn + 1
        logBuffer :=
          { buffer := memcpy s.logBuffer.buffer s.logBuffer.offset (r.setLsn s.globalLsn).bytes
            offset := s.logBuffer.offset + r.header.logTotLen } }
      written (pending ++ [r.setLsn s.globalLsn]) := by
  have hcap := h.capacity
  have hbytes : (r.setLsn s.globalLsn).bytes.length = r.header.logTotLen := by
    rw [DiskRecord.bytes_eq (by simpa using hlen)]
    simp [hlen]
  refine ⟨h.file, ?_, ?_, hfit, ?_, h.persisted, ?_⟩
  · simp only [serialized_append, ← h.buffer, ← hbytes]
    rw [take_memcpy (by omega)]
    simp [serialized]
  · simp only
    rw [length_memcpy (by omega), hcap]
  · intro hz
    have hpos := r.length_image_pos
    simp only at hz
    omega
  · intro q hq
    rw [← List.append_assoc, List.mem_append, List.mem_singleton] at hq
    rcases hq with hq | rfl
    · have := h.numbered q hq
      simp only
      lia
    · simp only [DiskRecord.setLsn_lsn]
      lia

@[simp] theorem ByteLog.flush_globalLsn (s : ByteLog) :
    s.flushLogToDisk.globalLsn = s.globalLsn := by
  unfold flushLogToDisk
  split <;> rfl

@[simp] theorem ByteLog.flush_offset (s : ByteLog) : s.flushLogToDisk.logBuffer.offset = 0 := by
  unfold flushLogToDisk
  split
  next hz => exact hz
  next => rfl

/-- An append writes the buffer out first exactly when the record does not fit any more. -/
theorem ByteLog.Holds.add (h : s.Holds written pending) {r : DiskRecord}
    (hlen : r.header.logTotLen = r.image.length) (hr : r.header.logTotLen ≤ LOG_BUFFER_SIZE) :
    (s.addLogToBuffer r).Holds
      (if s.logBuffer.isFull r.header.logTotLen then written ++ pending else written)
      ((if s.logBuffer.isFull r.header.logTotLen then [] else pending) ++
        [r.setLsn s.globalLsn]) := by
  unfold addLogToBuffer
  by_cases hfull : s.logBuffer.isFull r.header.logTotLen = true
  · simp only [hfull, if_true]
    have hpush := h.flush.push hlen (by simpa using hr)
    simpa only [flush_globalLsn] using hpush
  · simp only [hfull, if_false, Bool.false_eq_true]
    refine h.push hlen ?_
    simpa [LogBuffer.isFull] using hfull

theorem ByteLog.add_globalLsn (s : ByteLog) (r : DiskRecord) :
    (s.addLogToBuffer r).globalLsn = s.globalLsn + 1 := by
  simp only [addLogToBuffer]
  split <;> simp

/-- The records that reach the log manager: built by the constructors and no longer than the
buffer. -/
def LogCall.Fits : LogCall → Prop
  | .addLogToBuffer r => r.Built ∧ r.image.length ≤ LOG_BUFFER_SIZE
  | .flushLogToDisk => True

theorem LogCall.Fits.logTotLen {r : DiskRecord} (h : (LogCall.addLogToBuffer r).Fits) :
    r.header.logTotLen = r.image.length := by
  have hsize : LOG_BUFFER_SIZE < 2 ^ 31 := by decide
  exact h.1.wellBuilt.logTotLen_eq (h.2.trans_lt hsize)

/-- One call moves the appended records on: none is lost and the order stays. -/
theorem ByteLog.Holds.call (h : s.Holds written pending) {c : LogCall} (hc : c.Fits) :
    ∃ written' pending', (s.call c).Holds written' pending' ∧
      written' ++ pending' = written ++ pending ++ appendedFrom s.globalLsn [c] := by
  cases c with
  | addLogToBuffer r =>
    have htot := hc.logTotLen
    refine ⟨_, _, h.add htot (htot.trans_le hc.2), ?_⟩
    split <;> simp [appendedFrom]
  | flushLogToDisk => exact ⟨_, _, h.flush, by simp [appendedFrom]⟩

theorem ByteLog.call_appendedFrom (s : ByteLog) (c : LogCall) (calls : List LogCall) :
    appendedFrom s.globalLsn (c :: calls) =
      appendedFrom s.globalLsn [c] ++ appendedFrom (s.call c).globalLsn calls := by
  cases c with
  | addLogToBuffer r => simp [appendedFrom, call, add_globalLsn]
  | flushLogToDisk => simp [appendedFrom, call]

theorem ByteLog.Holds.run (h : s.Holds written pending) {calls : List LogCall}
    (hc : ∀ c ∈ calls, c.Fits) :
    ∃ written' pending', (calls.foldl ByteLog.call s).Holds written' pending' ∧
      written' ++ pending' = written ++ pending ++ appendedFrom s.globalLsn calls := by
  induction calls generalizing s written pending with
  | nil => exact ⟨written, pending, h, by simp [appendedFrom]⟩
  | cons c calls ih =>
    obtain ⟨mid, midPending, hmid, happ⟩ := h.call (hc c List.mem_cons_self)
    obtain ⟨written', pending', hrest, heq⟩ := ih hmid fun d hd => hc d (List.mem_cons_of_mem c hd)
    refine ⟨written', pending', hrest, ?_⟩
    rw [heq, happ, call_appendedFrom s c calls, List.append_assoc]

end Calls

theorem lsn_appendedFrom {lsn : Lsn} {calls : List LogCall} {r : DiskRecord}
    (h : r ∈ appendedFrom lsn calls) : lsn ≤ r.header.lsn := by
  induction calls generalizing lsn with
  | nil => simp [appendedFrom] at h
  | cons c calls ih =>
    cases c with
    | addLogToBuffer q =>
      rw [appendedFrom, List.mem_cons] at h
      rcases h with rfl | h
      · simp
      · have := ih h
        lia
    | flushLogToDisk => exact ih h

theorem appendedFrom_increasing (lsn : Lsn) (calls : List LogCall) :
    (appendedFrom lsn calls).Pairwise fun r q => r.header.lsn < q.header.lsn := by
  induction calls generalizing lsn with
  | nil => exact List.Pairwise.nil
  | cons c calls ih =>
    cases c with
    | addLogToBuffer r =>
      refine List.pairwise_cons.mpr ⟨fun q hq => ?_, ih (lsn + 1)⟩
      have := lsn_appendedFrom hq
      simp only [DiskRecord.setLsn_lsn]
      lia
    | flushLogToDisk => exact ih lsn

/-- Appending keeps the order and loses nothing: after any calls, file and buffer together are
the appended records in the order of their LSNs, the buffer is not overrun, and a flush of a
non-empty buffer leaves `persist_lsn_` above every LSN in the file. -/
theorem log_append_in_order (persist : Lsn) (calls : List LogCall) (hc : ∀ c ∈ calls, c.Fits) :
    let s := calls.foldl ByteLog.call (ByteLog.fresh persist)
    (appendedFrom 0 calls).Pairwise (fun r q => r.header.lsn < q.header.lsn) ∧
    s.file ++ s.logBuffer.buffer.take s.logBuffer.offset = serialized (appendedFrom 0 calls) ∧
    s.logBuffer.offset ≤ LOG_BUFFER_SIZE ∧
    (∃ written pending, written ++ pending = appendedFrom 0 calls ∧ s.file = serialized written ∧
      ∀ r ∈ written, r.header.lsn < s.persistLsn) ∧
    (s.logBuffer.offset ≠ 0 → s.flushLogToDisk.file = serialized (appendedFrom 0 calls) ∧
      ∀ r ∈ appendedFrom 0 calls, r.header.lsn < s.flushLogToDisk.persistLsn) := by
  intro s
  obtain ⟨written, pending, h, happ⟩ := (ByteLog.holds_fresh persist).run hc
  have hall : written ++ pending = appendedFrom 0 calls := happ
  have hflush := h.flush
  rw [hall] at hflush
  refine ⟨appendedFrom_increasing 0 calls, ?_, h.room, ⟨written, pending, hall, h.file, h.persisted⟩,
    fun _ => ⟨hflush.file, hflush.persisted⟩⟩
  rw [h.file, h.buffer, ← hall, serialized_append]

theorem log_append_in_order_shortLog :
    (appendedFrom 0 (shortLog.map .addLogToBuffer ++ [.flushLogToDisk])).Pairwise
      fun r q => r.header.lsn < q.header.lsn := by
  refine (log_append_in_order INVALID_LSN _ fun c hc => ?_).1
  rcases List.mem_append.mp hc with hc | hc
  · obtain ⟨r, hr, rfl⟩ := List.mem_map.mp hc
    have hshort : ∀ q ∈ shortLog, q.image.length ≤ LOG_BUFFER_SIZE := by decide
    exact ⟨built_shortLog r hr, hshort r hr⟩
  · cases List.mem_singleton.mp hc
    trivial

def LogPlace.target (p : LogPlace) : LogTarget :=
  ⟨p.rid, p.tableName.toByteArray.data.toList, p.firstFreePageNo, p.numPages⟩

def LogBody.toDisk (body : LogBody) (tid : Int) (prevLsn : Lsn) : DiskRecord :=
  match body with
  | .update oldValue newValue place => updateLogRecord tid prevLsn oldValue newValue place.target
  | .insert value place => insertLogRecord tid prevLsn value place.target
  | .delete value place => deleteLogRecord tid prevLsn value place.target
  | .begin => beginLogRecord tid
  | .commit => commitLogRecord tid
  | .abort => abortLogRecord tid
  | .checkpoint => ckpLogRecord

/-- The record of `LogManager` as an object of its class, before it gets its LSN. -/
def diskRecord (tid : Option TxnId) (prevLsn : Lsn) (body : LogBody) : DiskRecord :=
  let r := body.toDisk (tid.elim INVALID_TXN_ID fun t => t) prevLsn
  { r with header := { r.header with prevLsn := prevLsn } }

def LogRecord.toDisk (r : LogRecord) : DiskRecord :=
  (diskRecord r.logTid r.prevLsn r.body).setLsn r.lsn

theorem length_image_diskRecord (tid : Option TxnId) (prevLsn : Lsn) (body : LogBody) :
    (diskRecord tid prevLsn body).image.length = body.totLen := by
  have hname : ∀ p : LogPlace, p.target.tableName.length = p.tableName.utf8ByteSize := by
    intro p
    rfl
  cases body <;>
    simp [diskRecord, LogBody.toDisk, updateLogRecord, insertLogRecord, deleteLogRecord,
      imageLogRecord, beginLogRecord, commitLogRecord, abortLogRecord, ckpLogRecord,
      DiskRecord.image, LogPayload.image, LogBody.totLen, LogPlace.len, hname] <;>
    omega

theorem logTotLen_diskRecord {tid : Option TxnId} {prevLsn : Lsn} {body : LogBody}
    (h : body.totLen < 2 ^ 32) :
    (diskRecord tid prevLsn body).header.logTotLen = body.totLen := by
  have hmod : (diskRecord tid prevLsn body).header.logTotLen =
      (diskRecord tid prevLsn body).image.length % 2 ^ 32 := by
    cases body <;>
      simp [diskRecord, LogBody.toDisk, updateLogRecord, insertLogRecord, deleteLogRecord,
        imageLogRecord, beginLogRecord, commitLogRecord, abortLogRecord, ckpLogRecord,
        DiskRecord.image, LogPayload.image, addTargetLen_eq, addLen, LogHeader.init,
        LOG_HEADER_SIZE] <;>
      omega
  rw [hmod, length_image_diskRecord, Nat.mod_eq_of_lt h]

/-- The byte level holds the records of the record level. -/
structure ByteLog.Refines (s : ByteLog) (lm : LogManager) : Prop where
  holds : s.Holds (lm.file.map LogRecord.toDisk) (lm.buffer.map LogRecord.toDisk)
  offset : s.logBuffer.offset = lm.offset
  globalLsn : s.globalLsn = lm.globalLsn
  persistLsn : s.persistLsn = lm.persistLsn

theorem ByteLog.refines_fresh (persist : Lsn) :
    (ByteLog.fresh persist).Refines (LogManager.fresh persist) :=
  ⟨holds_fresh persist, rfl, rfl, rfl⟩

theorem ByteLog.Refines.flush {s : ByteLog} {lm : LogManager} (h : s.Refines lm) :
    s.flushLogToDisk.Refines lm.flushLogToDisk := by
  by_cases hz : lm.offset = 0
  · have hs : s.flushLogToDisk = s := by simp [flushLogToDisk, h.offset, hz]
    have hlm : lm.flushLogToDisk = lm := by simp [LogManager.flushLogToDisk, hz]
    rw [hs, hlm]
    exact h
  · have hb : lm.buffer ≠ [] := fun hb => hz (LogManager.offset_eq_zero.mpr hb)
    refine ⟨?_, ?_, ?_, ?_⟩
    · simpa [LogManager.flush_file, LogManager.records] using h.holds.flush
    · simp [LogManager.offset]
    · simpa using h.globalLsn
    · rw [LogManager.flush_persistLsn hb, ← h.globalLsn]
      simp [flushLogToDisk, h.offset, hz]

/-- The byte level follows the record level through an append. -/
theorem ByteLog.Refines.add {s : ByteLog} {lm : LogManager} (h : s.Refines lm)
    (tid : Option TxnId) (prevLsn : Lsn) {body : LogBody} (hsize : body.totLen ≤ LOG_BUFFER_SIZE) :
    (s.addLogToBuffer (diskRecord tid prevLsn body)).Refines
      (lm.addLogToBuffer tid prevLsn body) := by
  have hlen : (diskRecord tid prevLsn body).header.logTotLen = body.totLen := by
    refine logTotLen_diskRecord (hsize.trans_lt ?_)
    decide
  have himage := length_image_diskRecord tid prevLsn body
  have hadd := h.holds.add (hlen.trans himage.symm) (hlen.trans_le hsize)
  have hfull : s.logBuffer.isFull body.totLen = lm.isFull body.totLen := by
    simp [LogBuffer.isFull, LogManager.isFull, h.offset]
  rw [hlen, hfull, h.globalLsn] at hadd
  have hflush := h.flush
  simp only [addLogToBuffer, hlen, hfull] at hadd ⊢
  simp only [LogManager.addLogToBuffer]
  by_cases hf : lm.isFull body.totLen = true
  · simp only [hf, if_true, List.nil_append] at hadd ⊢
    refine ⟨?_, ?_, ?_, hflush.persistLsn⟩
    · simpa [LogManager.flush_file, LogManager.records, LogRecord.toDisk] using hadd
    · simp [LogManager.offset]
    · simpa using h.globalLsn
  · simp only [hf, if_false, Bool.false_eq_true] at hadd ⊢
    refine ⟨?_, ?_, ?_, h.persistLsn⟩
    · simpa [LogRecord.toDisk] using hadd
    · simp [LogManager.offset, h.offset]
    · simpa using h.globalLsn

end Grmdb
