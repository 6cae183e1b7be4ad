import Grmdb.LogRecord

namespace Grmdb

/-- The log manager with the log file behind it. The buffer is kept as the records serialised
into it, in order. The constructor leaves `persist_lsn_` unset, so its first value is open. -/
structure LogManager where
  globalLsn : Lsn
  persistLsn : Lsn
  buffer : List LogRecord
  file : List LogRecord
  deriving DecidableEq

def LogManager.fresh (persist : Lsn) : LogManager := ⟨0, persist, [], []⟩

def LogManager.offset (lm : LogManager) : Nat := (lm.buffer.map (·.body.totLen)).sum

def LogManager.isFull (lm : LogManager) (appendSize : Nat) : Bool :=
  decide (LOG_BUFFER_SIZE < lm.offset + appendSize)

def LogManager.flushLogToDisk (lm : LogManager) : LogManager :=
  if lm.offset = 0 then lm
  else { lm with file := lm.file ++ lm.buffer, buffer := [], persistLsn := lm.globalLsn }

/-- Appends one record under the next LSN, after a flush when it does not fit. -/
def LogManager.addLogToBuffer (lm : LogManager) (tid : Option TxnId) (prevLsn : Lsn)
    (body : LogBody) : LogManager :=
  let lm := if lm.isFull body.totLen then lm.flushLogToDisk else lm
  { lm with
    buffer := lm.buffer ++ [⟨lm.globalLsn, tid, prevLsn, body⟩]
    globalLsn := lm.globalLsn + 1 }

/-- All records appended so far, in the order of their LSNs. -/
def LogManager.records (lm : LogManager) : List LogRecord := lm.file ++ lm.buffer

theorem LogManager.offset_eq_zero {lm : LogManager} : lm.offset = 0 ↔ lm.buffer = [] := by
  constructor
  · intro h
    cases hb : lm.buffer with
    | nil => rfl
    | cons r rest =>
      have := r.body.totLen_pos
      simp only [offset, hb, List.map_cons, List.sum_cons] at h
      omega
  · intro h
    simp [offset, h]

@[simp] theorem LogManager.flush_globalLsn (lm : LogManager) :
    lm.flushLogToDisk.globalLsn = lm.globalLsn := by
  unfold flushLogToDisk
  split <;> rfl

@[simp] theorem LogManager.flush_buffer (lm : LogManager) : lm.flushLogToDisk.buffer = [] := by
  unfold flushLogToDisk
  split
  next h => exact offset_eq_zero.mp h
  next => rfl

theorem LogManager.flush_file (lm : LogManager) : lm.flushLogToDisk.file = lm.records := by
  unfold flushLogToDisk
  split
  next h => simp [records, offset_eq_zero.mp h]
  next => rfl

@[simp] theorem LogManager.flush_records (lm : LogManager) :
    lm.flushLogToDisk.records = lm.records := by
  rw [records, flush_file, flush_buffer, List.append_nil]

/-- A flush of a non-empty buffer leaves the next LSN in `persist_lsn_`. -/
theorem LogManager.flush_persistLsn {lm : LogManager} (h : lm.buffer ≠ []) :
    lm.flushLogToDisk.persistLsn = lm.globalLsn := by
  unfold flushLogToDisk
  split
  next hz => exact absurd (offset_eq_zero.mp hz) h
  next => rfl

section Append

variable (lm : LogManager) (tid : Option TxnId) (prevLsn : Lsn) (body : LogBody)

@[simp] theorem LogManager.add_globalLsn :
    (lm.addLogToBuffer tid prevLsn body).globalLsn = lm.globalLsn + 1 := by
  unfold addLogToBuffer
  split <;> simp

theorem LogManager.add_records :
    (lm.addLogToBuffer tid prevLsn body).records =
      lm.records ++ [⟨lm.globalLsn, tid, prevLsn, body⟩] := by
  unfold addLogToBuffer
  split
  next =>
    simp only [records, flush_file, flush_buffer, flush_globalLsn, List.nil_append]
  next => simp [records]

theorem LogManager.add_file_of_full (h : lm.isFull body.totLen = true) :
    (lm.addLogToBuffer tid prevLsn body).file = lm.records := by
  simp [addLogToBuffer, h, flush_file]

theorem LogManager.add_file_of_room (h : lm.isFull body.totLen = false) :
    (lm.addLogToBuffer tid prevLsn body).file = lm.file := by
  simp [addLogToBuffer, h]

end Append

/-- `persist_lsn_` separates the LSNs in the file from those in the buffer. -/
structure LogManager.Ordered (lm : LogManager) : Prop where
  persist : lm.persistLsn ≤ lm.globalLsn
  fileBelow : ∀ r ∈ lm.file, r.lsn < lm.persistLsn
  bufferFrom : ∀ r ∈ lm.buffer, lm.persistLsn ≤ r.lsn ∧ r.lsn < lm.globalLsn

theorem LogManager.ordered_fresh {persist : Lsn} (h : persist ≤ 0) :
    (LogManager.fresh persist).Ordered :=
  ⟨h, by simp [fresh], by simp [fresh]⟩

theorem LogManager.Ordered.flush {lm : LogManager} (h : lm.Ordered) :
    lm.flushLogToDisk.Ordered := by
  by_cases hb : lm.buffer = []
  · have : lm.flushLogToDisk = lm := by simp [flushLogToDisk, offset, hb]
    rwa [this]
  · refine ⟨by simp [flush_persistLsn hb], ?_, by simp⟩
    intro r hr
    rw [flush_file, records] at hr
    rw [flush_persistLsn hb]
    rcases List.mem_append.mp hr with hr | hr
    · exact lt_of_lt_of_le (h.fileBelow r hr) h.persist
    · exact (h.bufferFrom r hr).2

theorem LogManager.Ordered.add {lm : LogManager} (h : lm.Ordered) (tid : Option TxnId)
    (prevLsn : Lsn) (body : LogBody) : (lm.addLogToBuffer tid prevLsn body).Ordered := by
  have key : ∀ lm : LogManager, lm.Ordered → LogManager.Ordered { lm with
      buffer := lm.buffer ++ [⟨lm.globalLsn, tid, prevLsn, body⟩]
      globalLsn := lm.globalLsn + 1 } := by
    intro lm h
    have hp := h.persist
    refine ⟨by simp only; lia, h.fileBelow, ?_⟩
    intro r hr
    rcases List.mem_append.mp hr with hr | hr
    · have := h.bufferFrom r hr
      simp only
      lia
    · rw [List.mem_singleton] at hr
      subst hr
      simp only
      lia
  unfold addLogToBuffer
  split
  · exact key _ h.flush
  · exact key _ h

theorem LogManager.Ordered.mem_file_iff {lm : LogManager} (h : lm.Ordered) {r : LogRecord}
    (hr : r ∈ lm.records) : r ∈ lm.file ↔ r.lsn < lm.persistLsn := by
  refine ⟨h.fileBelow r, fun hlt => ?_⟩
  rcases List.mem_append.mp hr with hr | hr
  · exact hr
  · have := (h.bufferFrom r hr).1
    lia

end Grmdb
