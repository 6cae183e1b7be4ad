import Grmdb.LockSystem
import Grmdb.RecordQueue

namespace Grmdb

variable {κ : Type}

namespace LockState

@[simp] theorem queue_put_self (s : LockState κ) (id : LockDataId) (q : LockRequestQueue κ) :
    (s.put id q).queue id = q := by
  simp [put, queue]

theorem queue_put_other {s : LockState κ} {id id' : LockDataId} (h : id' ≠ id)
    (q : LockRequestQueue κ) : (s.put id q).queue id' = s.queue id' := by
  simp [put, queue, Locks.set_other h]

@[simp] theorem put_phase (s : LockState κ) (id : LockDataId) (q : LockRequestQueue κ) :
    (s.put id q).phase = s.phase := rfl

@[simp] theorem put_held (s : LockState κ) (id : LockDataId) (q : LockRequestQueue κ) :
    (s.put id q).held = s.held := rfl

@[simp] theorem finishCall_locks (s : LockState κ) (t : TxnId) (wait : Bool → LockWait κ)
    (out : Outcome) : (s.finishCall t wait out).locks = s.locks := by
  unfold finishCall
  split <;> rfl

@[simp] theorem finishCall_queue (s : LockState κ) (t : TxnId) (wait : Bool → LockWait κ)
    (out : Outcome) (id : LockDataId) : (s.finishCall t wait out).queue id = s.queue id := by
  simp [queue]

theorem finishCall_phase_self {s : LockState κ} {t : TxnId} (ht : s.phase t = .running)
    (wait : Bool → LockWait κ) (out : Outcome) :
    (s.finishCall t wait out).phase t = out.phase wait := by
  unfold finishCall Outcome.phase
  split <;> simp [enter, hold, setPhase, ht]

theorem finishCall_phase_other {s : LockState κ} {t u : TxnId} (hu : u ≠ t)
    (wait : Bool → LockWait κ) (out : Outcome) :
    (s.finishCall t wait out).phase u = s.phase u := by
  unfold finishCall
  split <;> simp [enter, hold, setPhase, hu]

end LockState

end Grmdb
