import Grmdb.LockUnlock

namespace Grmdb

variable {κ : Type}

/-- Where a transaction waits; `isNew` tells a request that the call has pushed from one that it
found. -/
inductive LockWait (κ : Type) where
  | shared (fd : Fd) (rid : Rid) (isNew : Bool)
  | exclusiveGap (fd : Fd) (rid : Rid) (index : IndexId) (key : κ) (isNew : Bool)
  | gap (fd : Fd) (isNew : Bool) (first : Bool)
  | is (fd : Fd) (isNew : Bool)
  | ix (fd : Fd) (isNew : Bool)
  | exclusive (fd : Fd) (isNew : Bool)
  deriving DecidableEq, Repr

/-- A transaction makes lock calls while it runs, and releases its locks once it commits or
aborts. -/
inductive TxnPhase (κ : Type) where
  | running
  | waiting (w : LockWait κ)
  | finishing
  deriving DecidableEq, Repr

/-- A call of `lock_exclusive_on_record_gap` that has returned true. -/
structure HeldKey (κ : Type) where
  txnId : TxnId
  fd : Fd
  index : IndexId
  key : κ
  deriving DecidableEq, Repr

structure LockState (κ : Type) where
  locks : Locks κ
  phase : TxnId → TxnPhase κ
  lockSet : TxnId → List LockDataId
  held : List (HeldKey κ)

inductive LockEv (κ : Type) where
  | lockSharedOnRecord (t : TxnId) (fd : Fd) (rid : Rid)
  | lockExclusiveOnRecordGap (t : TxnId) (fd : Fd) (rid : Rid) (index : IndexId) (key : κ)
  | lockGAPOnTable (t : TxnId) (fd : Fd) (lower upper : κ) (index : IndexId)
  | lockISOnTable (t : TxnId) (fd : Fd)
  | lockIXOnTable (t : TxnId) (fd : Fd)
  | lockExclusiveOnTable (t : TxnId) (fd : Fd)
  | wake (t : TxnId)
  | finish (t : TxnId)
  | unlock (t : TxnId) (id : LockDataId)
  deriving DecidableEq, Repr

def LockWait.id : LockWait κ → LockDataId
  | .shared fd rid _ | .exclusiveGap fd rid _ _ _ => .record fd rid
  | .gap fd _ _ | .is fd _ | .ix fd _ | .exclusive fd _ => .table fd

def LockWait.isNew : LockWait κ → Bool
  | .shared _ _ isNew | .exclusiveGap _ _ _ _ isNew | .gap _ isNew _ | .is _ isNew | .ix _ isNew
  | .exclusive _ isNew => isNew

/-- The request whose fields the predicate of the condition variable reads. -/
def LockWait.request (w : LockWait κ) (q : LockRequestQueue κ) (t : TxnId) :
    Option (LockRequest κ) :=
  if w.isNew then q.findLast t else q.find t

/-- The predicate: `granted_`, or for a gap that the gap pushed last is not conflicted. -/
def LockWait.ready (w : LockWait κ) (r : LockRequest κ) : Bool :=
  match w with
  | .gap _ _ _ => (r.gaps.getLast?.map fun g => !g.conflicted).getD false
  | _ => r.granted

/-- What the call does to the group mode when its wait is over. -/
def LockWait.resume (w : LockWait κ) (r : LockRequest κ) (q : LockRequestQueue κ) (t : TxnId) :
    LockRequestQueue κ :=
  match w with
  | .shared _ _ false => { q with groupMode := if q.groupMode = .x then .x else .s }
  | .shared _ _ true => q
  | .exclusiveGap _ _ _ _ false => { q with groupMode := .x }.clearUpgrading t
  | .exclusiveGap _ _ _ _ true => { q with groupMode := .x }
  | .gap _ _ true => { q with groupMode := .gap }
  | .gap _ _ false => q
  | .is _ false => { q with groupMode := if q.groupMode = .noLock then .is else q.groupMode }
  | .is _ true => q
  | .ix _ false =>
    { q with groupMode :=
        if q.groupMode = .gap then .gap else if r.lockMode = .gap then .gap else .ix }
  | .ix _ true => q
  | .exclusive _ false => { q with groupMode := .tabX }.clearUpgrading t
  | .exclusive _ true => { q with groupMode := .tabX }

/-- The data ids that a call puts into the lock set when it returns. -/
def LockWait.entered (w : LockWait κ) : List LockDataId :=
  match w with
  | .exclusiveGap fd rid _ _ _ => [.record fd rid, .table fd]
  | w => [w.id]

def LockWait.heldKey (w : LockWait κ) (t : TxnId) : List (HeldKey κ) :=
  match w with
  | .exclusiveGap fd _ index key _ => [⟨t, fd, index, key⟩]
  | _ => []

namespace LockState

def fresh : LockState κ := ⟨fun _ => none, fun _ => .running, fun _ => [], []⟩

def queue (s : LockState κ) (id : LockDataId) : LockRequestQueue κ :=
  (s.locks id).getD .empty

def put (s : LockState κ) (id : LockDataId) (q : LockRequestQueue κ) : LockState κ :=
  { s with locks := s.locks.set id (some q) }

def setPhase (s : LockState κ) (t : TxnId) (p : TxnPhase κ) : LockState κ :=
  { s with phase := fun x => if x = t then p else s.phase x }

def enter (s : LockState κ) (t : TxnId) (ids : List LockDataId) : LockState κ :=
  { s with lockSet := fun x => if x = t then s.lockSet x ∪ ids else s.lockSet x }

def hold (s : LockState κ) (keys : List (HeldKey κ)) : LockState κ :=
  { s with held := s.held ++ keys }

/-- The end of a call that waits, if it does, as `wait` says. -/
def finishCall (s : LockState κ) (t : TxnId) (wait : Bool → LockWait κ) : Outcome → LockState κ
  | .returns true => (s.enter t (wait true).entered).hold ((wait true).heldKey t)
  | .returns false => s.hold ((wait false).heldKey t)
  | .waits isNew => s.setPhase t (.waiting (wait isNew))
  | .aborts => s.setPhase t .finishing

variable [LinearOrder κ]

def step (s : LockState κ) : LockEv κ → Option (LockState κ)
  | .lockSharedOnRecord t fd rid =>
    if s.phase t = .running then
      let (q, out) := (s.queue (.record fd rid)).lockSharedOnRecord t
      some ((s.put (.record fd rid) q).finishCall t (.shared fd rid) out)
    else none
  | .lockExclusiveOnRecordGap t fd rid index key =>
    if s.phase t = .running then
      let (queueRec, queueTable, out) := (s.queue (.record fd rid)).lockExclusiveOnRecordGap
        (s.queue (.table fd)) t rid index key
      some (((s.put (.record fd rid) queueRec).put (.table fd) queueTable).finishCall t
        (.exclusiveGap fd rid index key) out)
    else none
  | .lockGAPOnTable t fd lower upper index =>
    if s.phase t = .running then
      let (q, out) := (s.queue (.table fd)).lockGAPOnTable t lower upper index
      some ((s.put (.table fd) q).finishCall t
        (fun isNew => .gap fd isNew (isNew && (s.queue (.table fd)).requestQueue.isEmpty)) out)
    else none
  | .lockISOnTable t fd =>
    if s.phase t = .running then
      ((s.queue (.table fd)).lockISOnTable t).map fun (q, out) =>
        (s.put (.table fd) q).finishCall t (.is fd) out
    else none
  | .lockIXOnTable t fd =>
    if s.phase t = .running then
      let (q, out) := (s.queue (.table fd)).lockIXOnTable t
      some ((s.put (.table fd) q).finishCall t (.ix fd) out)
    else none
  | .lockExclusiveOnTable t fd =>
    if s.phase t = .running then
      let (q, out) := (s.queue (.table fd)).lockExclusiveOnTable t
      some ((s.put (.table fd) q).finishCall t (.exclusive fd) out)
    else none
  | .wake t =>
    match s.phase t with
    | .waiting w =>
      match w.request (s.queue w.id) t with
      | some r =>
        if w.ready r then
          some ((((s.put w.id (w.resume r (s.queue w.id) t)).setPhase t .running).enter t
            (if w.isNew then w.entered else [])).hold (w.heldKey t))
        else none
      | none => none
    | _ => none
  | .finish t => if s.phase t = .running then some (s.setPhase t .finishing) else none
  | .unlock t id =>
    if s.phase t = .finishing ∧ id ∈ s.lockSet t then
      match id with
      | .table fd => (unlockTable s.locks t fd).map fun locks =>
          { s with
            locks := locks
            lockSet := fun x => if x = t then (s.lockSet x).erase id else s.lockSet x }
      | .record fd rid =>
        some { s with
          locks := unlockRecord s.locks t fd rid
          lockSet := fun x => if x = t then (s.lockSet x).erase id else s.lockSet x }
    else none

end LockState

end Grmdb
