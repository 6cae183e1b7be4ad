import Grmdb.LogRecord

namespace Grmdb

/-- The file of an index; the index metadata and the index handle name the same one. -/
abbrev IndexId := Int

inductive LockMode where
  | shared
  | exlucsive
  | gap
  | intensionShared
  | intensionExlucsive
  deriving DecidableEq, Repr

inductive GroupMode where
  | noLock
  | s
  | x
  | gap
  | tabX
  | is
  | ix
  deriving DecidableEq, Repr

inductive LockDataId where
  | table (fd : Fd)
  | record (fd : Fd) (rid : Rid)
  deriving DecidableEq, Repr

structure Gap (κ : Type) where
  lowerKey : κ
  upperKey : κ
  index : IndexId
  conflicted : Bool
  deriving DecidableEq, Repr

structure LockRequest (κ : Type) where
  txnId : TxnId
  lockMode : LockMode
  granted : Bool
  gaps : List (Gap κ)
  deriving DecidableEq, Repr

structure InsertKey (κ : Type) where
  insertKey : κ
  index : IndexId
  txnId : TxnId
  rid : Rid
  isWaited : Bool
  deriving DecidableEq, Repr

structure LockRequestQueue (κ : Type) where
  requestQueue : List (LockRequest κ)
  upgrading : Option TxnId
  groupMode : GroupMode
  insertKeys : List (InsertKey κ)
  deriving DecidableEq, Repr

/-- Changes the first element that meets `p`. -/
def updateFirst {α : Type} (p : α → Bool) (f : α → α) : List α → List α
  | [] => []
  | a :: l => if p a then f a :: l else a :: updateFirst p f l

variable {κ : Type}

/-- Some gap of the request is not conflicted. -/
def LockRequest.hasGap (r : LockRequest κ) : Bool := r.gaps.any fun g => !g.conflicted

def LockRequest.holdsX (r : LockRequest κ) : Bool :=
  r.granted && decide (r.lockMode = .exlucsive)

namespace LockRequestQueue

def empty : LockRequestQueue κ := ⟨[], none, .noLock, []⟩

def find (q : LockRequestQueue κ) (t : TxnId) : Option (LockRequest κ) :=
  q.requestQueue.find? fun r => decide (r.txnId = t)

/-- The request that a call of `t` has pushed last. -/
def findLast (q : LockRequestQueue κ) (t : TxnId) : Option (LockRequest κ) :=
  (q.requestQueue.filter fun r => decide (r.txnId = t)).getLast?

/-- Assigns through the iterator of `find`. -/
def update (q : LockRequestQueue κ) (t : TxnId) (f : LockRequest κ → LockRequest κ) :
    LockRequestQueue κ :=
  { q with requestQueue := updateFirst (fun r => decide (r.txnId = t)) f q.requestQueue }

def push (q : LockRequestQueue κ) (r : LockRequest κ) : LockRequestQueue κ :=
  { q with requestQueue := q.requestQueue ++ [r] }

def removeKeys (q : LockRequestQueue κ) (t : TxnId) : LockRequestQueue κ :=
  { q with insertKeys := q.insertKeys.filter fun k => decide (k.txnId ≠ t) }

def clearUpgrading (q : LockRequestQueue κ) (t : TxnId) : LockRequestQueue κ :=
  if q.upgrading = some t then { q with upgrading := none } else q

/-- Another transaction than `t` holds a lock of the queue. -/
def otherGranted (q : LockRequestQueue κ) (t : TxnId) : Bool :=
  q.requestQueue.any fun r => decide (r.txnId ≠ t) && r.granted

def otherHoldsX (q : LockRequestQueue κ) (t : TxnId) : Bool :=
  q.requestQueue.any fun r => decide (r.txnId ≠ t) && r.holdsX

/-- `wait_die`: `t` dies if a request of an older transaction is in the queue, and then leaves
nothing of its own in it. -/
def dies (q : LockRequestQueue κ) (t : TxnId) : Bool :=
  q.requestQueue.any fun r => decide (r.txnId < t)

def withdraw (q : LockRequestQueue κ) (t : TxnId) : LockRequestQueue κ :=
  ({ q with requestQueue := q.requestQueue.filter fun r => decide (r.txnId ≠ t) }.clearUpgrading
    t).removeKeys t

/-- In group mode GAP `calculate_gaps_on_table` gives gap `j` of request `i` the bounds that the index
has for its conditions by then. -/
def calculateGaps (q : LockRequestQueue κ) (bounds : Nat → Nat → κ × κ) : LockRequestQueue κ :=
  if q.groupMode = .gap then
    { q with requestQueue := q.requestQueue.mapIdx fun i r =>
        { r with gaps := r.gaps.mapIdx fun j g =>
            { g with lowerKey := (bounds i j).1, upperKey := (bounds i j).2 } } }
  else q

end LockRequestQueue

section Hit

variable [LinearOrder κ]

/-- The key lies strictly between the bounds of a gap on the same index. -/
def Gap.hits (g : Gap κ) (index : IndexId) (key : κ) : Bool :=
  decide (index = g.index) && decide (g.lowerKey < key) && decide (key < g.upperKey)

/-- Some gap of a transaction other than `t` has `key` in it, conflicted or not. -/
def LockRequestQueue.keyInGap (q : LockRequestQueue κ) (t : TxnId) (index : IndexId) (key : κ) :
    Bool :=
  q.requestQueue.any fun r => decide (r.txnId ≠ t) && r.gaps.any fun g => g.hits index key

/-- A key that another transaction than `t` has been given lies in the gap. -/
def gapConflicts (keys : List (InsertKey κ)) (t : TxnId) (g : Gap κ) : Bool :=
  keys.any fun k => !k.isWaited && decide (k.txnId ≠ t) && g.hits k.index k.insertKey

end Hit

/-- How a lock call ends: it returns true (and with `enters` the lock set gains the data id), it
waits on the condition variable, or the transaction aborts. -/
inductive Outcome where
  | returns (enters : Bool)
  | waits (isNew : Bool)
  | aborts
  deriving DecidableEq, Repr

/-- The two ends of a `wait_die` call before a wait. -/
def LockRequestQueue.orDie (q : LockRequestQueue κ) (t : TxnId) (isNew : Bool) :
    LockRequestQueue κ × Outcome :=
  if q.dies t then (q.withdraw t, .aborts) else (q, .waits isNew)

end Grmdb
