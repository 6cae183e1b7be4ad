import Grmdb.LockCalls

namespace Grmdb

variable {κ : Type}

/-- One round of the loop by which `unlock` finds the group mode of a table queue. -/
def groupTableOne (group : GroupMode) (r : LockRequest κ) : GroupMode :=
  let group := if r.lockMode = .gap ∧ group ≠ .tabX ∧ r.hasGap then .gap else group
  if r.granted then
    match r.lockMode with
    | .exlucsive => .tabX
    | .intensionExlucsive => if group ≠ .tabX ∧ group ≠ .gap then .ix else group
    | .intensionShared => if group = .noLock then .is else group
    | _ => group
  else group

def groupTable (requests : List (LockRequest κ)) : GroupMode :=
  requests.foldl groupTableOne .noLock

def groupRecordOne (group : GroupMode) (r : LockRequest κ) : GroupMode :=
  if r.granted then
    match r.lockMode with
    | .exlucsive => .x
    | .shared => if group = .noLock then .s else group
    | _ => group
  else group

def groupRecord (requests : List (LockRequest κ)) : GroupMode :=
  requests.foldl groupRecordOne .noLock

/-- A request on its way through one round of `grant_lock`, with the group mode and
`is_granted`. -/
structure GrantState (κ : Type) where
  request : LockRequest κ
  groupMode : GroupMode
  isGranted : Bool

section Grant

variable [LinearOrder κ]

/-- A conflicted gap that no key lies in any more. -/
def gapFreed (keys : List (InsertKey κ)) (t : TxnId) (g : Gap κ) : Bool :=
  !gapConflicts keys t g && g.conflicted

def resetGaps (keys : List (InsertKey κ)) (r : LockRequest κ) : LockRequest κ :=
  { r with gaps := r.gaps.map fun g =>
      if gapFreed keys r.txnId g then { g with conflicted := false } else g }

def resetsGap (keys : List (InsertKey κ)) (r : LockRequest κ) : Bool :=
  r.gaps.any (gapFreed keys r.txnId)

/-- The switch of `grant_lock` on a table request that is not granted. -/
def grantSwitch (keys : List (InsertKey κ)) (r : LockRequest κ) (group : GroupMode) :
    GrantState κ :=
  if r.granted then ⟨r, group, false⟩
  else
    match r.lockMode with
    | .exlucsive =>
      if group = .noLock then ⟨{ r with granted := true }, .tabX, true⟩ else ⟨r, group, false⟩
    | .intensionShared =>
      if group ≠ .tabX then
        ⟨{ r with granted := true }, if group = .noLock then .is else group, true⟩
      else ⟨r, group, false⟩
    | .intensionExlucsive =>
      if group ≠ .tabX then
        ⟨{ r with granted := true }, if group = .noLock ∨ group = .is then .ix else group, true⟩
      else ⟨r, group, false⟩
    | .gap =>
      if group ≠ .tabX then ⟨resetGaps keys r, group, resetsGap keys r⟩ else ⟨r, group, false⟩
    | .shared => ⟨r, group, false⟩

def grantReset (keys : List (InsertKey κ)) (g : GrantState κ) : GrantState κ :=
  if g.request.granted ∧ g.request.lockMode = .gap then
    let isGranted := g.isGranted || resetsGap keys g.request
    ⟨resetGaps keys g.request,
      if isGranted ∧ g.groupMode ≠ .tabX then .gap else g.groupMode, isGranted⟩
  else g

def grantUpgrade (upgrading : Option TxnId) (before after : List (LockRequest κ))
    (g : GrantState κ) : LockRequest κ × GroupMode :=
  if g.isGranted = false ∧ upgrading = some g.request.txnId ∧
      LockRequestQueue.otherHolds (before ++ g.request :: after) g.groupMode g.request.txnId =
        false then
    ({ g.request with granted := true }, .tabX)
  else (g.request, g.groupMode)

def grantTableOne (upgrading : Option TxnId) (keys : List (InsertKey κ))
    (before after : List (LockRequest κ)) (r : LockRequest κ) (group : GroupMode) :
    LockRequest κ × GroupMode :=
  grantUpgrade upgrading before after (grantReset keys (grantSwitch keys r group))

/-- `grant_lock` on a table queue; `before` holds the requests it has passed. -/
def grantTable (upgrading : Option TxnId) (keys : List (InsertKey κ)) :
    List (LockRequest κ) → List (LockRequest κ) → GroupMode → List (LockRequest κ) × GroupMode
  | before, [], group => (before, group)
  | before, r :: after, group =>
    grantTable upgrading keys (before ++ [(grantTableOne upgrading keys before after r group).1])
      after (grantTableOne upgrading keys before after r group).2

end Grant

/-- `grant_lock` on a record queue. -/
def grantRecord : List (LockRequest κ) → GroupMode → List (LockRequest κ) × GroupMode
  | [], group => ([], group)
  | r :: rest, group =>
    if r.granted = false ∧ r.lockMode = .shared ∧ group ≠ .x then
      ({ r with granted := true } :: (grantRecord rest .s).1, (grantRecord rest .s).2)
    else (r :: (grantRecord rest group).1, (grantRecord rest group).2)

def regrantRecordOne (upgrading : Option TxnId) (before after : List (LockRequest κ))
    (r : LockRequest κ) (group : GroupMode) : LockRequest κ × GroupMode :=
  if r.granted then (r, group)
  else if group = .noLock ∧ r.lockMode = .exlucsive then ({ r with granted := true }, .x)
  else if upgrading = some r.txnId ∧
      ((before ++ r :: after).any fun o => decide (o.txnId ≠ r.txnId) && o.granted) = false then
    ({ r with granted := true }, .x)
  else (r, group)

/-- The last loop of `unlock` on a record: exclusive requests that wait for it. -/
def regrantRecord (upgrading : Option TxnId) :
    List (LockRequest κ) → List (LockRequest κ) → GroupMode → List (LockRequest κ) × GroupMode
  | before, [], group => (before, group)
  | before, r :: after, group =>
    regrantRecord upgrading (before ++ [(regrantRecordOne upgrading before after r group).1]) after
      (regrantRecordOne upgrading before after r group).2

/-- The global lock table; `none` also stands for the null pointers that `operator[]` leaves. -/
abbrev Locks (κ : Type) := LockDataId → Option (LockRequestQueue κ)

def Locks.set (locks : Locks κ) (id : LockDataId) (q : Option (LockRequestQueue κ)) : Locks κ :=
  fun x => if x = id then q else locks x

namespace LockRequestQueue

/-- The request of `t` leaves the queue of a table, its keys too in group modes GAP and TAB_X. -/
def releaseTable (q : LockRequestQueue κ) (t : TxnId) : LockRequestQueue κ :=
  let q := if q.groupMode = .gap ∨ q.groupMode = .tabX then q.removeKeys t else q
  let requests := q.requestQueue.eraseP fun r => decide (r.txnId = t)
  ({ q with requestQueue := requests, groupMode := groupTable requests }).clearUpgrading t

def releaseRecord (q : LockRequestQueue κ) (t : TxnId) : LockRequestQueue κ :=
  let requests := q.requestQueue.eraseP fun r => decide (r.txnId = t)
  ({ q with requestQueue := requests, groupMode := groupRecord requests }).clearUpgrading t

def grantLockRecord (q : LockRequestQueue κ) : LockRequestQueue κ :=
  { q with
    requestQueue := (grantRecord q.requestQueue q.groupMode).1
    groupMode := (grantRecord q.requestQueue q.groupMode).2 }

def regrant (q : LockRequestQueue κ) : LockRequestQueue κ :=
  { q with
    requestQueue := (regrantRecord q.upgrading [] q.requestQueue q.groupMode).1
    groupMode := (regrantRecord q.upgrading [] q.requestQueue q.groupMode).2 }

variable [LinearOrder κ]

def grantLockTable (q : LockRequestQueue κ) : LockRequestQueue κ :=
  { q with
    requestQueue := (grantTable q.upgrading q.insertKeys [] q.requestQueue q.groupMode).1
    groupMode := (grantTable q.upgrading q.insertKeys [] q.requestQueue q.groupMode).2 }

/-- A waiting key whose exclusive request on its record the unlock of the table grants: it lies
in no gap any more, or its transaction is the one that upgrades on the table. -/
def frees (q : LockRequestQueue κ) (k : InsertKey κ) : Bool :=
  k.isWaited && (!q.keyInGap k.txnId k.index k.insertKey || decide (q.upgrading = some k.txnId))

/-- The key is freed and its transaction's request on the record is an exclusive one, so that
`unlock` of the table grants it. -/
def grantsKey (q : LockRequestQueue κ) (fd : Fd) (locks : Locks κ) (k : InsertKey κ) : Bool :=
  q.frees k &&
    decide (((locks (.record fd k.rid)).bind fun queueRec => queueRec.find k.txnId).map
      (·.lockMode) = some .exlucsive)

end LockRequestQueue

section Unlock

variable [LinearOrder κ]

/-- The loop of `unlock` over the insert keys of the table `q`. A missing record queue is a null
pointer that is followed. -/
def regrantKeys (fd : Fd) (q : LockRequestQueue κ) :
    List (InsertKey κ) → Locks κ → GroupMode → Option (List (InsertKey κ) × Locks κ × GroupMode)
  | [], locks, group => some ([], locks, group)
  | k :: rest, locks, group =>
    if k.isWaited then
      (locks (.record fd k.rid)).bind fun queueRec =>
        match queueRec.find k.txnId with
        | some r =>
          if r.lockMode = .exlucsive ∧ q.frees k then
            (regrantKeys fd q rest
              (locks.set (.record fd k.rid)
                (some (queueRec.update k.txnId fun r => { r with granted := true })))
              (if q.keyInGap k.txnId k.index k.insertKey then .x else group)).map
            fun out => ({ k with isWaited := false } :: out.1, out.2)
          else (regrantKeys fd q rest locks group).map fun out => (k :: out.1, out.2)
        | none => (regrantKeys fd q rest locks group).map fun out => (k :: out.1, out.2)
    else (regrantKeys fd q rest locks group).map fun out => (k :: out.1, out.2)

def unlockTable (locks : Locks κ) (t : TxnId) (fd : Fd) : Option (Locks κ) :=
  match locks (.table fd) with
  | none => some locks
  | some q =>
    match q.find t with
    | none => some locks
    | some _ =>
      let q := q.releaseTable t
      if q.requestQueue = [] ∧ q.insertKeys = [] then some (locks.set (.table fd) none)
      else
        let q := q.grantLockTable
        (regrantKeys fd q q.insertKeys locks q.groupMode).map fun out =>
          out.2.1.set (.table fd) (some { q with insertKeys := out.1, groupMode := out.2.2 })

def unlockRecord (locks : Locks κ) (t : TxnId) (fd : Fd) (rid : Rid) : Locks κ :=
  match locks (.record fd rid) with
  | none => locks
  | some q =>
    match q.find t with
    | none => locks
    | some _ =>
      let locks :=
        if q.groupMode = .x then
          locks.set (.table fd) ((locks (.table fd)).map fun queueTable => queueTable.removeKeys t)
        else locks
      let q := q.releaseRecord t
      if q.requestQueue = [] ∧ q.insertKeys = [] then locks.set (.record fd rid) none
      else
        let q := q.grantLockRecord
        match locks (.table fd) with
        | some queueTable =>
          if queueTable.groupMode ≠ .gap ∧ queueTable.groupMode ≠ .tabX then
            locks.set (.record fd rid) (some q.regrant)
          else locks.set (.record fd rid) (some q)
        | none => locks.set (.record fd rid) (some q)

end Unlock

end Grmdb
