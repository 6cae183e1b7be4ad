import Grmdb.LockTable

namespace Grmdb

namespace LockRequestQueue

variable {κ : Type}

/-- The part of `lock_shared_on_record` that makes a new request. -/
def sharedNew (q : LockRequestQueue κ) (t : TxnId) : LockRequestQueue κ × Outcome :=
  if q.groupMode ≠ .x then
    ({ q with groupMode := .s }.push ⟨t, .shared, true, []⟩,
      .returns true)
  else (q.push ⟨t, .shared, false, []⟩).orDie t true

def lockSharedOnRecord (q : LockRequestQueue κ) (t : TxnId) : LockRequestQueue κ × Outcome :=
  match q.find t with
  | none => q.sharedNew t
  | some _ =>
    if q.groupMode = .x then
      if q.otherHoldsX t then (q.update t fun r => { r with granted := false }).orDie t false
      else (q.update t fun r => { r with granted := true }, .returns false)
    else if q.groupMode = .s then (q.update t fun r => { r with granted := true }, .returns false)
    else q.sharedNew t

/-- `wait_die` on the record queue and, while the table is in group mode GAP, on the table
queue. -/
def orDieBoth (queueRec queueTable : LockRequestQueue κ) (t : TxnId) (isNew : Bool) :
    LockRequestQueue κ × LockRequestQueue κ × Outcome :=
  if queueRec.dies t then (queueRec.withdraw t, queueTable, .aborts)
  else if queueTable.groupMode = .gap ∧ queueTable.dies t then
    (queueRec, queueTable.withdraw t, .aborts)
  else (queueRec, queueTable, .waits isNew)

/-- The same in the other order, as the branch for an empty record queue has it. -/
def orDieTableFirst (queueRec queueTable : LockRequestQueue κ) (t : TxnId) (isNew : Bool) :
    LockRequestQueue κ × LockRequestQueue κ × Outcome :=
  if queueTable.groupMode = .gap ∧ queueTable.dies t then
    (queueRec, queueTable.withdraw t, .aborts)
  else if queueRec.dies t then (queueRec.withdraw t, queueTable, .aborts)
  else (queueRec, queueTable, .waits isNew)

/-- `lock_exclusive_on_record_gap` after the insert key has been put into the table queue. -/
def exclusiveOnRecord (queueRec queueTable : LockRequestQueue κ) (t : TxnId) (isWaited : Bool) :
    LockRequestQueue κ × LockRequestQueue κ × Outcome :=
  match queueRec.find t with
  | some r =>
    if r.lockMode = .shared then
      if queueRec.upgrading ≠ none then (queueRec, queueTable, .aborts)
      else
        let queueRec := { queueRec with upgrading := some t }
        if queueRec.otherGranted t ∨ isWaited then
          orDieBoth (queueRec.update t fun r =>
            { r with granted := false, lockMode := .exlucsive }) queueTable t false
        else
          (({ queueRec with groupMode := .x }.update t fun r =>
            { r with granted := true, lockMode := .exlucsive }).clearUpgrading t, queueTable,
            .returns false)
    else if r.lockMode = .exlucsive then (queueRec, queueTable, .returns false)
    else exclusiveNew queueRec queueTable t isWaited
  | none => exclusiveNew queueRec queueTable t isWaited
where
  exclusiveNew (queueRec queueTable : LockRequestQueue κ) (t : TxnId) (isWaited : Bool) :
      LockRequestQueue κ × LockRequestQueue κ × Outcome :=
    let waiting := queueRec.push ⟨t, .exlucsive, false, []⟩
    let given := { queueRec with groupMode := .x }.push
      ⟨t, .exlucsive, true, []⟩
    if queueRec.requestQueue = [] then
      if isWaited then orDieTableFirst waiting queueTable t true
      else (given, queueTable, .returns true)
    else if queueRec.otherGranted t = false ∧ isWaited = false then
      (given, queueTable, .returns true)
    else orDieBoth waiting queueTable t true

section Gap

variable [LinearOrder κ]

/-- The insert key enters the table queue before the record queue is looked at. -/
def lockExclusiveOnRecordGap (queueRec queueTable : LockRequestQueue κ) (t : TxnId) (rid : Rid)
    (index : IndexId) (key : κ) : LockRequestQueue κ × LockRequestQueue κ × Outcome :=
  let isWaited := queueTable.keyInGap t index key
  exclusiveOnRecord queueRec
    { queueTable with insertKeys := queueTable.insertKeys ++ [⟨key, index, t, rid, isWaited⟩] }
    t isWaited

/-- `lock_GAP_on_table` for a transaction that has no request on the table yet. -/
def gapNew (q : LockRequestQueue κ) (t : TxnId) (g : Gap κ) : LockRequestQueue κ × Outcome :=
  if q.requestQueue = [] then
    if gapConflicts q.insertKeys t g then
      (q.push ⟨t, .gap, false, [{ g with conflicted := true }]⟩).orDie t true
    else
      ({ q with groupMode := .gap }.push ⟨t, .gap, false, [g]⟩,
        .returns true)
  else if q.groupMode = .tabX then
    let g := { g with conflicted := true }
    (q.push ⟨t, .gap, false, [g, g]⟩).orDie t true
  else if gapConflicts q.insertKeys t g then
    (q.push ⟨t, .gap, false, [{ g with conflicted := true }]⟩).orDie t true
  else (q.push ⟨t, .gap, false, [g]⟩, .returns true)

def lockGAPOnTable (q : LockRequestQueue κ) (t : TxnId) (lower upper : κ) (index : IndexId) :
    LockRequestQueue κ × Outcome :=
  let g : Gap κ := ⟨lower, upper, index, false⟩
  let q := if q.groupMode ≠ .tabX then { q with groupMode := .gap } else q
  match q.find t with
  | none => q.gapNew t g
  | some _ =>
    if q.groupMode = .tabX then
      if q.otherHoldsX t then
        (q.update t fun r => { r with
          lockMode := .gap
          gaps := r.gaps ++ [{ g with conflicted := true }] }).orDie t false
      else (q.update t fun r => { r with gaps := r.gaps ++ [g] }, .returns false)
    else if gapConflicts q.insertKeys t g then
      (q.update t fun r => { r with
        lockMode := .gap
        gaps := r.gaps ++ [{ g with conflicted := true }] }).orDie t false
    else
      (q.update t fun r => { r with lockMode := .gap, gaps := r.gaps ++ [g] }, .returns false)

end Gap

/-- `none` where control falls off the end of the function. -/
def intentionSharedNew (q : LockRequestQueue κ) (t : TxnId) :
    Option (LockRequestQueue κ × Outcome) :=
  let given := q.push ⟨t, .intensionShared, true, []⟩
  if q.requestQueue = [] then some ({ given with groupMode := .is }, .returns true)
  else if q.groupMode = .gap ∨ q.groupMode = .is ∨ q.groupMode = .ix then
    some (given, .returns true)
  else if q.groupMode = .tabX then some ((q.push ⟨t, .intensionShared, false, []⟩).orDie t true)
  else none

def lockISOnTable (q : LockRequestQueue κ) (t : TxnId) : Option (LockRequestQueue κ × Outcome) :=
  match q.find t with
  | none => q.intentionSharedNew t
  | some _ =>
    if q.groupMode = .gap ∨ q.groupMode = .is ∨ q.groupMode = .ix then
      some (q.update t fun r => { r with granted := true }, .returns false)
    else if q.groupMode = .tabX then
      if q.otherHoldsX t then some ((q.update t fun r => { r with granted := false }).orDie t false)
      else some (q.update t fun r => { r with granted := true }, .returns false)
    else q.intentionSharedNew t

/-- In group mode NO_LOCK (or a mode of records) the request stays without a grant. -/
def intentionExclusiveNew (q : LockRequestQueue κ) (t : TxnId) : LockRequestQueue κ × Outcome :=
  let given := q.push ⟨t, .intensionExlucsive, true, []⟩
  if q.requestQueue = [] then ({ given with groupMode := .ix }, .returns true)
  else if q.groupMode = .gap ∨ q.groupMode = .ix then (given, .returns true)
  else if q.groupMode = .is then ({ given with groupMode := .ix }, .returns true)
  else if q.groupMode = .tabX then (q.push ⟨t, .intensionExlucsive, false, []⟩).orDie t true
  else (q.push ⟨t, .intensionExlucsive, false, []⟩, .returns true)

def lockIXOnTable (q : LockRequestQueue κ) (t : TxnId) : LockRequestQueue κ × Outcome :=
  match q.find t with
  | none => q.intentionExclusiveNew t
  | some _ =>
    if q.groupMode = .gap ∨ q.groupMode = .ix then
      (q.update t fun r => { r with
        granted := true
        lockMode := if r.lockMode = .intensionShared then .intensionExlucsive else r.lockMode },
        .returns false)
    else if q.groupMode = .is then
      ({ q with groupMode := .ix }.update t fun r =>
        { r with granted := true, lockMode := .intensionExlucsive }, .returns false)
    else if q.groupMode = .tabX then
      if q.otherHoldsX t then
        (q.update t fun r => { r with
          granted := false
          lockMode := if r.lockMode = .gap then .gap else .intensionExlucsive }).orDie t false
      else (q.update t fun r => { r with granted := true }, .returns false)
    else q.intentionExclusiveNew t

/-- The holder test of `lock_exclusive_on_table` and of `grant_lock`; gaps count only in group
mode GAP. -/
def otherHolds (requests : List (LockRequest κ)) (groupMode : GroupMode) (t : TxnId) : Bool :=
  requests.any fun r => decide (r.txnId ≠ t) &&
    (r.granted || decide (groupMode = .gap) && decide (r.lockMode = .gap) && r.hasGap)

def lockExclusiveOnTable (q : LockRequestQueue κ) (t : TxnId) : LockRequestQueue κ × Outcome :=
  match q.find t with
  | some _ =>
    if q.upgrading ≠ none then (q, .aborts)
    else
      let q := { q with upgrading := some t }
      if otherHolds q.requestQueue q.groupMode t then
        (q.update t fun r => { r with granted := false, lockMode := .exlucsive }).orDie t false
      else
        (({ q with groupMode := .tabX }.update t fun r =>
          { r with granted := true, lockMode := .exlucsive }).clearUpgrading t, .returns false)
  | none =>
    let given := { q with groupMode := .tabX }.push
      ⟨t, .exlucsive, true, []⟩
    if q.requestQueue = [] then (given, .returns true)
    else if q.groupMode ≠ .noLock then (q.push ⟨t, .exlucsive, false, []⟩).orDie t true
    else (given, .returns true)

end LockRequestQueue

end Grmdb
