import Grmdb.LogManager

namespace Grmdb

inductive TransactionState where
  | default
  | growing
  | shrinking
  | committed
  | aborted
  deriving DecidableEq, Repr

structure Transaction where
  txnId : TxnId
  state : TransactionState
  txnMode : Bool
  prevLsn : Lsn
  deriving DecidableEq, Repr

/-- The constructor: state DEFAULT and no log record yet. -/
def Transaction.new (t : TxnId) : Transaction := ⟨t, .default, false, INVALID_LSN⟩

/-- The transaction table and the log the client handlers share. -/
structure Server where
  log : LogManager
  txns : TxnId → Option Transaction
  nextTxnId : TxnId

def Server.fresh (persist : Lsn) : Server := ⟨LogManager.fresh persist, fun _ => none, 0⟩

def Server.stateOf (s : Server) (t : TxnId) : Option TransactionState := (s.txns t).map (·.state)

def Server.prevLsnOf (s : Server) (t : TxnId) : Lsn :=
  match s.txns t with
  | some txn => txn.prevLsn
  | none => INVALID_LSN

def Server.modify (s : Server) (t : TxnId) (f : Transaction → Transaction) : Server :=
  { s with txns := fun x => if x = t then (s.txns x).map f else s.txns x }

def Server.setState (s : Server) (t : TxnId) (state : TransactionState) : Server :=
  s.modify t fun txn => { txn with state := state }

/-- One record of transaction `t`, chained to its previous one. -/
def Server.logRecord (s : Server) (t : TxnId) (body : LogBody) : Server :=
  { s with log := s.log.addLogToBuffer (some t) (s.prevLsnOf t) body }.modify t
    fun txn => { txn with prevLsn := s.log.globalLsn }

/-- `begin(nullptr)` up to the release of its latch: a new id, a log flush, state GROWING. -/
def Server.beginTxn (s : Server) : Server :=
  { log := s.log.flushLogToDisk
    txns := fun x =>
      if x = s.nextTxnId then some { Transaction.new x with state := .growing } else s.txns x
    nextTxnId := s.nextTxnId + 1 }

def Server.setTxnMode (s : Server) (t : TxnId) (mode : Bool) : Server :=
  s.modify t fun txn => { txn with txnMode := mode }

def Server.txnModeOf (s : Server) (t : TxnId) : Option Bool := (s.txns t).map (·.txnMode)

def Server.begin (s : Server) : Server := s.beginTxn.logRecord s.nextTxnId .begin

/-- The end of `commit`: the COMMIT record is appended, then the state is set. The locks are
released before that. -/
def Server.commit (s : Server) (t : TxnId) : Server :=
  (s.logRecord t .commit).setState t .committed

/-- The end of `abort`, after the rollback and the release of the locks. -/
def Server.abort (s : Server) (t : TxnId) : Server :=
  (s.logRecord t .abort).setState t .aborted

def Server.checkpoint (s : Server) : Server :=
  { s with log := (s.log.addLogToBuffer none INVALID_LSN .checkpoint).flushLogToDisk }

@[simp] theorem Server.modify_log (s : Server) (t : TxnId) (f : Transaction → Transaction) :
    (s.modify t f).log = s.log := rfl

@[simp] theorem Server.modify_nextTxnId (s : Server) (t : TxnId) (f : Transaction → Transaction) :
    (s.modify t f).nextTxnId = s.nextTxnId := rfl

@[simp] theorem Server.logRecord_nextTxnId (s : Server) (t : TxnId) (b : LogBody) :
    (s.logRecord t b).nextTxnId = s.nextTxnId := rfl

@[simp] theorem Server.logRecord_log (s : Server) (t : TxnId) (b : LogBody) :
    (s.logRecord t b).log = s.log.addLogToBuffer (some t) (s.prevLsnOf t) b := rfl

@[simp] theorem Server.setState_log (s : Server) (t : TxnId) (st : TransactionState) :
    (s.setState t st).log = s.log := rfl

@[simp] theorem Server.setState_nextTxnId (s : Server) (t : TxnId) (st : TransactionState) :
    (s.setState t st).nextTxnId = s.nextTxnId := rfl

theorem Server.logRecord_records (s : Server) (t : TxnId) (b : LogBody) :
    (s.logRecord t b).log.records =
      s.log.records ++ [⟨s.log.globalLsn, some t, s.prevLsnOf t, b⟩] := by
  rw [logRecord_log, LogManager.add_records]

@[simp] theorem Server.logRecord_stateOf (s : Server) (t u : TxnId) (b : LogBody) :
    (s.logRecord t b).stateOf u = s.stateOf u := by
  simp only [logRecord, modify, stateOf]
  split <;> cases s.txns u <;> rfl

theorem Server.setState_stateOf (s : Server) (t u : TxnId) (st : TransactionState) :
    (s.setState t st).stateOf u =
      if u = t then (s.stateOf u).map (fun _ => st) else s.stateOf u := by
  simp only [setState, modify, stateOf]
  split <;> cases s.txns u <;> rfl

@[simp] theorem Server.setTxnMode_log (s : Server) (t : TxnId) (mode : Bool) :
    (s.setTxnMode t mode).log = s.log := rfl

@[simp] theorem Server.setTxnMode_nextTxnId (s : Server) (t : TxnId) (mode : Bool) :
    (s.setTxnMode t mode).nextTxnId = s.nextTxnId := rfl

@[simp] theorem Server.setTxnMode_stateOf (s : Server) (t u : TxnId) (mode : Bool) :
    (s.setTxnMode t mode).stateOf u = s.stateOf u := by
  simp only [setTxnMode, modify, stateOf]
  split <;> cases s.txns u <;> rfl

theorem Server.beginTxn_stateOf (s : Server) (u : TxnId) :
    s.beginTxn.stateOf u = if u = s.nextTxnId then some .growing else s.stateOf u := by
  simp only [beginTxn, stateOf]
  split <;> rfl

@[simp] theorem Server.beginTxn_records (s : Server) : s.beginTxn.log.records = s.log.records :=
  LogManager.flush_records s.log

end Grmdb
