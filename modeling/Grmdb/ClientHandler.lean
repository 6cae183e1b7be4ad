import Grmdb.Transaction

namespace Grmdb

abbrev ClientId := Nat

/-- Where a `client_handler` thread stands in its loop; `context->txn_` lives from
`SetTransaction` to the end of the iteration. -/
inductive HandlerPc where
  | reading
  | executing (txn : TxnId)
  | replying (txn : TxnId)
  | closed
  deriving DecidableEq, Repr

/-- The locals of `client_handler` that outlive one iteration; `none` is `INVALID_TXN_ID`. -/
structure Handler where
  txnId : Option TxnId
  pc : HandlerPc
  deriving DecidableEq, Repr

structure HandlerState where
  server : Server
  clients : ClientId → Handler

inductive HandlerEv where
  | request (c : ClientId)
  | write (c : ClientId) (body : LogBody)
  | beginStmt (c : ClientId)
  | commitStmt (c : ClientId)
  | abortStmt (c : ClientId)
  | checkpointStmt (c : ClientId)
  | throwAbort (c : ClientId)
  | done (c : ClientId)
  | reply (c : ClientId) (ok : Bool)
  | disconnect (c : ClientId)
  deriving DecidableEq, Repr

/-- `SetTransaction`: the transaction the statement runs in, a new implicit one when the client
has none or its last one has ended. -/
def Server.setTransaction (s : Server) (txnId : Option TxnId) : Server × TxnId :=
  match txnId with
  | none => (s.begin.setTxnMode s.nextTxnId false, s.nextTxnId)
  | some t =>
    if s.stateOf t = some .committed ∨ s.stateOf t = some .aborted then
      (s.begin.setTxnMode s.nextTxnId false, s.nextTxnId)
    else (s, t)

/-- The auto-commit at the end of the loop. -/
def Server.autoCommit (s : Server) (t : TxnId) : Server :=
  if s.txnModeOf t = some false then s.commit t else s

namespace HandlerState

def fresh (persist : Lsn) : HandlerState :=
  ⟨Server.fresh persist, fun _ => ⟨none, .reading⟩⟩

def put (s : HandlerState) (c : ClientId) (server : Server) (h : Handler) : HandlerState :=
  ⟨server, fun x => if x = c then h else s.clients x⟩

/-- One action of the handler of client `c`. `done` ends a statement in every other way than
the ones before it: normally, with a parse error or with an `RMDBError`, also one that is thrown
while `abort` rolls back. Whoever throws a `TransactionAbortException` has set ABORTED, and the
catch block calls `abort`. -/
def step (s : HandlerState) : HandlerEv → Option HandlerState
  | .request c =>
    match s.clients c with
    | ⟨txnId, .reading⟩ =>
      let (server, t) := s.server.setTransaction txnId
      some (s.put c server ⟨some t, .executing t⟩)
    | _ => none
  | .write c body =>
    match s.clients c with
    | ⟨txnId, .executing t⟩ =>
      if body.isData then some (s.put c (s.server.logRecord t body) ⟨txnId, .executing t⟩)
      else none
    | _ => none
  | .beginStmt c =>
    match s.clients c with
    | ⟨txnId, .executing t⟩ => some (s.put c (s.server.setTxnMode t true) ⟨txnId, .replying t⟩)
    | _ => none
  | .commitStmt c =>
    match s.clients c with
    | ⟨some t, .executing _⟩ => some (s.put c (s.server.commit t) ⟨some t, .replying t⟩)
    | _ => none
  | .abortStmt c =>
    match s.clients c with
    | ⟨some t, .executing _⟩ => some (s.put c (s.server.abort t) ⟨some t, .replying t⟩)
    | _ => none
  | .checkpointStmt c =>
    match s.clients c with
    | ⟨txnId, .executing t⟩ => some (s.put c s.server.checkpoint ⟨txnId, .replying t⟩)
    | _ => none
  | .throwAbort c =>
    match s.clients c with
    | ⟨txnId, .executing t⟩ =>
      some (s.put c ((s.server.setState t .aborted).abort t) ⟨txnId, .replying t⟩)
    | _ => none
  | .done c =>
    match s.clients c with
    | ⟨txnId, .executing t⟩ => some (s.put c s.server ⟨txnId, .replying t⟩)
    | _ => none
  | .reply c ok =>
    match s.clients c with
    | ⟨txnId, .replying t⟩ =>
      if ok then some (s.put c (s.server.autoCommit t) ⟨txnId, .reading⟩)
      else some (s.put c s.server ⟨txnId, .closed⟩)
    | _ => none
  | .disconnect c =>
    match s.clients c with
    | ⟨txnId, .reading⟩ => some (s.put c s.server ⟨txnId, .closed⟩)
    | _ => none

/-- The statement whose reply is sent did not abort an implicit transaction. -/
def RepliesToLive (s : HandlerState) : HandlerEv → Prop
  | .reply c true =>
    match (s.clients c).pc with
    | .replying t => s.server.stateOf t = some .aborted → s.server.txnModeOf t = some true
    | _ => True
  | _ => True

instance (s : HandlerState) (e : HandlerEv) : Decidable (s.RepliesToLive e) := by
  unfold RepliesToLive
  split
  · split <;> infer_instance
  · infer_instance

end HandlerState

end Grmdb
