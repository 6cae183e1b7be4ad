import Grmdb.HandlerInvariant
import Grmdb.Runs

namespace Grmdb

open Runs

namespace HandlerState

/-- What a handler action does to the server. -/
inductive Moves (s : HandlerState) : HandlerEv → Server → Prop
  | same (e : HandlerEv) : Moves s e s.server
  | begin (c : ClientId) :
    Moves s (.request c) (s.server.begin.setTxnMode s.server.nextTxnId false)
  | write {c : ClientId} {t : TxnId} {body : LogBody} :
    Moves s (.write c body) (s.server.logRecord t body)
  | beginStmt {c : ClientId} {t : TxnId} : Moves s (.beginStmt c) (s.server.setTxnMode t true)
  | commitStmt {c : ClientId} {t u : TxnId} : s.clients c = ⟨some t, .executing u⟩ →
    Moves s (.commitStmt c) (s.server.commit t)
  | abortStmt {c : ClientId} {t : TxnId} : Moves s (.abortStmt c) (s.server.abort t)
  | checkpointStmt {c : ClientId} : Moves s (.checkpointStmt c) s.server.checkpoint
  | throwAbort {c : ClientId} {t : TxnId} :
    Moves s (.throwAbort c) ((s.server.setState t .aborted).abort t)
  | autoCommit {c : ClientId} {t : TxnId} : (s.clients c).pc = .replying t →
    s.server.txnModeOf t = some false → Moves s (.reply c true) (s.server.commit t)

theorem step_moves {s s' : HandlerState} {e : HandlerEv} (h : s.step e = some s') :
    Moves s e s'.server := by
  cases e with
  | request c =>
    simp only [step] at h
    split at h
    next txnId hc =>
      cases Option.some.inj h
      show Moves s (.request c) (s.server.setTransaction txnId).1
      unfold Server.setTransaction
      cases txnId with
      | none => exact .begin c
      | some t =>
        dsimp only
        split
        · exact .begin c
        · exact .same _
    next => simp at h
  | write c body =>
    simp only [step] at h
    split at h
    next =>
      split at h
      next =>
        cases Option.some.inj h
        exact .write
      next => simp at h
    next => simp at h
  | beginStmt c =>
    simp only [step] at h
    split at h
    next =>
      cases Option.some.inj h
      exact .beginStmt
    next => simp at h
  | commitStmt c =>
    simp only [step] at h
    split at h
    next t u hc =>
      cases Option.some.inj h
      exact .commitStmt hc
    next => simp at h
  | abortStmt c =>
    simp only [step] at h
    split at h
    next =>
      cases Option.some.inj h
      exact .abortStmt
    next => simp at h
  | checkpointStmt c =>
    simp only [step] at h
    split at h
    next =>
      cases Option.some.inj h
      exact .checkpointStmt
    next => simp at h
  | throwAbort c =>
    simp only [step] at h
    split at h
    next =>
      cases Option.some.inj h
      exact .throwAbort
    next => simp at h
  | done c =>
    simp only [step] at h
    split at h
    next =>
      cases Option.some.inj h
      exact .same _
    next => simp at h
  | reply c ok =>
    simp only [step] at h
    split at h
    next txnId t hc =>
      split at h
      next hok =>
        cases Option.some.inj h
        subst hok
        show Moves s (.reply c true) (s.server.autoCommit t)
        by_cases hm : s.server.txnModeOf t = some false
        · rw [autoCommit_of_implicit hm]
          exact .autoCommit (by rw [hc]) hm
        · rw [autoCommit_of_explicit hm]
          exact .same _
      next =>
        cases Option.some.inj h
        exact .same _
    next => simp at h
  | disconnect c =>
    simp only [step] at h
    split at h
    next =>
      cases Option.some.inj h
      exact .same _
    next => simp at h

theorem records_step {s s' : HandlerState} {e : HandlerEv} (h : s.step e = some s') :
    s.server.log.records <+: s'.server.log.records := by
  have hm := step_moves h
  generalize s'.server = server at hm
  cases hm with
  | same => exact List.prefix_refl _
  | begin =>
    obtain ⟨r, _, _, hrec⟩ := Server.begin_records s.server
    rw [Server.setTxnMode_log, hrec]
    exact List.prefix_append _ _
  | write =>
    rw [Server.logRecord_records]
    exact List.prefix_append _ _
  | beginStmt => exact List.prefix_refl _
  | commitStmt =>
    rw [Server.commit_records]
    exact List.prefix_append _ _
  | abortStmt =>
    rw [Server.abort_records]
    exact List.prefix_append _ _
  | checkpointStmt =>
    rw [Server.checkpoint_records]
    exact List.prefix_append _ _
  | throwAbort =>
    rw [Server.abort_records]
    exact List.prefix_append _ _
  | autoCommit =>
    rw [Server.commit_records]
    exact List.prefix_append _ _

theorem aborted_step {s s' : HandlerState} {e : HandlerEv} {t : TxnId} (hi : Inv s)
    (hg : s.RepliesToLive e) (h : s.step e = some s')
    (ht : s.server.stateOf t = some .aborted) : s'.server.stateOf t = some .aborted := by
  have hm := step_moves h
  generalize s'.server = server at hm
  cases hm with
  | same => exact ht
  | begin =>
    have hne : t ≠ s.server.nextTxnId := by
      rintro rfl
      simp [(hi.unused s.server.nextTxnId).mpr le_rfl] at ht
    rw [Server.setTxnMode_stateOf, Server.begin_stateOf, if_neg hne]
    exact ht
  | write =>
    rw [Server.logRecord_stateOf]
    exact ht
  | beginStmt =>
    rw [Server.setTxnMode_stateOf]
    exact ht
  | @commitStmt c u v hc =>
    have hu : t ≠ u := by
      rintro rfl
      obtain rfl : t = v := by simpa [hc] using hi.context c v (by simp [hc])
      simp [hi.live c t (by simp [hc])] at ht
    rw [Server.stateOf_commit, if_neg hu]
    exact ht
  | @abortStmt c u =>
    rw [Server.stateOf_abort]
    split
    · simp [ht]
    · exact ht
  | checkpointStmt => exact ht
  | @throwAbort c u =>
    rw [Server.stateOf_abort, Server.setState_stateOf]
    split
    · simp [ht]
    · exact ht
  | @autoCommit c u hpc hmode =>
    have hu : t ≠ u := by
      rintro rfl
      simp only [RepliesToLive, hpc] at hg
      simp [hg ht] at hmode
    rw [Server.stateOf_commit, if_neg hu]
    exact ht

theorem records_run {s s' : HandlerState} {tr : List HandlerEv} (h : run step s tr = some s') :
    s.server.log.records <+: s'.server.log.records :=
  run_invariant_all (I := fun q => s.server.log.records <+: q.server.log.records)
    (fun _ _ _ hq hst => hq.trans (records_step hst)) (List.prefix_refl _) h

/-- An auto-commit of an aborted transaction leaves it with both records. -/
theorem both_of_bad_step {s s' : HandlerState} {e : HandlerEv} (hi : Inv s)
    (hbad : ¬ s.RepliesToLive e) (h : s.step e = some s') :
    ∃ t, HasRecord s'.server.log.records t .abort ∧ HasRecord s'.server.log.records t .commit := by
  match e with
  | .reply c true =>
    simp only [step] at h
    split at h
    next txnId u hc =>
      simp only [RepliesToLive, hc, Classical.not_imp] at hbad
      obtain ⟨hst, hmode⟩ := hbad
      rw [if_pos trivial] at h
      cases Option.some.inj h
      have himplicit : s.server.txnModeOf u = some false := by
        unfold Server.txnModeOf at hmode ⊢
        unfold Server.stateOf at hst
        cases hu : s.server.txns u with
        | none => simp [hu] at hst
        | some txn => simpa [hu] using hmode
      have hended := hi.ended u
      rw [hst] at hended
      refine ⟨u, ?_, ?_⟩
      · show HasRecord (s.server.autoCommit u).log.records u .abort
        rw [autoCommit_of_implicit himplicit, Server.commit_records, hasRecord_concat]
        exact Or.inl hended.2.1
      · show HasRecord (s.server.autoCommit u).log.records u .commit
        rw [autoCommit_of_implicit himplicit, Server.commit_records, hasRecord_concat]
        exact Or.inr ⟨rfl, rfl⟩
    next => simp at h
  | .reply _ false | .request _ | .write _ _ | .beginStmt _ | .commitStmt _ | .abortStmt _
  | .checkpointStmt _ | .throwAbort _ | .done _ | .disconnect _ => exact absurd trivial hbad

theorem both_of_bad_run {s s' : HandlerState} {tr : List HandlerEv} (hi : Inv s)
    (hbad : ¬ MeetsAll step RepliesToLive s tr) (h : run step s tr = some s') :
    ∃ t, HasRecord s'.server.log.records t .abort ∧ HasRecord s'.server.log.records t .commit := by
  induction tr generalizing s with
  | nil => exact absurd trivial hbad
  | cons e tr ih =>
    obtain ⟨mid, hstep, hrest⟩ := run_cons_eq_some.mp h
    by_cases hg : s.RepliesToLive e
    · refine ih (inv_step hi hg hstep) ?_ hrest
      intro hall
      exact hbad (meetsAll_cons hstep hg hall)
    · obtain ⟨t, ha, hc⟩ := both_of_bad_step hi hg hstep
      exact ⟨t, ha.mono (records_run hrest), hc.mono (records_run hrest)⟩

/-- The outcome of every transaction is final at the end `s` of the run `tr`: none that had
aborted is committed, none has both records, and `analyze` sees each as it ended. -/
structure OutcomeFinal (persist : Lsn) (tr : List HandlerEv) (s : HandlerState) : Prop where
  noRevival : ∀ tr₁ tr₂ s₁ t, tr = tr₁ ++ tr₂ → run step (fresh persist) tr₁ = some s₁ →
    s₁.server.stateOf t = some .aborted → s.server.stateOf t ≠ some .committed
  oneOutcome : ∀ t, ¬ (HasRecord s.server.log.records t .abort ∧
    HasRecord s.server.log.records t .commit)
  classified : s.server.Ended

/-- Outcomes are final exactly in the runs that send no reply to a statement which aborted an
implicit transaction. -/
theorem outcomeFinal_iff {persist : Lsn} {tr : List HandlerEv} {s : HandlerState}
    (h : run step (fresh persist) tr = some s) :
    OutcomeFinal persist tr s ↔ MeetsAll step RepliesToLive (fresh persist) tr := by
  constructor
  · intro hfinal
    by_contra hbad
    obtain ⟨t, hboth⟩ := both_of_bad_run (inv_fresh persist) hbad h
    exact hfinal.oneOutcome t hboth
  · intro hall
    have hinv : Inv s :=
      run_invariant (fun _ _ _ hi hg => inv_step hi hg) (inv_fresh persist) hall h
    refine ⟨?_, Server.Ended.oneOutcome hinv.ended, hinv.ended⟩
    rintro tr₁ tr₂ s₁ t rfl hrun₁ hab hcom
    rw [run_append, hrun₁] at h
    have hi₁ : Inv s₁ :=
      run_invariant (fun _ _ _ hi hg => inv_step hi hg) (inv_fresh persist) (meetsAll_left hall)
        hrun₁
    have hkeep : Inv s ∧ s.server.stateOf t = some .aborted :=
      run_invariant (I := fun q => Inv q ∧ q.server.stateOf t = some .aborted)
        (fun _ _ _ hq hg hst => ⟨inv_step hq.1 hg hst, aborted_step hq.1 hg hst hq.2⟩)
        ⟨hi₁, hab⟩ (meetsAll_suffix hall hrun₁) h
    simp [hkeep.2] at hcom

/-- An explicit transaction inserts a row and is rolled back; the next statement commits. -/
def rollbackTrace : List HandlerEv :=
  [.request 0, .beginStmt 0, .reply 0 true,
    .request 0, .write 0 (.insert [1] ⟨⟨1, 0⟩, "t", 1, 2⟩), .done 0, .reply 0 true,
    .request 0, .abortStmt 0, .reply 0 true,
    .request 0, .write 0 (.insert [2] ⟨⟨1, 0⟩, "t", 1, 2⟩), .done 0, .reply 0 true]

theorem outcomeFinal_iff_rollback : ∃ s, run step (fresh 0) rollbackTrace = some s ∧
    OutcomeFinal 0 rollbackTrace s :=
  ⟨_, rfl, (outcomeFinal_iff rfl).mpr (by decide)⟩

/-- A single insert that violates a constraint aborts and is then committed. -/
def implicitAbortTrace : List HandlerEv := [.request 0, .throwAbort 0, .reply 0 true]

theorem not_outcomeFinal_implicit : ∃ s₁ s,
    run step (fresh 0) (implicitAbortTrace.take 2) = some s₁ ∧
    run step (fresh 0) implicitAbortTrace = some s ∧
    s₁.server.stateOf 0 = some .aborted ∧ s.server.stateOf 0 = some .committed ∧
    s.server.log.records.map (·.body) = [.begin, .abort, .commit] ∧
    ¬ OutcomeFinal 0 implicitAbortTrace s :=
  ⟨_, _, rfl, rfl, rfl, rfl, rfl, fun h => h.noRevival (implicitAbortTrace.take 2)
    (implicitAbortTrace.drop 2) _ 0 rfl rfl rfl rfl⟩

end HandlerState

end Grmdb
