import Grmdb.Analyze
import Grmdb.Runs
import Grmdb.Transaction

namespace Grmdb

open Runs

/-- How far a transaction's thread has come in `begin`, `commit` and `abort`. -/
inductive Phase where
  | idle
  | begun
  | running
  | committing
  | committed
  | aborting
  | aborted
  deriving DecidableEq, Repr

structure CommitState where
  server : Server
  phase : TxnId → Phase

/-- The calls on the log made by any number of clients, in any order. `commit` appends its
record in one step and returns in a later one; `flush` is any other `flush_log_to_disk`, as an
eviction or the interrupt handler makes it. -/
inductive CommitEv where
  | beginTxn
  | beginLog (t : TxnId)
  | write (t : TxnId) (body : LogBody)
  | commitLog (t : TxnId)
  | commitReturn (t : TxnId)
  | abortLog (t : TxnId)
  | abortReturn (t : TxnId)
  | checkpoint
  | flush
  deriving DecidableEq, Repr

namespace CommitState

def fresh (persist : Lsn) : CommitState := ⟨Server.fresh persist, fun _ => .idle⟩

abbrev file (s : CommitState) : List LogRecord := s.server.log.file

abbrev records (s : CommitState) : List LogRecord := s.server.log.records

def setPhase (s : CommitState) (t : TxnId) (p : Phase) : CommitState :=
  { s with phase := fun x => if x = t then p else s.phase x }

/-- Transaction `t` appends `body`, if it stands at one of `before`, and goes on to `after`. -/
def append (s : CommitState) (t : TxnId) (before : List Phase) (after : Phase) (body : LogBody) :
    Option CommitState :=
  if s.phase t ∈ before then
    some ({ s with server := s.server.logRecord t body }.setPhase t after)
  else none

def finish (s : CommitState) (t : TxnId) (before after : Phase) (state : TransactionState) :
    Option CommitState :=
  if s.phase t = before then
    some ({ s with server := s.server.setState t state }.setPhase t after)
  else none

def withLog (s : CommitState) (log : LogManager) : CommitState :=
  { s with server := { s.server with log := log } }

/-- The handler also commits transactions that have aborted or committed in a statement of
their own. -/
def step (s : CommitState) : CommitEv → Option CommitState
  | .beginTxn => some ({ s with server := s.server.beginTxn }.setPhase s.server.nextTxnId .begun)
  | .beginLog t => s.append t [.begun] .running .begin
  | .write t body => if body.isData then s.append t [.running] .running body else none
  | .commitLog t => s.append t [.running, .aborted, .committed] .committing .commit
  | .commitReturn t => s.finish t .committing .committed .committed
  | .abortLog t => s.append t [.running] .aborting .abort
  | .abortReturn t => s.finish t .aborting .aborted .aborted
  | .checkpoint =>
    some (s.withLog (s.server.log.addLogToBuffer none INVALID_LSN .checkpoint).flushLogToDisk)
  | .flush => some (s.withLog s.server.log.flushLogToDisk)

/-- The step moves the buffer, or what it appends to it, into the log file. -/
def flushes (s : CommitState) : CommitEv → Bool
  | .beginTxn | .checkpoint | .flush => true
  | .beginLog _ => s.server.log.isFull LogBody.begin.totLen
  | .write _ body => s.server.log.isFull body.totLen
  | .commitLog _ => s.server.log.isFull LogBody.commit.totLen
  | .abortLog _ => s.server.log.isFull LogBody.abort.totLen
  | .commitReturn _ | .abortReturn _ => false

/-- The COMMIT record of `t` and all its data records are in the log file, and `analyze` on
that file does not leave `t` to be rolled back. -/
def CommitDurable (s : CommitState) (t : TxnId) : Prop :=
  (∃ c ∈ s.file, c.logTid = some t ∧ c.body = .commit) ∧
  (∀ r ∈ s.records, r.logTid = some t → r.body.isData = true → r ∈ s.file) ∧
  AssocMap.lookup t (analyze s.file).att = none

instance (s : CommitState) (t : TxnId) : Decidable (CommitDurable s t) := by
  unfold CommitDurable
  infer_instance

/-- The COMMIT record of `t` has been appended. -/
def Closed (s : CommitState) (t : TxnId) : Prop :=
  s.phase t = .committing ∨ s.phase t = .committed

instance (s : CommitState) (t : TxnId) : Decidable (Closed s t) := by
  unfold Closed
  infer_instance

/-- Ids not handed out yet stand at `idle`, and only a transaction that has reached the end of
`commit` has a COMMIT record. -/
structure Inv (s : CommitState) : Prop where
  unused : ∀ t, s.server.nextTxnId ≤ t → s.phase t = .idle
  uncommitted : ∀ t, ¬ s.Closed t → ∀ r ∈ s.records, r.logTid = some t → r.body ≠ .commit

/-- What one step does to the log and to the phases. -/
structure StepLog (s : CommitState) (e : CommitEv) (s' : CommitState) : Prop where
  grows : ∃ new, s'.records = s.records ++ new ∧ ∀ t, ∀ r ∈ new, r.logTid = some t →
    (r.body = .commit → s'.Closed t) ∧ (s.Closed t → r.body = .commit)
  keeps : s.flushes e = false → s'.file = s.file
  moves : s.flushes e = true → s.records <+: s'.file
  ids : ∀ t, s'.server.nextTxnId ≤ t → s.phase t = .idle → s'.phase t = .idle
  idsMono : s.server.nextTxnId ≤ s'.server.nextTxnId
  closed : ∀ t, s.Closed t → s'.Closed t

@[simp] theorem setPhase_server (s : CommitState) (t : TxnId) (p : Phase) :
    (s.setPhase t p).server = s.server := rfl

@[simp] theorem withLog_log (s : CommitState) (log : LogManager) :
    (s.withLog log).server.log = log := rfl

theorem phase_setPhase (s : CommitState) (t u : TxnId) (p : Phase) :
    (s.setPhase t p).phase u = if u = t then p else s.phase u := rfl

theorem setPhase_idle {s : CommitState} {t u : TxnId} {p : Phase} (ht : s.phase t ≠ .idle)
    (hu : s.phase u = .idle) : (s.setPhase t p).phase u = .idle := by
  have hne : u ≠ t := by
    rintro rfl
    exact ht hu
  simp [phase_setPhase, hne, hu]

theorem setPhase_closed {s : CommitState} {t u : TxnId} {p : Phase}
    (ht : s.Closed t → p = .committing ∨ p = .committed) (hu : s.Closed u) :
    (s.setPhase t p).Closed u := by
  by_cases hut : u = t
  · subst hut
    simpa [Closed, phase_setPhase] using ht hu
  · simpa [Closed, phase_setPhase, hut] using hu

theorem append_stepLog {s s' : CommitState} {e : CommitEv} {t : TxnId} {before : List Phase}
    {after : Phase} {body : LogBody} (hidle : .idle ∉ before)
    (hc : body = .commit → after = .committing)
    (hb : body ≠ .commit → .committing ∉ before ∧ .committed ∉ before)
    (hf : s.flushes e = s.server.log.isFull body.totLen)
    (h : s.append t before after body = some s') : StepLog s e s' := by
  unfold append at h
  split at h
  next hp =>
    cases Option.some.inj h
    have hclosed : s.Closed t → body = .commit := by
      intro hct
      by_contra hne
      obtain ⟨h1, h2⟩ := hb hne
      rcases hct with hct | hct
      · exact h1 (hct ▸ hp)
      · exact h2 (hct ▸ hp)
    refine ⟨⟨[_], Server.logRecord_records s.server t body, ?_⟩, ?_, ?_, ?_, le_rfl, ?_⟩
    · intro u r hr hu
      rw [List.mem_singleton] at hr
      subst hr
      have : t = u := by simpa using hu
      subst this
      exact ⟨fun hbody => Or.inl (by simpa [phase_setPhase] using hc hbody), hclosed⟩
    · intro hn
      exact LogManager.add_file_of_room _ _ _ _ (hf ▸ hn)
    · intro hy
      have := LogManager.add_file_of_full s.server.log (some t) (s.server.prevLsnOf t) body
        (hf ▸ hy)
      exact ⟨[], by simpa [file, records] using this.symm⟩
    · intro u hu hq
      exact setPhase_idle (fun ht => hidle (ht ▸ hp)) hq
    · intro u hu
      exact setPhase_closed (s := { s with server := s.server.logRecord t body })
        (fun ht => Or.inl (hc (hclosed ht))) hu
  next => simp at h

theorem finish_stepLog {s s' : CommitState} {e : CommitEv} {t : TxnId} {before after : Phase}
    {state : TransactionState} (hidle : before ≠ .idle)
    (hb : before = .committing ∨ before = .committed → after = .committed)
    (hf : s.flushes e = false) (h : s.finish t before after state = some s') :
    StepLog s e s' := by
  unfold finish at h
  split at h
  next hp =>
    cases Option.some.inj h
    refine ⟨⟨[], by simp [records], by simp⟩, fun _ => rfl, ?_, ?_, le_rfl, ?_⟩
    · intro hy
      simp [hf] at hy
    · intro u hu hq
      exact setPhase_idle (fun ht => hidle (hp ▸ ht)) hq
    · intro u hu
      exact setPhase_closed (s := { s with server := s.server.setState t state })
        (fun ht => Or.inr (hb (hp ▸ ht))) hu
  next => simp at h

theorem step_stepLog {s s' : CommitState} {e : CommitEv} (hi : Inv s)
    (h : s.step e = some s') : StepLog s e s' := by
  cases e with
  | beginTxn =>
    cases Option.some.inj h
    have hidle := hi.unused s.server.nextTxnId le_rfl
    have hlog : s.server.beginTxn.log.file = s.records := LogManager.flush_file s.server.log
    refine ⟨⟨[], by simp [records], by simp⟩, by simp [flushes], ?_, ?_, ?_, ?_⟩
    · intro _
      exact ⟨[], by simpa [file] using hlog.symm⟩
    · intro u hu hq
      have hne : u ≠ s.server.nextTxnId := Nat.ne_of_gt (show s.server.nextTxnId + 1 ≤ u from hu)
      simpa [phase_setPhase, hne] using hq
    · exact Nat.le_succ _
    · intro u hu
      refine setPhase_closed (s := { s with server := s.server.beginTxn }) ?_ hu
      rintro (ht | ht) <;> simp [hidle] at ht
  | beginLog t => exact append_stepLog (by decide) (by simp) (by simp) rfl h
  | write t body =>
    simp only [step] at h
    split at h
    next hd =>
      refine append_stepLog (by decide) ?_ (by simp) rfl h
      rintro rfl
      simp [LogBody.isData] at hd
    next => simp at h
  | commitLog t => exact append_stepLog (by decide) (fun _ => rfl) (by simp) rfl h
  | commitReturn t => exact finish_stepLog (by decide) (fun _ => rfl) rfl h
  | abortLog t => exact append_stepLog (by decide) (by simp) (by simp) rfl h
  | abortReturn t => exact finish_stepLog (by decide) (by simp) rfl h
  | checkpoint =>
    cases Option.some.inj h
    refine ⟨⟨[⟨s.server.log.globalLsn, none, INVALID_LSN, .checkpoint⟩], ?_, by simp⟩,
      by simp [flushes], ?_, fun _ _ h => h, le_rfl, fun _ h => h⟩
    · simp [records, LogManager.add_records]
    · intro _
      simp only [file, records, withLog_log, LogManager.flush_file, LogManager.add_records]
      exact List.prefix_append _ _
  | flush =>
    cases Option.some.inj h
    refine ⟨⟨[], by simp [records], by simp⟩, by simp [flushes], ?_, fun _ _ h => h, le_rfl,
      fun _ h => h⟩
    intro _
    simp only [file, records, withLog_log, LogManager.flush_file]
    exact List.prefix_refl _

theorem inv_fresh (persist : Lsn) : Inv (fresh persist) :=
  ⟨fun _ _ => rfl, by simp [fresh, Server.fresh, LogManager.fresh, LogManager.records]⟩

theorem inv_step {s s' : CommitState} {e : CommitEv} (hi : Inv s) (h : s.step e = some s') :
    Inv s' := by
  have hl := step_stepLog hi h
  obtain ⟨new, hrec, hnew⟩ := hl.grows
  refine ⟨fun t ht => hl.ids t ht (hi.unused t (hl.idsMono.trans ht)), ?_⟩
  intro t hopen r hr ht
  rw [hrec, List.mem_append] at hr
  rcases hr with hr | hr
  · exact hi.uncommitted t (fun hc => hopen (hl.closed t hc)) r hr ht
  · exact fun hb => hopen ((hnew t r hr ht).1 hb)

theorem inv_run {s s' : CommitState} {tr : List CommitEv} (hi : Inv s)
    (h : run step s tr = some s') : Inv s' :=
  run_invariant_all (fun _ _ _ => inv_step) hi h

/-- Once `t` has a COMMIT record the log gains no other record of `t`; its file stays as it is
until some step flushes, and holds everything appended before that step then. -/
theorem closed_log {win : List CommitEv} {s s' : CommitState} {t : TxnId} (hi : Inv s)
    (hs : s.Closed t) (hr : run step s win = some s') :
    (∃ new, s'.records = s.records ++ new ∧ ∀ r ∈ new, r.logTid = some t → r.body = .commit) ∧
    (SomeStep step (fun s e => s.flushes e = true) s win → s.records <+: s'.file) ∧
    (¬ SomeStep step (fun s e => s.flushes e = true) s win → s'.file = s.file) := by
  induction win generalizing s with
  | nil =>
    cases Option.some.inj hr
    exact ⟨⟨[], by simp, by simp⟩, by simp [SomeStep], fun _ => rfl⟩
  | cons e win ih =>
    obtain ⟨mid, hstep, hrest⟩ := run_cons_eq_some.mp hr
    have hl := step_stepLog hi hstep
    obtain ⟨⟨new', hrec', hnew'⟩, hflush, hkeep⟩ := ih (inv_step hi hstep) (hl.closed t hs) hrest
    obtain ⟨new, hrec, hnew⟩ := hl.grows
    have hprefix : s.records <+: mid.records := ⟨new, hrec.symm⟩
    refine ⟨⟨new ++ new', by rw [hrec', hrec, List.append_assoc], ?_⟩, ?_, ?_⟩
    · intro r hmem ht
      rcases List.mem_append.mp hmem with hm | hm
      · exact (hnew t r hm ht).2 hs
      · exact hnew' r hm ht
    · intro hsome
      by_cases hlater : SomeStep step (fun s e => s.flushes e = true) mid win
      · exact hprefix.trans (hflush hlater)
      · rcases hsome with hnow | ⟨mid', hstep', hsome⟩
        · rw [hkeep hlater]
          exact hl.moves hnow
        · cases Option.some.inj (hstep.symm.trans hstep')
          exact absurd hsome hlater
    · intro hnone
      have hnow : s.flushes e = false := by
        by_contra hcon
        exact hnone (Or.inl (by simpa using hcon))
      rw [hkeep (fun hlater => hnone (Or.inr ⟨mid, hstep, hlater⟩)), hl.keeps hnow]

/-- Appending the COMMIT record does not bring it into the file. -/
theorem mem_file_logRecord_commit {s : CommitState} {t : TxnId} {c : LogRecord}
    (h : c ∈ (s.server.logRecord t .commit).log.file) : c ∈ s.records := by
  rw [Server.logRecord_log] at h
  by_cases hfull : s.server.log.isFull LogBody.commit.totLen
  · rwa [LogManager.add_file_of_full _ _ _ _ hfull] at h
  · rw [LogManager.add_file_of_room _ _ _ _ (by simpa using hfull)] at h
    exact List.mem_append_left _ h

/-- A return of `commit` finds the transaction's records on disk exactly when some call has
flushed the log since its first COMMIT record was appended. -/
theorem commitDurable_iff_flushed {persist : Lsn} {tr win : List CommitEv} {t : TxnId}
    {s s₁ s₂ s₃ : CommitState} (h : run step (fresh persist) tr = some s) (hopen : ¬ s.Closed t)
    (hcommit : s.step (.commitLog t) = some s₁) (hwin : run step s₁ win = some s₂)
    (hreturn : s₂.step (.commitReturn t) = some s₃) :
    CommitDurable s₃ t ↔ SomeStep step (fun s e => s.flushes e = true) s₁ win := by
  have hi := inv_run (inv_fresh persist) h
  have hi₁ := inv_step hi hcommit
  simp only [step, append] at hcommit
  split at hcommit
  next =>
    cases Option.some.inj hcommit
    simp only [step, finish] at hreturn
    split at hreturn
    next =>
      cases Option.some.inj hreturn
      obtain ⟨⟨new, hrec, hnew⟩, hflush, hkeep⟩ :=
        closed_log (t := t) hi₁ (Or.inl (by simp [phase_setPhase])) hwin
      have hrec₁ := Server.logRecord_records s.server t .commit
      constructor
      · rintro ⟨⟨c, hc, hct, hcb⟩, _⟩
        by_contra hnone
        have hcf : c ∈ s₂.file := hc
        rw [hkeep hnone] at hcf
        exact hi.uncommitted t hopen c (mem_file_logRecord_commit hcf) hct hcb
      · intro hsome
        obtain ⟨more, hmore⟩ := hflush hsome
        have hin : ∀ r ∈ (s.server.logRecord t .commit).log.records, r ∈ s₂.file := by
          intro r hr
          rw [← hmore]
          exact List.mem_append_left _ hr
        have hmoreNew : ∀ r ∈ more, r.logTid = some t → r.body = .commit := by
          intro r hr
          have hpre : s₂.file <+: s₂.records := List.prefix_append _ _
          obtain ⟨tail, htail⟩ := hpre
          rw [hrec, ← hmore, List.append_assoc] at htail
          have := List.append_cancel_left htail
          exact hnew r (this ▸ List.mem_append_left _ hr)
        refine ⟨⟨⟨s.server.log.globalLsn, some t, s.server.prevLsnOf t, .commit⟩,
          hin _ (by rw [hrec₁]; simp), rfl, rfl⟩, ?_, ?_⟩
        · intro r hr ht hd
          have hr₂ : r ∈ s₂.records := hr
          rw [hrec] at hr₂
          rcases List.mem_append.mp hr₂ with hr₂ | hr₂
          · exact hin r hr₂
          · rw [hnew r hr₂ ht] at hd
            simp [LogBody.isData] at hd
        · have hshape : s₂.file = s.records ++
              ⟨s.server.log.globalLsn, some t, s.server.prevLsnOf t, .commit⟩ :: more := by
            rw [← hmore]
            simp [records, LogManager.add_records]
          show AssocMap.lookup t (analyze s₂.file).att = none
          rw [hshape]
          exact analyze_committed rfl rfl hmoreNew
    next => simp at hreturn
  next => simp at hcommit

/-- One client inserts a row and commits. -/
def insertTrace : List CommitEv :=
  [.beginTxn, .beginLog 0, .write 0 (.insert [1] ⟨⟨1, 0⟩, "t", 1, 2⟩)]

/-- Another client begins before `commit` returns. -/
theorem commitDurable_iff_flushed_begin : ∃ s s₁ s₂ s₃,
    run step (fresh 0) insertTrace = some s ∧ ¬ s.Closed 0 ∧
    s.step (.commitLog 0) = some s₁ ∧ run step s₁ [.beginTxn] = some s₂ ∧
    s₂.step (.commitReturn 0) = some s₃ ∧ CommitDurable s₃ 0 :=
  ⟨_, _, _, _, rfl, by decide, rfl, rfl, rfl,
    (commitDurable_iff_flushed (show run step (fresh 0) insertTrace = some _ from rfl) (by decide)
      rfl (show run step _ [.beginTxn] = some _ from rfl) rfl).mpr (Or.inl rfl)⟩

/-- With no other call in between, nothing of the transaction is on disk when `commit` returns. -/
theorem not_commitDurable_alone : ∃ s,
    run step (fresh 0) (insertTrace ++ [.commitLog 0, .commitReturn 0]) = some s ∧
    s.file = [] ∧ ¬ CommitDurable s 0 :=
  ⟨_, rfl, rfl, by decide⟩

end CommitState

end Grmdb
