import Grmdb.CommitDurability
import Grmdb.LockSystem

namespace Grmdb

open AssocMap Runs

variable {κ : Type}

def LockEv.txn : LockEv κ → TxnId
  | .lockSharedOnRecord t _ _ | .lockExclusiveOnRecordGap t _ _ _ _ | .lockGAPOnTable t _ _ _ _
  | .lockISOnTable t _ | .lockIXOnTable t _ | .lockExclusiveOnTable t _ | .wake t | .finish t
  | .unlock t _ => t

/-- The data ids that a lock call asks for. -/
def LockEv.asks : LockEv κ → List LockDataId
  | .lockSharedOnRecord _ fd rid => [.record fd rid]
  | .lockExclusiveOnRecordGap _ fd rid _ _ => [.record fd rid, .table fd]
  | .lockGAPOnTable _ fd _ _ _ | .lockISOnTable _ fd | .lockIXOnTable _ fd
  | .lockExclusiveOnTable _ fd => [.table fd]
  | .wake _ | .finish _ | .unlock _ _ => []

/-- The data ids on which the step from `s` to `s'` hands its transaction a lock: a call that has
returned, or a wait that is over. -/
def LockState.obtains [LinearOrder κ] (s s' : LockState κ) (e : LockEv κ) : List LockDataId :=
  match e with
  | .wake t =>
    match s.phase t with
    | .waiting w => w.entered
    | _ => []
  | e => if s'.phase e.txn = .running then e.asks else []

/-- `granted` has got a lock that `committer` released in `commit`; the log stood at `since`. -/
structure Follow where
  granted : TxnId
  committer : TxnId
  since : Lsn
  deriving DecidableEq, Repr

/-- The lock manager and the log that the clients share. `commits` are the transactions that have
entered `commit`, `releases` the locks that it has released; `follows` records who got them. -/
structure OrderState (κ : Type) where
  lock : LockState κ
  log : CommitState
  commits : List TxnId
  releases : List (TxnId × LockDataId)
  follows : List Follow

inductive OrderEv (κ : Type) where
  | lock (e : LockEv κ)
  | commit (t : TxnId)
  | log (e : CommitEv)
  deriving DecidableEq, Repr

/-- LSNs grow along the log. -/
structure LogManager.Numbered (lm : LogManager) : Prop where
  increasing : lm.records.Pairwise fun r q => r.lsn < q.lsn
  below : ∀ r ∈ lm.records, r.lsn < lm.globalLsn

theorem LogManager.Numbered.concat {lm lm' : LogManager} (h : lm.Numbered) {r : LogRecord}
    (hrec : lm'.records = lm.records ++ [r]) (hlsn : r.lsn = lm.globalLsn)
    (hnext : lm'.globalLsn = lm.globalLsn + 1) : lm'.Numbered := by
  refine ⟨?_, ?_⟩
  · rw [hrec, List.pairwise_append]
    refine ⟨h.increasing, List.pairwise_singleton _ _, fun q hq r' hr' => ?_⟩
    rw [List.mem_singleton.mp hr', hlsn]
    exact h.below q hq
  · rw [hrec, hnext]
    intro q hq
    rcases List.mem_append.mp hq with hq | hq
    · have := h.below q hq
      lia
    · rw [List.mem_singleton.mp hq, hlsn]
      lia

/-- After a COMMIT record of a transaction there are only COMMIT records of it. -/
def CommitLast (r q : LogRecord) : Prop :=
  ∀ t, r.logTid = some t → r.body = .commit → q.logTid = some t → q.body = .commit

namespace CommitState

/-- A step appends nothing, or one record under the next LSN. -/
theorem step_log {s s' : CommitState} {e : CommitEv} (h : s.step e = some s') :
    (s'.records = s.records ∧ s'.server.log.globalLsn = s.server.log.globalLsn) ∨
    ∃ r, s'.records = s.records ++ [r] ∧ r.lsn = s.server.log.globalLsn ∧
      s'.server.log.globalLsn = s.server.log.globalLsn + 1 := by
  have happend : ∀ {t : TxnId} {before : List Phase} {after : Phase} {body : LogBody},
      s.append t before after body = some s' → ∃ r, s'.records = s.records ++ [r] ∧
        r.lsn = s.server.log.globalLsn ∧
        s'.server.log.globalLsn = s.server.log.globalLsn + 1 := by
    intro t before after body h
    unfold append at h
    split at h
    next =>
      cases Option.some.inj h
      exact ⟨_, Server.logRecord_records s.server t body, rfl, by simp⟩
    next => simp at h
  have hfinish : ∀ {t : TxnId} {before after : Phase} {state : TransactionState},
      s.finish t before after state = some s' → s'.records = s.records ∧
        s'.server.log.globalLsn = s.server.log.globalLsn := by
    intro t before after state h
    unfold finish at h
    split at h
    next =>
      cases Option.some.inj h
      exact ⟨rfl, rfl⟩
    next => simp at h
  cases e with
  | beginTxn =>
    cases Option.some.inj h
    exact Or.inl ⟨Server.beginTxn_records s.server, LogManager.flush_globalLsn s.server.log⟩
  | beginLog t => exact Or.inr (happend h)
  | write t body =>
    simp only [step] at h
    split at h
    next => exact Or.inr (happend h)
    next => simp at h
  | commitLog t => exact Or.inr (happend h)
  | commitReturn t => exact Or.inl (hfinish h)
  | abortLog t => exact Or.inr (happend h)
  | abortReturn t => exact Or.inl (hfinish h)
  | checkpoint =>
    cases Option.some.inj h
    refine Or.inr ⟨⟨s.server.log.globalLsn, none, INVALID_LSN, .checkpoint⟩, ?_, rfl, ?_⟩
    · simp [records, LogManager.add_records]
    · simp
  | flush =>
    cases Option.some.inj h
    exact Or.inl ⟨LogManager.flush_records s.server.log, LogManager.flush_globalLsn _⟩

/-- A transaction at or past the end of `commit` has a COMMIT record. -/
def Recorded (s : CommitState) : Prop :=
  ∀ t, s.Closed t → ∃ c ∈ s.records, c.logTid = some t ∧ c.body = .commit

theorem recorded_setPhase {s s' : CommitState} {t : TxnId} {p : Phase} (hr : s.Recorded)
    (hphase : s'.phase = (s.setPhase t p).phase) (hsub : ∀ r ∈ s.records, r ∈ s'.records)
    (hself : p = .committing ∨ p = .committed →
      ∃ c ∈ s'.records, c.logTid = some t ∧ c.body = .commit) : s'.Recorded := by
  intro u hu
  by_cases hut : u = t
  · subst hut
    refine hself ?_
    simpa [Closed, hphase, phase_setPhase] using hu
  · have hold : s.Closed u := by simpa [Closed, hphase, phase_setPhase, hut] using hu
    obtain ⟨c, hc, hct⟩ := hr u hold
    exact ⟨c, hsub c hc, hct⟩

theorem recorded_append {s s' : CommitState} {t : TxnId} {before : List Phase} {after : Phase}
    {body : LogBody} (hr : s.Recorded)
    (hafter : after = .committing ∨ after = .committed → body = .commit)
    (h : s.append t before after body = some s') : s'.Recorded := by
  unfold append at h
  split at h
  next =>
    cases Option.some.inj h
    have hrec := Server.logRecord_records s.server t body
    refine recorded_setPhase (t := t) (p := after) hr rfl (fun r hmem => ?_) (fun hp => ?_)
    · show r ∈ (s.server.logRecord t body).log.records
      rw [hrec]
      exact List.mem_append_left _ hmem
    · refine ⟨⟨s.server.log.globalLsn, some t, s.server.prevLsnOf t, body⟩, ?_, rfl, hafter hp⟩
      show _ ∈ (s.server.logRecord t body).log.records
      rw [hrec]
      simp
  next => simp at h

theorem recorded_step {s s' : CommitState} {e : CommitEv} (hi : Inv s) (hr : s.Recorded)
    (h : s.step e = some s') : s'.Recorded := by
  have hsame : (∀ t, s'.Closed t → s.Closed t) → (∀ r ∈ s.records, r ∈ s'.records) →
      s'.Recorded := by
    intro hclosed hsub t ht
    obtain ⟨c, hc, hct⟩ := hr t (hclosed t ht)
    exact ⟨c, hsub c hc, hct⟩
  cases e with
  | beginTxn =>
    have hidle := hi.unused s.server.nextTxnId le_rfl
    cases Option.some.inj h
    refine recorded_setPhase (t := s.server.nextTxnId) (p := .begun) hr rfl (fun r hmem => ?_)
      (by simp)
    show r ∈ s.server.beginTxn.log.records
    rw [Server.beginTxn_records]
    exact hmem
  | beginLog t => exact recorded_append hr (by simp) h
  | write t body =>
    simp only [step] at h
    split at h
    next => exact recorded_append hr (by simp) h
    next => simp at h
  | commitLog t => exact recorded_append hr (fun _ => rfl) h
  | commitReturn t =>
    simp only [step, finish] at h
    split at h
    next hp =>
      cases Option.some.inj h
      exact recorded_setPhase (t := t) (p := .committed) hr rfl (fun r hmem => hmem)
        (fun _ => hr t (Or.inl hp))
    next => simp at h
  | abortLog t => exact recorded_append hr (by simp) h
  | abortReturn t =>
    simp only [step, finish] at h
    split at h
    next hp =>
      cases Option.some.inj h
      exact recorded_setPhase (t := t) (p := .aborted) hr rfl (fun r hmem => hmem) (by simp)
    next => simp at h
  | checkpoint =>
    cases Option.some.inj h
    refine hsame (fun t ht => ht) (fun r hmem => ?_)
    simp only [records, withLog_log, LogManager.flush_records, LogManager.add_records]
    exact List.mem_append_left _ hmem
  | flush =>
    cases Option.some.inj h
    refine hsame (fun t ht => ht) (fun r hmem => ?_)
    simp only [records, withLog_log, LogManager.flush_records]
    exact hmem

end CommitState

namespace OrderState

def fresh (persist : Lsn) : OrderState κ := ⟨.fresh, .fresh persist, [], [], []⟩

def followers (s : OrderState κ) (t : TxnId) (ids : List LockDataId) : List Follow :=
  (s.releases.filter fun p => decide (p.1 ≠ t) && decide (p.2 ∈ ids)).map fun p =>
    ⟨t, p.1, s.log.server.log.globalLsn⟩

def released (s : OrderState κ) : LockEv κ → List (TxnId × LockDataId)
  | .unlock t id => if t ∈ s.commits then [(t, id)] else []
  | _ => []

/-- A thread that waits for a lock does not write. `commit` and `abort` append their record after
the loop over the lock set; the handler also commits transactions that have ended before. -/
def MayLog (s : OrderState κ) : CommitEv → Prop
  | .write t _ => s.lock.phase t = .running
  | .commitLog t => t ∈ s.commits ∧ s.lock.lockSet t = [] ∨ s.log.phase t ≠ .running
  | .abortLog t => s.lock.phase t = .finishing ∧ t ∉ s.commits ∧ s.lock.lockSet t = []
  | _ => True

instance [LinearOrder κ] (s : OrderState κ) (e : CommitEv) : Decidable (s.MayLog e) :=
  match e with
  | .write _ _ => inferInstanceAs (Decidable (_ = _))
  | .commitLog _ => inferInstanceAs (Decidable (_ ∧ _ ∨ _ ≠ _))
  | .abortLog _ => inferInstanceAs (Decidable (_ = _ ∧ _ ∉ _ ∧ _ = _))
  | .beginTxn | .beginLog _ | .commitReturn _ | .abortReturn _ | .checkpoint | .flush =>
    isTrue trivial

variable [LinearOrder κ]

/-- The steps of any number of clients, in any order. A transaction whose lock call throws, or
that ends by a `finish` of its own, goes on to `abort`. -/
def step (s : OrderState κ) : OrderEv κ → Option (OrderState κ)
  | .lock e =>
    if s.log.phase e.txn = .running then
      (s.lock.step e).map fun lock =>
        { s with
          lock := lock
          releases := s.releases ++ s.released e
          follows := s.follows ++ s.followers e.txn (s.lock.obtains lock e) }
    else none
  | .commit t =>
    if s.log.phase t = .running then
      (s.lock.step (.finish t)).map fun lock => { s with lock := lock, commits := t :: s.commits }
    else none
  | .log e => if s.MayLog e then (s.log.step e).map fun log => { s with log := log } else none

/-- The COMMIT record of a transaction comes before every record that a follower appends after
its grant; and no log file that a crash leaves has the follower committed and the other one
among those that recovery rolls back. -/
def CommitOrder (s : OrderState κ) : Prop :=
  ∀ f ∈ s.follows,
    (∀ r ∈ s.log.records, r.logTid = some f.granted → f.since ≤ r.lsn →
      ∃ c ∈ s.log.records, c.logTid = some f.committer ∧ c.body = .commit ∧ c.lsn < r.lsn) ∧
    ((∃ r ∈ s.log.file, r.logTid = some f.granted ∧ r.body = .commit) →
      lookup f.committer (analyze s.log.file).att = none)

/-- No lock is granted on a data id that a `commit` has released and whose COMMIT record is not
appended yet. -/
def GrantsLogged (s : OrderState κ) : OrderEv κ → Prop
  | .lock e => ∀ p ∈ s.releases, p.1 ≠ e.txn → ¬ s.log.Closed p.1 →
    ∀ lock, s.lock.step e = some lock → p.2 ∉ s.lock.obtains lock e
  | _ => True

structure OrderInv (s : OrderState κ) : Prop where
  log : s.log.Inv
  recorded : s.log.Recorded
  numbered : s.log.server.log.Numbered
  last : s.log.records.Pairwise CommitLast
  committed : ∀ f ∈ s.follows, ∃ c ∈ s.log.records,
    c.logTid = some f.committer ∧ c.body = .commit ∧ c.lsn < f.since
  since : ∀ f ∈ s.follows, f.since ≤ s.log.server.log.globalLsn
  later : ∀ f ∈ s.follows, ∀ r ∈ s.log.records, r.logTid = some f.granted → r.body = .commit →
    f.since ≤ r.lsn

omit [LinearOrder κ] in
theorem OrderInv.commitOrder {s : OrderState κ} (hi : s.OrderInv) : s.CommitOrder := by
  intro f hf
  obtain ⟨c, hc, hct, hcb, hlt⟩ := hi.committed f hf
  refine ⟨fun r hr hrt hsince => ⟨c, hc, hct, hcb, lt_of_lt_of_le hlt hsince⟩, ?_⟩
  rintro ⟨r, hr, hrt, hrb⟩
  have hrmem : r ∈ s.log.records := List.mem_append_left _ hr
  have hcr : c.lsn < r.lsn := lt_of_lt_of_le hlt (hi.later f hf r hrmem hrt hrb)
  -- the file is a part of the log from its start on, so the smaller LSN is in it too
  have hcfile : c ∈ s.log.file := by
    rcases List.mem_append.mp hc with hc | hc
    · exact hc
    · have hinc := hi.numbered.increasing
      rw [LogManager.records, List.pairwise_append] at hinc
      have := hinc.2.2 r hr c hc
      lia
  obtain ⟨before, rest, hsplit⟩ := List.append_of_mem hcfile
  have hlast : s.log.file.Pairwise CommitLast :=
    hi.last.sublist (List.sublist_append_left _ _)
  rw [hsplit] at hlast ⊢
  refine analyze_committed hct hcb fun q hq hqt => ?_
  have hpair := (List.pairwise_append.mp hlast).2.1
  exact (List.pairwise_cons.mp hpair).1 q hq f.committer hct hcb hqt

omit [LinearOrder κ] in
theorem orderInv_fresh (persist : Lsn) : (fresh persist : OrderState κ).OrderInv := by
  refine ⟨CommitState.inv_fresh persist, ?_, ?_, ?_, by simp [fresh], by simp [fresh],
    by simp [fresh]⟩
  · intro t ht
    rcases ht with ht | ht <;> simp [fresh, CommitState.fresh] at ht
  · constructor <;>
      simp [fresh, CommitState.fresh, Server.fresh, LogManager.fresh, LogManager.records]
  · simp [fresh, CommitState.fresh, Server.fresh, LogManager.fresh, LogManager.records]

omit [LinearOrder κ] in
/-- A step of the log. -/
theorem OrderInv.logStep {s : OrderState κ} (hi : s.OrderInv) {e : CommitEv} {log : CommitState}
    (h : s.log.step e = some log) : OrderInv { s with log := log } := by
  have hlog := CommitState.step_stepLog hi.log h
  obtain ⟨new, hnewrec, hnew⟩ := hlog.grows
  have hinv := CommitState.inv_step hi.log h
  have hrecorded := CommitState.recorded_step hi.log hi.recorded h
  have hmono : ∀ r ∈ s.log.records, r ∈ log.records := by
    intro r hr
    rw [hnewrec]
    exact List.mem_append_left _ hr
  have hcommitted : ∀ f ∈ s.follows, ∃ c ∈ log.records,
      c.logTid = some f.committer ∧ c.body = .commit ∧ c.lsn < f.since := by
    intro f hf
    obtain ⟨c, hc, hct⟩ := hi.committed f hf
    exact ⟨c, hmono c hc, hct⟩
  rcases CommitState.step_log h with ⟨hrec, hnext⟩ | ⟨r, hrec, hlsn, hnext⟩
  · have hrecords : log.server.log.records = s.log.server.log.records := hrec
    refine ⟨hinv, hrecorded, ⟨?_, ?_⟩, ?_, hcommitted, ?_, ?_⟩
    · show log.server.log.records.Pairwise _
      rw [hrecords]
      exact hi.numbered.increasing
    · show ∀ r ∈ log.server.log.records, r.lsn < log.server.log.globalLsn
      rw [hrecords, hnext]
      exact hi.numbered.below
    · show log.records.Pairwise _
      rw [hrec]
      exact hi.last
    · intro f hf
      show f.since ≤ log.server.log.globalLsn
      rw [hnext]
      exact hi.since f hf
    · intro f hf q hq
      rw [show q ∈ log.records ↔ q ∈ s.log.records by rw [hrec]] at hq
      exact hi.later f hf q hq
  · obtain rfl : new = [r] := List.append_cancel_left (hnewrec.symm.trans hrec)
    refine ⟨hinv, hrecorded, hi.numbered.concat hrec hlsn hnext, ?_, hcommitted, ?_, ?_⟩
    · show log.records.Pairwise _
      rw [hrec, List.pairwise_append]
      refine ⟨hi.last, List.pairwise_singleton _ _, fun q hq r' hr' t hqt hqb hrt => ?_⟩
      rw [List.mem_singleton.mp hr'] at hrt ⊢
      have hclosed : s.log.Closed t := by
        by_contra hopen
        exact hi.log.uncommitted t hopen q hq hqt hqb
      exact (hnew t r (List.mem_singleton_self r) hrt).2 hclosed
    · intro f hf
      show f.since ≤ log.server.log.globalLsn
      have := hi.since f hf
      rw [hnext]
      lia
    · intro f hf q hq hqt hqb
      have hq' : q ∈ s.log.records ++ [r] := hrec ▸ hq
      rcases List.mem_append.mp hq' with hq' | hq'
      · exact hi.later f hf q hq' hqt hqb
      · rw [List.mem_singleton.mp hq', hlsn]
        exact hi.since f hf

theorem OrderInv.lockStep {s : OrderState κ} (hi : s.OrderInv) {e : LockEv κ}
    {lock : LockState κ} (hp : s.log.phase e.txn = .running) (hgood : s.GrantsLogged (.lock e))
    (h : s.lock.step e = some lock) :
    OrderInv { s with
      lock := lock
      releases := s.releases ++ s.released e
      follows := s.follows ++ s.followers e.txn (s.lock.obtains lock e) } := by
  have hnew : ∀ f ∈ s.followers e.txn (s.lock.obtains lock e), f.granted = e.txn ∧
      f.since = s.log.server.log.globalLsn ∧ s.log.Closed f.committer := by
    intro f hf
    obtain ⟨p, hp, rfl⟩ := List.mem_map.mp hf
    obtain ⟨hmem, hcond⟩ := List.mem_filter.mp hp
    simp only [Bool.and_eq_true, decide_eq_true_eq] at hcond
    refine ⟨rfl, rfl, ?_⟩
    by_contra hopen
    exact hgood p hmem hcond.1 hopen lock h hcond.2
  refine ⟨hi.log, hi.recorded, hi.numbered, hi.last, fun f hf => ?_, fun f hf => ?_,
    fun f hf r hr hrt hrb => ?_⟩
  · rcases List.mem_append.mp hf with hf | hf
    · exact hi.committed f hf
    · obtain ⟨_, hsince, hclosed⟩ := hnew f hf
      obtain ⟨c, hc, hct, hcb⟩ := hi.recorded f.committer hclosed
      exact ⟨c, hc, hct, hcb, hsince ▸ hi.numbered.below c hc⟩
  · rcases List.mem_append.mp hf with hf | hf
    · exact hi.since f hf
    · exact (hnew f hf).2.1.le
  · rcases List.mem_append.mp hf with hf | hf
    · exact hi.later f hf r hr hrt hrb
    · -- a transaction that still runs has no COMMIT record
      rw [(hnew f hf).1] at hrt
      have hopen : ¬ s.log.Closed e.txn := by
        rintro (hc | hc) <;> simp [hp] at hc
      exact absurd hrb (hi.log.uncommitted e.txn hopen r hr hrt)

theorem orderInv_step {s s' : OrderState κ} {e : OrderEv κ} (hi : s.OrderInv)
    (hgood : s.GrantsLogged e) (h : s.step e = some s') : s'.OrderInv := by
  cases e with
  | lock e =>
    simp only [step] at h
    split at h
    next hp =>
      obtain ⟨lock, hl, rfl⟩ := Option.map_eq_some_iff.mp h
      exact hi.lockStep hp hgood hl
    next => simp at h
  | commit t =>
    simp only [step] at h
    split at h
    next hp =>
      obtain ⟨lock, hl, rfl⟩ := Option.map_eq_some_iff.mp h
      exact ⟨hi.log, hi.recorded, hi.numbered, hi.last, hi.committed, hi.since, hi.later⟩
    next => simp at h
  | log e =>
    simp only [step] at h
    split at h
    next =>
      obtain ⟨log, hl, rfl⟩ := Option.map_eq_some_iff.mp h
      exact hi.logStep hl
    next => simp at h

/-- In every state that is reached by steps that meet `GrantsLogged` the commits are recoverable
in the order in which their locks were handed on. -/
theorem commitOrder_of_grantsLogged {persist : Lsn} {tr : List (OrderEv κ)} {s : OrderState κ}
    (h : run step (fresh persist) tr = some s)
    (hall : MeetsAll step GrantsLogged (fresh persist) tr) : s.CommitOrder := by
  have hinv : s.OrderInv :=
    run_invariant (fun _ _ _ hi hgood => orderInv_step hi hgood) (orderInv_fresh persist) hall h
  exact hinv.commitOrder

instance (s : OrderState κ) (e : OrderEv κ) : Decidable (s.GrantsLogged e) :=
  match e with
  | .lock e =>
    match he : s.lock.step e with
    | none => isTrue (by simp [GrantsLogged, he])
    | some lock => decidable_of_iff (∀ p ∈ s.releases, p.1 ≠ e.txn → ¬ s.log.Closed p.1 →
        p.2 ∉ s.lock.obtains lock e) (by simp [GrantsLogged, he])
  | .commit _ | .log _ => isTrue trivial

/-- A read of transaction 0 waits for an update of 1 and goes on after the COMMIT record of 1. -/
def readsLogged : List (OrderEv Int) :=
  [.log .beginTxn, .log (.beginLog 0), .log .beginTxn, .log (.beginLog 1),
    .lock (.lockExclusiveOnRecordGap 1 3 ⟨1, 0⟩ 4 5),
    .log (.write 1 (.update [1] [2] ⟨⟨1, 0⟩, "t", 1, 2⟩)),
    .lock (.lockSharedOnRecord 0 3 ⟨1, 0⟩), .commit 1, .lock (.unlock 1 (.record 3 ⟨1, 0⟩)),
    .lock (.unlock 1 (.table 3)), .log (.commitLog 1), .lock (.wake 0), .commit 0,
    .lock (.unlock 0 (.record 3 ⟨1, 0⟩)), .log (.commitLog 0), .log .flush]

theorem commitOrder_readsLogged : ∃ s, run step (fresh 0) readsLogged = some s ∧
    s.follows = [⟨0, 1, 4⟩] ∧ (analyze s.log.file).att = [] ∧ s.CommitOrder :=
  ⟨_, rfl, rfl, rfl, commitOrder_of_grantsLogged
    (show run step (fresh 0) readsLogged = some _ from rfl) (by decide)⟩

/-- A read of transaction 0 waits for an update of 1, gets the lock in the middle of `commit` and
is committed and on disk before the COMMIT record of 1 is appended. -/
def readsUnlogged : List (OrderEv Int) :=
  [.log .beginTxn, .log (.beginLog 0), .log .beginTxn, .log (.beginLog 1),
    .lock (.lockExclusiveOnRecordGap 1 3 ⟨1, 0⟩ 4 5),
    .log (.write 1 (.update [1] [2] ⟨⟨1, 0⟩, "t", 1, 2⟩)),
    .lock (.lockSharedOnRecord 0 3 ⟨1, 0⟩), .commit 1, .lock (.unlock 1 (.record 3 ⟨1, 0⟩)),
    .lock (.wake 0), .commit 0, .lock (.unlock 0 (.record 3 ⟨1, 0⟩)), .log (.commitLog 0),
    .log .flush]

theorem not_commitOrder_readsUnlogged : ∃ s, run step (fresh 0) readsUnlogged = some s ∧
    s.follows = [⟨0, 1, 3⟩] ∧ (analyze s.log.file).att = [(1, 2)] ∧ ¬ s.CommitOrder := by
  refine ⟨_, rfl, rfl, rfl, fun h => ?_⟩
  have hnone := (h ⟨0, 1, 3⟩ (by decide)).2 ⟨⟨3, some 0, 0, .commit⟩, by decide, rfl, rfl⟩
  revert hnone
  decide

end OrderState

end Grmdb
