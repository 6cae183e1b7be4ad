import Grmdb.Analyze
import Grmdb.Runs

namespace Grmdb

open Runs

def LogBody.pageKey (b : LogBody) : Option PageKey := b.place.map LogPlace.pageKey

/-- A change of a table page: the operation `op` of a transaction, or its rollback, which is not
logged. -/
inductive Change where
  | op (id : Nat)
  | undo (id : Nat)
  deriving DecidableEq, Repr

/-- How far an operation has come; an executor that fails before its append drops it. -/
inductive OpState where
  | unused
  | pending (tid : TxnId) (body : LogBody)
  | logged (r : LogRecord)
  | dropped (body : LogBody)
  deriving DecidableEq, Repr

def OpState.page : OpState → Option PageKey
  | .unused => none
  | .pending _ body | .dropped body => body.pageKey
  | .logged r => r.body.pageKey

def OpState.isPending : OpState → Bool
  | .pending _ _ => true
  | _ => false

inductive TxnStage where
  | live
  | aborting
  | committed
  | aborted
  deriving DecidableEq, Repr

/-- The server with its disk. A page is the list of the changes it holds, oldest first; a frame
that is not dirty holds what the disk holds. -/
structure CkpState where
  log : LogManager
  pool : PageKey → Option (List Change)
  disk : PageKey → Option (List Change)
  status : Nat → OpState
  writeSet : TxnId → List Nat
  phase : TxnId → TxnStage

/-- The checkpoint statement is `checkpointLog`, `flushLog` and a `flushAllPages` for each table.
`failInsert` is the way out of an insert whose key an index holds already. -/
inductive CkpEv where
  | newPage (p : PageKey)
  | fetchPage (p : PageKey)
  | beginLog (t : TxnId) (prevLsn : Lsn)
  | recordOp (op : Nat) (t : TxnId) (body : LogBody)
  | appendOp (op : Nat) (prevLsn : Lsn)
  | dropOp (op : Nat)
  | failInsert (op : Nat)
  | rollback (t : TxnId)
  | commit (t : TxnId) (prevLsn : Lsn)
  | abort (t : TxnId) (prevLsn : Lsn)
  | checkpointLog
  | flushLog
  | flushPage (p : PageKey)
  | evictPage (p : PageKey)
  | flushAllPages (fd : TabName)
  deriving DecidableEq, Repr

namespace CkpState

def fresh (persist : Lsn) : CkpState :=
  ⟨LogManager.fresh persist, fun _ => none, fun _ => none, fun _ => .unused, fun _ => [],
    fun _ => .live⟩

def change (s : CkpState) (p : PageKey) (page : List Change) (c : Change) : CkpState :=
  { s with pool := Function.update s.pool p (some (page ++ [c])) }

def setStatus (s : CkpState) (op : Nat) (st : OpState) : CkpState :=
  { s with status := Function.update s.status op st }

def setWriteSet (s : CkpState) (t : TxnId) (ops : List Nat) : CkpState :=
  { s with writeSet := Function.update s.writeSet t ops }

def setPhase (s : CkpState) (t : TxnId) (phase : TxnStage) : CkpState :=
  { s with phase := Function.update s.phase t phase }

def addLog (s : CkpState) (tid : Option TxnId) (prevLsn : Lsn) (body : LogBody) : CkpState :=
  { s with log := s.log.addLogToBuffer tid prevLsn body }

def writePage (s : CkpState) (p : PageKey) (page : List Change) : CkpState :=
  { s with disk := Function.update s.disk p (some page) }

/-- No executor of the transaction is between its operation and the append. -/
def Settled (s : CkpState) (t : TxnId) : Prop := ∀ op ∈ s.writeSet t, ¬ (s.status op).isPending

instance (s : CkpState) (t : TxnId) : Decidable (s.Settled t) :=
  inferInstanceAs (Decidable (∀ op ∈ s.writeSet t, ¬ (s.status op).isPending))

def step (s : CkpState) : CkpEv → Option CkpState
  | .newPage p =>
    if s.disk p = none then
      some ({ s with pool := Function.update s.pool p (some []) }.writePage p [])
    else none
  | .fetchPage p =>
    if s.pool p = none then some { s with pool := Function.update s.pool p (s.disk p) } else none
  | .beginLog t prevLsn => some (s.addLog (some t) prevLsn .begin)
  | .recordOp op t body =>
    match body.pageKey, s.status op, s.phase t with
    | some p, .unused, .live =>
      (s.pool p).map fun page =>
        ((s.change p page (.op op)).setStatus op (.pending t body)).setWriteSet t
          (op :: s.writeSet t)
    | _, _, _ => none
  | .appendOp op prevLsn =>
    match s.status op with
    | .pending t body =>
      some ((s.addLog (some t) prevLsn body).setStatus op
        (.logged ⟨s.log.globalLsn, some t, prevLsn, body⟩))
    | _ => none
  | .dropOp op =>
    match s.status op with
    | .pending _ body => some (s.setStatus op (.dropped body))
    | _ => none
  | .failInsert op =>
    match s.status op with
    | .pending t body =>
      body.pageKey.bind fun p => (s.pool p).map fun page =>
        ((s.change p page (.undo op)).setStatus op (.dropped body)).setWriteSet t
          ((s.writeSet t).erase op)
    | _ => none
  | .rollback t =>
    match s.writeSet t, s.phase t with
    | op :: rest, .live | op :: rest, .aborting =>
      if s.Settled t then
        (s.status op).page.bind fun p => (s.pool p).map fun page =>
          ((s.change p page (.undo op)).setWriteSet t rest).setPhase t .aborting
      else none
    | _, _ => none
  | .commit t prevLsn =>
    match s.phase t with
    | .live =>
      if s.Settled t then
        some (((s.addLog (some t) prevLsn .commit).setWriteSet t []).setPhase t .committed)
      else none
    | .aborted => some (s.addLog (some t) prevLsn .commit)
    | _ => none
  | .abort t prevLsn =>
    match s.writeSet t, s.phase t with
    | [], .live | [], .aborting => some ((s.addLog (some t) prevLsn .abort).setPhase t .aborted)
    | _, _ => none
  | .checkpointLog => some (s.addLog none INVALID_LSN .checkpoint)
  | .flushLog => some { s with log := s.log.flushLogToDisk }
  | .flushPage p =>
    match s.pool p with
    | some page => some (s.writePage p page)
    | none => some s
  | .evictPage p =>
    (s.pool p).map fun page =>
      { s.writePage p page with pool := Function.update s.pool p none }
  | .flushAllPages fd =>
    some { s with disk := fun p => if p.1 = fd then (s.pool p).or (s.disk p) else s.disk p }

/-- Whether the step writes the log buffer to the log file. -/
def flushes (s : CkpState) : CkpEv → Bool
  | .flushLog => true
  | .beginLog _ _ => s.log.isFull LogBody.begin.totLen
  | .commit _ _ => s.log.isFull LogBody.commit.totLen
  | .abort _ _ => s.log.isFull LogBody.abort.totLen
  | .checkpointLog => s.log.isFull LogBody.checkpoint.totLen
  | .appendOp op _ =>
    match s.status op with
    | .pending _ body => s.log.isFull body.totLen
    | _ => false
  | _ => false

def OnDisk (s : CkpState) (p : PageKey) (c : Change) : Prop :=
  ∃ page, s.disk p = some page ∧ c ∈ page

/-- The changes of page `p` that `analyze` takes to be on disk once it has read the CHECKPOINT
record `ck`: the operations logged before it, and the rollbacks of the transactions that were
aborted before it. -/
def Before (s : CkpState) (ck : LogRecord) (p : PageKey) : Change → Prop
  | .op op => ∃ r, s.status op = .logged r ∧ r.body.pageKey = some p ∧ r.lsn < ck.lsn
  | .undo op => ∃ r, s.status op = .logged r ∧ r.body.pageKey = some p ∧ r.lsn < ck.lsn ∧
    ∃ a ∈ s.log.records, a.body = .abort ∧ a.logTid = r.logTid ∧ a.lsn < ck.lsn

def CheckpointSound (s : CkpState) : Prop :=
  ∀ ck ∈ s.log.file, ck.body = .checkpoint → ∀ p c, s.Before ck p c → s.OnDisk p c

/-- A CHECKPOINT record goes to the log file only when no page in the buffer pool holds an
unwritten change from before it. -/
def PagesFirst (s : CkpState) (e : CkpEv) : Prop :=
  s.flushes e = true → ∀ ck ∈ s.log.buffer, ck.body = .checkpoint →
    ∀ p page, s.pool p = some page → ∀ c ∈ page, s.Before ck p c → s.OnDisk p c

/-- The page as the buffer pool shows it. -/
def current (s : CkpState) (p : PageKey) : Option (List Change) := (s.pool p).or (s.disk p)

def Holds (s : CkpState) (p : PageKey) (c : Change) : Prop :=
  ∃ page, s.current p = some page ∧ c ∈ page

structure Inv (s : CkpState) : Prop where
  numbered : ∀ r ∈ s.log.records, r.lsn < s.log.globalLsn
  recorded : ∀ op r, s.status op = .logged r → r ∈ s.log.records
  owned : ∀ op r, s.status op = .logged r → ∃ t, r.logTid = some t ∧
    (op ∈ s.writeSet t ∨ s.phase t = .committed ∨
      ∀ p, r.body.pageKey = some p → s.Holds p (.undo op))
  pending : ∀ op t body, s.status op = .pending t body →
    op ∈ s.writeSet t ∧ body.pageKey ≠ none
  done : ∀ op p, (s.status op).page = some p → s.Holds p (.op op)
  onDisk : ∀ p c, s.OnDisk p c → s.Holds p c
  framed : ∀ p, s.disk p = none → s.pool p = none
  aborted : ∀ a ∈ s.log.records, a.body = .abort → ∃ t, a.logTid = some t ∧ s.phase t = .aborted
  empty : ∀ t, s.phase t = .aborted → s.writeSet t = []

theorem inv_fresh (persist : Lsn) : (fresh persist).Inv := by
  constructor
  all_goals simp [fresh, LogManager.fresh, LogManager.records, OpState.page, OnDisk]

/-- What every step does to the log, the disk and the operations logged so far. -/
structure Extends (s s' : CkpState) : Prop where
  logged : ∀ op r, s.status op = .logged r → s'.status op = .logged r
  newest : ∀ op r, s'.status op = .logged r → s.status op = .logged r ∨ r.lsn = s.log.globalLsn
  records : s.log.records ⊆ s'.log.records
  appended : ∀ a ∈ s'.log.records, a ∈ s.log.records ∨ a.lsn = s.log.globalLsn
  disk : ∀ p c, s.OnDisk p c → s'.OnDisk p c

/-- A step changes nothing about what came before a CHECKPOINT record that is in the log. -/
theorem Extends.before_iff {s s' : CkpState} (hx : s.Extends s') (hi : s.Inv) {ck : LogRecord}
    (hck : ck ∈ s.log.records) (p : PageKey) (c : Change) : s'.Before ck p c ↔ s.Before ck p c := by
  have hnew := hi.numbered ck hck
  have hback : ∀ op r, r.lsn < ck.lsn → s'.status op = .logged r → s.status op = .logged r := by
    intro op r hr h
    rcases hx.newest op r h with h | h
    · exact h
    · lia
  cases c with
  | op op =>
    constructor
    · rintro ⟨r, hst, hp, hr⟩
      exact ⟨r, hback op r hr hst, hp, hr⟩
    · rintro ⟨r, hst, hp, hr⟩
      exact ⟨r, hx.logged op r hst, hp, hr⟩
  | undo op =>
    constructor
    · rintro ⟨r, hst, hp, hr, a, ha, hab, htid, hlt⟩
      have ha' : a ∈ s.log.records := by
        rcases hx.appended a ha with h | h
        · exact h
        · lia
      exact ⟨r, hback op r hr hst, hp, hr, a, ha', hab, htid, hlt⟩
    · rintro ⟨r, hst, hp, hr, a, ha, hab, htid, hlt⟩
      exact ⟨r, hx.logged op r hst, hp, hr, a, hx.records ha, hab, htid, hlt⟩

/-- Every change from before a CHECKPOINT record is on the page as the pool shows it. -/
theorem Inv.holds_before {s : CkpState} (hi : s.Inv) {ck : LogRecord} {p : PageKey} {c : Change}
    (h : s.Before ck p c) : s.Holds p c := by
  cases c with
  | op op =>
    obtain ⟨r, hst, hp, _⟩ := h
    exact hi.done op p (by simpa [hst, OpState.page] using hp)
  | undo op =>
    obtain ⟨r, hst, hp, _, a, ha, hab, htid, _⟩ := h
    obtain ⟨t, ht, howned⟩ := hi.owned op r hst
    obtain ⟨u, hu, hphase⟩ := hi.aborted a ha hab
    have : u = t := Option.some.inj (hu.symm.trans (htid.trans ht))
    subst this
    rcases howned with hmem | hcommitted | hundone
    · simp [hi.empty u hphase] at hmem
    · simp [hphase] at hcommitted
    · exact hundone p hp

/-- A step that leaves the log file alone keeps the checkpoints sound. -/
theorem CheckpointSound.keep {s s' : CkpState} (h : s.CheckpointSound) (hi : s.Inv)
    (hx : s.Extends s') (hfile : s'.log.file = s.log.file) : s'.CheckpointSound := by
  intro ck hck hb p c hbefore
  rw [hfile] at hck
  have hrec : ck ∈ s.log.records := List.mem_append_left _ hck
  exact hx.disk p c (h ck hck hb p c ((hx.before_iff hi hrec p c).mp hbefore))

/-- A step that writes the log buffer keeps them sound exactly when the pages went first. -/
theorem CheckpointSound.flush_iff {s s' : CkpState} (h : s.CheckpointSound) (hi : s.Inv)
    (hx : s.Extends s') (hfile : s'.log.file = s.log.records) (hdisk : s'.disk = s.disk) :
    s'.CheckpointSound ↔ ∀ ck ∈ s.log.buffer, ck.body = .checkpoint →
      ∀ p page, s.pool p = some page → ∀ c ∈ page, s.Before ck p c → s.OnDisk p c := by
  have hsame : ∀ p c, s'.OnDisk p c ↔ s.OnDisk p c := by
    intro p c
    simp only [OnDisk, hdisk]
  constructor
  · intro hsound ck hck hb p page _ c _ hbefore
    have hrec : ck ∈ s.log.records := List.mem_append_right _ hck
    exact (hsame p c).mp
      (hsound ck (hfile ▸ hrec) hb p c ((hx.before_iff hi hrec p c).mpr hbefore))
  · intro hfirst ck hck hb p c hbefore
    rw [hfile] at hck
    have hbefore' := (hx.before_iff hi hck p c).mp hbefore
    rw [hsame]
    rcases List.mem_append.mp hck with hold | hbuf
    · exact h ck hold hb p c hbefore'
    · obtain ⟨page, hcur, hc⟩ := hi.holds_before hbefore'
      cases hpool : s.pool p with
      | none =>
        rw [current, hpool, Option.none_or] at hcur
        exact ⟨page, hcur, hc⟩
      | some frame =>
        have : frame = page := by simpa [current, hpool] using hcur
        subst this
        exact hfirst ck hbuf hb p frame hpool c hc hbefore'

theorem holds_change {s : CkpState} {p q : PageKey} {page : List Change} {c c' : Change}
    (hpool : s.pool p = some page) (h : s.Holds q c') : (s.change p page c).Holds q c' := by
  obtain ⟨cur, hcur, hc⟩ := h
  by_cases hq : q = p
  · subst hq
    have : page = cur := by simpa [current, hpool] using hcur
    subst this
    exact ⟨page ++ [c], by simp [current, change], List.mem_append_left _ hc⟩
  · exact ⟨cur, by simpa [current, change, hq] using hcur, hc⟩

theorem holds_change_self (s : CkpState) (p : PageKey) (page : List Change) (c : Change) :
    (s.change p page c).Holds p c :=
  ⟨page ++ [c], by simp [current, change], by simp⟩

/-- The steps that change a page in the buffer pool. -/
theorem Inv.changed {s s' : CkpState} {p : PageKey} {page : List Change} {c : Change}
    (hi : s.Inv) (hframe : s.pool p = some page) (hlog : s'.log = s.log)
    (hdisk : s'.disk = s.disk) (hpool : s'.pool = (s.change p page c).pool)
    (hlogged : ∀ op r, s'.status op = .logged r ↔ s.status op = .logged r)
    (hpage : ∀ op q, (s'.status op).page = some q →
      (s.status op).page = some q ∨ (c = .op op ∧ q = p))
    (hpending : ∀ op t body, s'.status op = .pending t body →
      op ∈ s'.writeSet t ∧ body.pageKey ≠ none)
    (howned : ∀ op r t, s.status op = .logged r → r.logTid = some t → op ∈ s.writeSet t →
      op ∈ s'.writeSet t ∨ (c = .undo op ∧ r.body.pageKey = some p))
    (hphase : ∀ t, s.phase t = .committed ∨ s.phase t = .aborted → s'.phase t = s.phase t)
    (hempty : ∀ t, s'.phase t = .aborted → s'.writeSet t = []) : s'.Inv := by
  have hcur : ∀ q, s'.current q = (s.change p page c).current q := by
    intro q
    simp [current, hpool, hdisk, change]
  have hkeep : ∀ q c', s.Holds q c' → s'.Holds q c' := by
    intro q c' h
    obtain ⟨cur, hq, hc⟩ := holds_change (c := c) hframe h
    exact ⟨cur, (hcur q).trans hq, hc⟩
  have hself : s'.Holds p c := by
    obtain ⟨cur, hq, hc⟩ := holds_change_self s p page c
    exact ⟨cur, (hcur p).trans hq, hc⟩
  refine ⟨?_, ?_, ?_, hpending, ?_, ?_, ?_, ?_, hempty⟩
  · rw [hlog]
    exact hi.numbered
  · intro op r h
    rw [hlog]
    exact hi.recorded op r ((hlogged op r).mp h)
  · intro op r h
    have hold := (hlogged op r).mp h
    obtain ⟨t, ht, hmem | hcom | hundo⟩ := hi.owned op r hold
    · refine ⟨t, ht, ?_⟩
      rcases howned op r t hold ht hmem with h | ⟨rfl, hp⟩
      · exact Or.inl h
      · refine Or.inr (Or.inr fun q hq => ?_)
        cases Option.some.inj (hp.symm.trans hq)
        exact hself
    · exact ⟨t, ht, Or.inr (Or.inl ((hphase t (Or.inl hcom)).trans hcom))⟩
    · exact ⟨t, ht, Or.inr (Or.inr fun q hq => hkeep q _ (hundo q hq))⟩
  · intro op q h
    rcases hpage op q h with h | ⟨rfl, rfl⟩
    · exact hkeep q _ (hi.done op q h)
    · exact hself
  · intro q c' h
    exact hkeep q c' (hi.onDisk q c' (by simpa [OnDisk, hdisk] using h))
  · intro q h
    rw [hdisk] at h
    have hne : q ≠ p := by
      rintro rfl
      simp [hi.framed q h] at hframe
    simpa [hpool, change, hne] using hi.framed q h
  · intro a ha hab
    rw [hlog] at ha
    obtain ⟨t, ht, hph⟩ := hi.aborted a ha hab
    exact ⟨t, ht, (hphase t (Or.inr hph)).trans hph⟩

/-- The steps that append a record to the log. -/
theorem Inv.appended {s s' : CkpState} {r : LogRecord} (hi : s.Inv)
    (hrec : s'.log.records = s.log.records ++ [r]) (hlsn : r.lsn = s.log.globalLsn)
    (hnext : s'.log.globalLsn = s.log.globalLsn + 1) (hpool : s'.pool = s.pool)
    (hdisk : s'.disk = s.disk)
    (hstatus : ∀ op q, s'.status op = .logged q → s.status op = .logged q ∨
      (q = r ∧ ∃ t body, s.status op = .pending t body ∧ r.logTid = some t))
    (hpage : ∀ op, (s'.status op).page = (s.status op).page)
    (hpending : ∀ op t body, s'.status op = .pending t body →
      op ∈ s'.writeSet t ∧ body.pageKey ≠ none)
    (hwrites : ∀ t op, op ∈ s.writeSet t → op ∈ s'.writeSet t ∨ s'.phase t = .committed)
    (hphase : ∀ t, s.phase t = .committed ∨ s.phase t = .aborted → s'.phase t = s.phase t)
    (habort : r.body = .abort → ∃ t, r.logTid = some t ∧ s'.phase t = .aborted)
    (hempty : ∀ t, s'.phase t = .aborted → s'.writeSet t = []) : s'.Inv := by
  have hcur : ∀ q c, s'.Holds q c ↔ s.Holds q c := by
    intro q c
    simp [Holds, current, hpool, hdisk]
  refine ⟨?_, ?_, ?_, hpending, ?_, ?_, ?_, ?_, hempty⟩
  · intro q hq
    rw [hrec] at hq
    rw [hnext]
    rcases List.mem_append.mp hq with hq | hq
    · have := hi.numbered q hq
      lia
    · rw [List.mem_singleton.mp hq, hlsn]
      exact lt_add_one _
  · intro op q h
    rw [hrec]
    rcases hstatus op q h with h | ⟨rfl, _⟩
    · exact List.mem_append_left _ (hi.recorded op q h)
    · simp
  · intro op q h
    rcases hstatus op q h with hold | ⟨rfl, t, body, hpend, ht⟩
    · obtain ⟨t, ht, hmem | hcom | hundo⟩ := hi.owned op q hold
      · refine ⟨t, ht, ?_⟩
        rcases hwrites t op hmem with h | h
        · exact Or.inl h
        · exact Or.inr (Or.inl h)
      · exact ⟨t, ht, Or.inr (Or.inl ((hphase t (Or.inl hcom)).trans hcom))⟩
      · exact ⟨t, ht, Or.inr (Or.inr fun p hp => (hcur p _).mpr (hundo p hp))⟩
    · refine ⟨t, ht, ?_⟩
      rcases hwrites t op (hi.pending op t body hpend).1 with h | h
      · exact Or.inl h
      · exact Or.inr (Or.inl h)
  · intro op p h
    rw [hpage] at h
    exact (hcur p _).mpr (hi.done op p h)
  · intro p c h
    exact (hcur p c).mpr (hi.onDisk p c (by simpa [OnDisk, hdisk] using h))
  · rw [hdisk, hpool]
    exact hi.framed
  · intro a ha hab
    rw [hrec] at ha
    rcases List.mem_append.mp ha with ha | ha
    · obtain ⟨t, ht, hph⟩ := hi.aborted a ha hab
      exact ⟨t, ht, (hphase t (Or.inr hph)).trans hph⟩
    · rw [List.mem_singleton] at ha
      subst ha
      exact habort hab

/-- The steps that move pages between the buffer pool and the disk. -/
theorem Inv.moved {s s' : CkpState} (hi : s.Inv)
    (hrec : s'.log.records = s.log.records) (hnext : s'.log.globalLsn = s.log.globalLsn)
    (hstatus : s'.status = s.status) (hwrites : s'.writeSet = s.writeSet)
    (hphase : s'.phase = s.phase) (hkeep : ∀ p c, s.Holds p c → s'.Holds p c)
    (honDisk : ∀ p c, s'.OnDisk p c → s'.Holds p c)
    (hframed : ∀ p, s'.disk p = none → s'.pool p = none) : s'.Inv := by
  refine ⟨?_, ?_, ?_, ?_, ?_, honDisk, hframed, ?_, ?_⟩
  · rw [hrec, hnext]
    exact hi.numbered
  · rw [hrec, hstatus]
    exact hi.recorded
  · intro op r h
    rw [hstatus] at h
    obtain ⟨t, ht, hmem | hcom | hundo⟩ := hi.owned op r h
    · exact ⟨t, ht, Or.inl (hwrites ▸ hmem)⟩
    · exact ⟨t, ht, Or.inr (Or.inl (hphase ▸ hcom))⟩
    · exact ⟨t, ht, Or.inr (Or.inr fun p hp => hkeep p _ (hundo p hp))⟩
  · rw [hstatus, hwrites]
    exact hi.pending
  · intro op p h
    rw [hstatus] at h
    exact hkeep p _ (hi.done op p h)
  · rw [hrec, hphase]
    exact hi.aborted
  · rw [hphase, hwrites]
    exact hi.empty

/-- What one step does, apart from the soundness of the checkpoints. -/
structure StepSpec (s : CkpState) (e : CkpEv) (s' : CkpState) : Prop where
  inv : s'.Inv
  ext : s.Extends s'
  flushed : s.flushes e = true → s'.log.file = s.log.records ∧ s'.disk = s.disk
  kept : s.flushes e = false → s'.log.file = s.log.file

theorem stepSpec_append {s s' : CkpState} {e : CkpEv} {tid : Option TxnId} {prevLsn : Lsn}
    {body : LogBody} (hinv : s'.Inv) (hlog : s'.log = s.log.addLogToBuffer tid prevLsn body)
    (hdisk : s'.disk = s.disk) (he : s.flushes e = s.log.isFull body.totLen)
    (hlogged : ∀ op r, s.status op = .logged r → s'.status op = .logged r)
    (hnewest : ∀ op r, s'.status op = .logged r →
      s.status op = .logged r ∨ r.lsn = s.log.globalLsn) : StepSpec s e s' := by
  refine ⟨hinv, ⟨hlogged, hnewest, ?_, ?_, ?_⟩, ?_, ?_⟩
  · rw [hlog, LogManager.add_records]
    exact List.subset_append_left _ _
  · intro a ha
    rw [hlog, LogManager.add_records] at ha
    rcases List.mem_append.mp ha with ha | ha
    · exact Or.inl ha
    · rw [List.mem_singleton.mp ha]
      exact Or.inr rfl
  · intro p c h
    simpa [OnDisk, hdisk] using h
  · intro hf
    rw [hlog]
    exact ⟨LogManager.add_file_of_full _ _ _ _ (he ▸ hf), hdisk⟩
  · intro hf
    rw [hlog]
    exact LogManager.add_file_of_room _ _ _ _ (he ▸ hf)

theorem stepSpec_quiet {s s' : CkpState} {e : CkpEv} (hinv : s'.Inv) (hlog : s'.log = s.log)
    (he : s.flushes e = false)
    (hlogged : ∀ op r, s'.status op = .logged r ↔ s.status op = .logged r)
    (hdisk : ∀ p c, s.OnDisk p c → s'.OnDisk p c) : StepSpec s e s' := by
  refine ⟨hinv, ⟨fun op r => (hlogged op r).mpr, fun op r h => Or.inl ((hlogged op r).mp h), ?_,
    ?_, hdisk⟩, ?_, ?_⟩
  · rw [hlog]
    exact List.Subset.refl _
  · intro a ha
    exact Or.inl (hlog ▸ ha)
  · simp [he]
  · simp [hlog]

theorem logged_setStatus {s : CkpState} {op : Nat} {st : OpState}
    (hold : ∀ r, s.status op ≠ .logged r) (hst : ∀ r, st ≠ .logged r) (op' : Nat) (r : LogRecord) :
    (s.setStatus op st).status op' = .logged r ↔ s.status op' = .logged r := by
  by_cases h : op' = op
  · subst h
    simp [setStatus, hst r, hold r]
  · simp [setStatus, h]

/-- A page goes to disk as the buffer pool shows it. -/
theorem stepSpec_write {s s' : CkpState} {e : CkpEv} (hi : s.Inv) (hlog : s'.log = s.log)
    (he : s.flushes e = false) (hstatus : s'.status = s.status)
    (hwrites : s'.writeSet = s.writeSet) (hphase : s'.phase = s.phase)
    (hcur : ∀ p, s'.current p = s.current p)
    (hdisk : ∀ p, s'.disk p = s.disk p ∨ s'.disk p = s.current p)
    (hframed : ∀ p, s'.disk p = none → s'.pool p = none) : StepSpec s e s' := by
  have hkeep : ∀ p c, s'.Holds p c ↔ s.Holds p c := by
    intro p c
    simp [Holds, hcur]
  have hmono : ∀ p c, s.OnDisk p c → s'.OnDisk p c := by
    intro p c h
    rcases hdisk p with hd | hd
    · simpa [OnDisk, hd] using h
    · obtain ⟨page, hp, hc⟩ := hi.onDisk p c h
      exact ⟨page, hd.trans hp, hc⟩
  refine stepSpec_quiet (hi.moved (by rw [hlog]) (by rw [hlog]) hstatus hwrites hphase
    (fun p c => (hkeep p c).mpr) ?_ hframed) hlog he (fun op r => by rw [hstatus]) hmono
  intro p c h
  rw [hkeep]
  rcases hdisk p with hd | hd
  · exact hi.onDisk p c (by simpa [OnDisk, hd] using h)
  · simpa [OnDisk, Holds, hd] using h

theorem stepSpec_logOnly {s : CkpState} {e : CkpEv} {tid : Option TxnId} {prevLsn : Lsn}
    {body : LogBody} (hi : s.Inv) (he : s.flushes e = s.log.isFull body.totLen)
    (hb : body ≠ .abort) : StepSpec s e (s.addLog tid prevLsn body) := by
  refine stepSpec_append ?_ rfl rfl he (fun _ _ h => h) (fun _ _ h => Or.inl h)
  exact hi.appended (r := ⟨s.log.globalLsn, tid, prevLsn, body⟩) (LogManager.add_records _ _ _ _)
    rfl (LogManager.add_globalLsn _ _ _ _) rfl rfl (fun _ _ h => Or.inl h) (fun _ => rfl)
    hi.pending (fun _ _ h => Or.inl h) (fun _ _ => rfl) (fun h => absurd h hb) hi.empty

theorem newPage_spec {s : CkpState} {p : PageKey} (hi : s.Inv) (hp : s.disk p = none) :
    StepSpec s (.newPage p)
      ({ s with pool := Function.update s.pool p (some []) }.writePage p []) := by
  have hpool := hi.framed p hp
  have hne : ∀ q c, s.Holds q c → q ≠ p := by
    rintro q c ⟨page, hcur, _⟩ rfl
    simp [current, hpool, hp] at hcur
  have hdisk : ∀ q c, s.OnDisk q c → q ≠ p := fun q c h => hne q c (hi.onDisk q c h)
  refine stepSpec_quiet (hi.moved rfl rfl rfl rfl rfl ?_ ?_ ?_) rfl rfl (fun _ _ => Iff.rfl) ?_
  · intro q c h
    simpa [Holds, current, writePage, hne q c h] using h
  · intro q c h
    by_cases hq : q = p
    · simp [OnDisk, writePage, hq] at h
    · simpa [Holds, current, writePage, hq] using
        hi.onDisk q c (by simpa [OnDisk, writePage, hq] using h)
  · intro q h
    by_cases hq : q = p
    · simp [writePage, hq] at h
    · simpa [writePage, hq] using hi.framed q (by simpa [writePage, hq] using h)
  · intro q c h
    simpa [OnDisk, writePage, hdisk q c h] using h

theorem recordOp_spec {s : CkpState} {op : Nat} {t : TxnId} {body : LogBody} {p : PageKey}
    {page : List Change} (hi : s.Inv) (hbody : body.pageKey = some p)
    (hunused : s.status op = .unused) (hlive : s.phase t = .live)
    (hpool : s.pool p = some page) : StepSpec s (.recordOp op t body)
      (((s.change p page (.op op)).setStatus op (.pending t body)).setWriteSet t
        (op :: s.writeSet t)) := by
  have hlogged := @logged_setStatus (s.change p page (.op op)) op (.pending t body)
    (by simp [change, hunused]) (by simp)
  refine stepSpec_quiet (hi.changed hpool rfl rfl rfl hlogged ?_ ?_ ?_ (fun _ _ => rfl) ?_)
    rfl rfl hlogged (fun _ _ h => h)
  · intro op' q h
    by_cases ho : op' = op
    · subst ho
      have : p = q := by simpa [setWriteSet, setStatus, OpState.page, hbody] using h
      exact Or.inr ⟨rfl, this.symm⟩
    · exact Or.inl (by simpa [setWriteSet, setStatus, change, ho] using h)
  · intro op' u body' h
    by_cases ho : op' = op
    · subst ho
      simp only [setWriteSet, setStatus, Function.update_self, OpState.pending.injEq] at h
      obtain ⟨rfl, rfl⟩ := h
      exact ⟨by simp [setWriteSet], by simp [hbody]⟩
    · obtain ⟨hold, hplaced⟩ := hi.pending op' u body' (by
        simpa [setWriteSet, setStatus, change, ho] using h)
      refine ⟨?_, hplaced⟩
      by_cases hu : u = t
      · subst hu
        simp [setWriteSet, hold]
      · simpa [setWriteSet, setStatus, change, hu] using hold
  · intro op' r u _ _ hmem
    refine Or.inl ?_
    by_cases hu : u = t
    · subst hu
      simp [setWriteSet, hmem]
    · simpa [setWriteSet, setStatus, change, hu] using hmem
  · intro u hu
    have hne : u ≠ t := by
      rintro rfl
      simp [setWriteSet, setStatus, change, hlive] at hu
    simpa [setWriteSet, setStatus, change, hne] using hi.empty u hu

theorem appendOp_spec {s : CkpState} {op : Nat} {t : TxnId} {body : LogBody} {prevLsn : Lsn}
    (hi : s.Inv) (hpend : s.status op = .pending t body) :
    StepSpec s (.appendOp op prevLsn) ((s.addLog (some t) prevLsn body).setStatus op
      (.logged ⟨s.log.globalLsn, some t, prevLsn, body⟩)) := by
  have hback : ∀ op' q, ((s.addLog (some t) prevLsn body).setStatus op
      (.logged ⟨s.log.globalLsn, some t, prevLsn, body⟩)).status op' = .logged q →
      s.status op' = .logged q ∨
      (q = ⟨s.log.globalLsn, some t, prevLsn, body⟩ ∧ op' = op) := by
    intro op' q h
    by_cases ho : op' = op
    · subst ho
      have : (⟨s.log.globalLsn, some t, prevLsn, body⟩ : LogRecord) = q := by
        simpa [setStatus] using h
      exact Or.inr ⟨this.symm, rfl⟩
    · exact Or.inl (by simpa [setStatus, addLog, ho] using h)
  refine stepSpec_append (hi.appended (r := ⟨s.log.globalLsn, some t, prevLsn, body⟩)
    (LogManager.add_records _ _ _ _) rfl (LogManager.add_globalLsn _ _ _ _) rfl rfl ?_ ?_ ?_
    (fun _ _ h => Or.inl h) (fun _ _ => rfl) ?_ hi.empty) rfl rfl ?_ ?_ ?_
  · intro op' q h
    rcases hback op' q h with h | ⟨rfl, rfl⟩
    · exact Or.inl h
    · exact Or.inr ⟨rfl, t, body, hpend, rfl⟩
  · intro op'
    by_cases ho : op' = op
    · subst ho
      simp [setStatus, OpState.page, hpend]
    · simp [setStatus, addLog, ho]
  · intro op' u body' h
    by_cases ho : op' = op
    · simp [setStatus, ho] at h
    · exact hi.pending op' u body' (by simpa [setStatus, addLog, ho] using h)
  · intro hab
    have hdata := (hi.pending op t body hpend).2
    have : body = .abort := hab
    simp [this, LogBody.pageKey, LogBody.place] at hdata
  · simp [flushes, hpend]
  · intro op' q h
    have hne : op' ≠ op := by
      rintro rfl
      simp [hpend] at h
    simpa [setStatus, addLog, hne] using h
  · intro op' q h
    rcases hback op' q h with h | ⟨rfl, _⟩
    · exact Or.inl h
    · exact Or.inr rfl

theorem dropOp_spec {s : CkpState} {op : Nat} {t : TxnId} {body : LogBody}
    (hi : s.Inv) (hpend : s.status op = .pending t body) :
    StepSpec s (.dropOp op) (s.setStatus op (.dropped body)) := by
  have hlogged := @logged_setStatus s op (.dropped body) (by simp [hpend]) (by simp)
  have hpage : ∀ op', ((s.setStatus op (.dropped body)).status op').page = (s.status op').page := by
    intro op'
    by_cases ho : op' = op
    · subst ho
      simp [setStatus, OpState.page, hpend]
    · simp [setStatus, ho]
  refine stepSpec_quiet ⟨hi.numbered, ?_, ?_, ?_, ?_, hi.onDisk, hi.framed, hi.aborted, hi.empty⟩
    rfl rfl hlogged (fun _ _ h => h)
  · intro op' r h
    exact hi.recorded op' r ((hlogged op' r).mp h)
  · intro op' r h
    exact hi.owned op' r ((hlogged op' r).mp h)
  · intro op' u body' h
    by_cases ho : op' = op
    · simp [setStatus, ho] at h
    · exact hi.pending op' u body' (by simpa [setStatus, ho] using h)
  · intro op' p h
    rw [hpage] at h
    exact hi.done op' p h

theorem failInsert_spec {s : CkpState} {op : Nat} {t : TxnId} {body : LogBody} {p : PageKey}
    {page : List Change} (hi : s.Inv) (hpend : s.status op = .pending t body)
    (hpool : s.pool p = some page) :
    StepSpec s (.failInsert op)
      (((s.change p page (.undo op)).setStatus op (.dropped body)).setWriteSet t
        ((s.writeSet t).erase op)) := by
  have hlogged := @logged_setStatus (s.change p page (.undo op)) op (.dropped body)
    (by simp [change, hpend]) (by simp)
  have hwrites : ∀ op' u, op' ≠ op → op' ∈ s.writeSet u →
      op' ∈ Function.update s.writeSet t ((s.writeSet t).erase op) u := by
    intro op' u ho hmem
    by_cases hu : u = t
    · subst hu
      simpa using (List.mem_erase_of_ne ho).mpr hmem
    · simpa [hu] using hmem
  refine stepSpec_quiet (hi.changed hpool rfl rfl rfl hlogged ?_ ?_ ?_ (fun _ _ => rfl) ?_)
    rfl rfl hlogged (fun _ _ h => h)
  · intro op' q h
    refine Or.inl ?_
    by_cases ho : op' = op
    · subst ho
      simpa [setWriteSet, setStatus, OpState.page, hpend] using h
    · simpa [setWriteSet, setStatus, change, ho] using h
  · intro op' u body' h
    have ho : op' ≠ op := by
      rintro rfl
      simp [setWriteSet, setStatus] at h
    obtain ⟨hmem, hplaced⟩ := hi.pending op' u body' (by
      simpa [setWriteSet, setStatus, change, ho] using h)
    exact ⟨hwrites op' u ho hmem, hplaced⟩
  · intro op' r u hst _ hmem
    have ho : op' ≠ op := by
      rintro rfl
      simp [hpend] at hst
    exact Or.inl (hwrites op' u ho hmem)
  · intro u hu
    have hold := hi.empty u hu
    by_cases hut : u = t
    · subst hut
      simp [setWriteSet, hold]
    · simpa [setWriteSet, setStatus, change, hut] using hold

theorem rollback_spec {s : CkpState} {op : Nat} {rest : List Nat} {t : TxnId} {p : PageKey}
    {page : List Change} (hi : s.Inv) (hset : s.writeSet t = op :: rest)
    (hphase : s.phase t = .live ∨ s.phase t = .aborting) (hsettled : s.Settled t)
    (hp : (s.status op).page = some p) (hpool : s.pool p = some page) :
    StepSpec s (.rollback t)
      (((s.change p page (.undo op)).setWriteSet t rest).setPhase t .aborting) := by
  have hne : ∀ u, s.phase u = .committed ∨ s.phase u = .aborted → u ≠ t := by
    rintro u hu rfl
    rcases hphase with h | h <;> simp [h] at hu
  refine stepSpec_quiet (hi.changed hpool rfl rfl rfl (fun _ _ => Iff.rfl) (fun _ _ => Or.inl)
    ?_ ?_ ?_ ?_) rfl rfl (fun _ _ => Iff.rfl) (fun _ _ h => h)
  · intro op' u body h
    obtain ⟨hmem, hplaced⟩ := hi.pending op' u body h
    refine ⟨?_, hplaced⟩
    by_cases hu : u = t
    · subst hu
      have hwaits := hsettled op' hmem
      simp only [setPhase, setWriteSet, change] at h
      simp [h, OpState.isPending] at hwaits
    · simpa [setPhase, setWriteSet, change, hu] using hmem
  · intro op' r u hst _ hmem
    by_cases hu : u = t
    · subst hu
      rw [hset] at hmem
      rcases List.mem_cons.mp hmem with rfl | hmem
      · exact Or.inr ⟨rfl, by simpa [hst, OpState.page] using hp⟩
      · exact Or.inl (by simpa [setPhase, setWriteSet] using hmem)
    · exact Or.inl (by simpa [setPhase, setWriteSet, change, hu] using hmem)
  · intro u hu
    simp [setPhase, setWriteSet, change, hne u hu]
  · intro u hu
    have hut : u ≠ t := by
      rintro rfl
      simp [setPhase] at hu
    have hold := hi.empty u (by simpa [setPhase, setWriteSet, change, hut] using hu)
    simpa [setPhase, setWriteSet, change, hut] using hold

theorem commit_spec {s : CkpState} {t : TxnId} {prevLsn : Lsn} (hi : s.Inv)
    (hlive : s.phase t = .live) (hsettled : s.Settled t) : StepSpec s (.commit t prevLsn)
      (((s.addLog (some t) prevLsn .commit).setWriteSet t []).setPhase t .committed) := by
  refine stepSpec_append (hi.appended (r := ⟨s.log.globalLsn, some t, prevLsn, .commit⟩)
    (LogManager.add_records _ _ _ _) rfl (LogManager.add_globalLsn _ _ _ _) rfl rfl
    (fun _ _ h => Or.inl h) (fun _ => rfl) ?_ ?_ ?_ (by simp) ?_) rfl rfl rfl (fun _ _ h => h)
    (fun _ _ h => Or.inl h)
  · intro op u body h
    obtain ⟨hmem, hplaced⟩ := hi.pending op u body h
    refine ⟨?_, hplaced⟩
    by_cases hu : u = t
    · subst hu
      have hwaits := hsettled op hmem
      simp only [setPhase, setWriteSet, addLog] at h
      simp [h, OpState.isPending] at hwaits
    · simpa [setPhase, setWriteSet, addLog, hu] using hmem
  · intro u op hmem
    by_cases hu : u = t
    · subst hu
      exact Or.inr (by simp [setPhase])
    · exact Or.inl (by simpa [setPhase, setWriteSet, addLog, hu] using hmem)
  · intro u hu
    have hut : u ≠ t := by
      rintro rfl
      simp [hlive] at hu
    simp [setPhase, setWriteSet, addLog, hut]
  · intro u hu
    have hut : u ≠ t := by
      rintro rfl
      simp [setPhase] at hu
    have hold := hi.empty u (by simpa [setPhase, setWriteSet, addLog, hut] using hu)
    simpa [setPhase, setWriteSet, addLog, hut] using hold

theorem abort_spec {s : CkpState} {t : TxnId} {prevLsn : Lsn} (hi : s.Inv)
    (hset : s.writeSet t = []) (hphase : s.phase t = .live ∨ s.phase t = .aborting) :
    StepSpec s (.abort t prevLsn)
      ((s.addLog (some t) prevLsn .abort).setPhase t .aborted) := by
  refine stepSpec_append (hi.appended (r := ⟨s.log.globalLsn, some t, prevLsn, .abort⟩)
    (LogManager.add_records _ _ _ _) rfl (LogManager.add_globalLsn _ _ _ _) rfl rfl
    (fun _ _ h => Or.inl h) (fun _ => rfl) hi.pending (fun _ _ h => Or.inl h) ?_
    (fun _ => ⟨t, rfl, by simp [setPhase]⟩) ?_) rfl rfl rfl (fun _ _ h => h)
    (fun _ _ h => Or.inl h)
  · intro u hu
    have hut : u ≠ t := by
      rintro rfl
      rcases hphase with h | h <;> simp [h] at hu
    simp [setPhase, addLog, hut]
  · intro u hu
    by_cases hut : u = t
    · subst hut
      exact hset
    · exact hi.empty u (by simpa [setPhase, addLog, hut] using hu)

theorem step_spec {s s' : CkpState} {e : CkpEv} (hi : s.Inv) (hs : s.step e = some s') :
    StepSpec s e s' := by
  cases e with
  | newPage p =>
    simp only [step] at hs
    split at hs
    next hp =>
      cases Option.some.inj hs
      exact newPage_spec hi hp
    next => simp at hs
  | fetchPage p =>
    simp only [step] at hs
    split at hs
    next hp =>
      cases Option.some.inj hs
      refine stepSpec_write hi rfl rfl rfl rfl rfl ?_ (fun _ => Or.inl rfl) ?_
      · intro q
        by_cases hq : q = p
        · subst hq
          simp [current, hp]
        · simp [current, hq]
      · intro q h
        by_cases hq : q = p
        · subst hq
          simpa using h
        · simpa [hq] using hi.framed q h
    next => simp at hs
  | beginLog t prevLsn =>
    cases Option.some.inj hs
    exact stepSpec_logOnly hi rfl (by simp)
  | recordOp op t body =>
    simp only [step] at hs
    split at hs
    next p hbody hunused hlive =>
      obtain ⟨page, hpool, rfl⟩ := Option.map_eq_some_iff.mp hs
      exact recordOp_spec hi hbody hunused hlive hpool
    next => simp at hs
  | appendOp op prevLsn =>
    simp only [step] at hs
    split at hs
    next t body hpend =>
      cases Option.some.inj hs
      exact appendOp_spec hi hpend
    next => simp at hs
  | dropOp op =>
    simp only [step] at hs
    split at hs
    next t body hpend =>
      cases Option.some.inj hs
      exact dropOp_spec hi hpend
    next => simp at hs
  | failInsert op =>
    simp only [step] at hs
    split at hs
    next t body hpend =>
      obtain ⟨p, hbody, hs⟩ := Option.bind_eq_some_iff.mp hs
      obtain ⟨page, hpool, rfl⟩ := Option.map_eq_some_iff.mp hs
      exact failInsert_spec hi hpend hpool
    next => simp at hs
  | rollback t =>
    simp only [step] at hs
    split at hs
    next op rest hset hphase =>
      split at hs
      next hsettled =>
        obtain ⟨p, hp, hs⟩ := Option.bind_eq_some_iff.mp hs
        obtain ⟨page, hpool, rfl⟩ := Option.map_eq_some_iff.mp hs
        exact rollback_spec hi hset (Or.inl hphase) hsettled hp hpool
      next => simp at hs
    next op rest hset hphase =>
      split at hs
      next hsettled =>
        obtain ⟨p, hp, hs⟩ := Option.bind_eq_some_iff.mp hs
        obtain ⟨page, hpool, rfl⟩ := Option.map_eq_some_iff.mp hs
        exact rollback_spec hi hset (Or.inr hphase) hsettled hp hpool
      next => simp at hs
    next => simp at hs
  | commit t prevLsn =>
    simp only [step] at hs
    split at hs
    next hlive =>
      split at hs
      next hsettled =>
        cases Option.some.inj hs
        exact commit_spec hi hlive hsettled
      next => simp at hs
    next haborted =>
      cases Option.some.inj hs
      exact stepSpec_logOnly hi rfl (by simp)
    next => simp at hs
  | abort t prevLsn =>
    simp only [step] at hs
    split at hs
    next hset hphase =>
      cases Option.some.inj hs
      exact abort_spec hi hset (Or.inl hphase)
    next hset hphase =>
      cases Option.some.inj hs
      exact abort_spec hi hset (Or.inr hphase)
    next => simp at hs
  | checkpointLog =>
    cases Option.some.inj hs
    exact stepSpec_logOnly hi rfl (by simp)
  | flushLog =>
    cases Option.some.inj hs
    refine ⟨hi.moved (LogManager.flush_records _) (LogManager.flush_globalLsn _) rfl rfl rfl
      (fun _ _ h => h) hi.onDisk hi.framed, ⟨fun _ _ h => h, fun _ _ => Or.inl, ?_, ?_,
      fun _ _ h => h⟩, fun _ => ⟨LogManager.flush_file _, rfl⟩, by simp [flushes]⟩
    · simp
    · intro a ha
      exact Or.inl (by simpa using ha)
  | flushPage p =>
    simp only [step] at hs
    split at hs
    next page hpool =>
      cases Option.some.inj hs
      refine stepSpec_write hi rfl rfl rfl rfl rfl ?_ ?_ ?_
      · intro q
        by_cases hq : q = p
        · subst hq
          simp [current, writePage, hpool]
        · simp [current, writePage, hq]
      · intro q
        by_cases hq : q = p
        · subst hq
          simp [current, writePage, hpool]
        · simp [writePage, hq]
      · intro q h
        by_cases hq : q = p
        · simp [writePage, hq] at h
        · exact hi.framed q (by simpa [writePage, hq] using h)
    next =>
      cases Option.some.inj hs
      exact stepSpec_quiet hi rfl rfl (fun _ _ => Iff.rfl) (fun _ _ h => h)
  | evictPage p =>
    obtain ⟨page, hpool, rfl⟩ := Option.map_eq_some_iff.mp hs
    refine stepSpec_write hi rfl rfl rfl rfl rfl ?_ ?_ ?_
    · intro q
      by_cases hq : q = p
      · subst hq
        simp [current, writePage, hpool]
      · simp [current, writePage, hq]
    · intro q
      by_cases hq : q = p
      · subst hq
        simp [current, writePage, hpool]
      · simp [writePage, hq]
    · intro q h
      by_cases hq : q = p
      · simp [writePage, hq] at h
      · simpa [hq] using hi.framed q (by simpa [writePage, hq] using h)
  | flushAllPages fd =>
    cases Option.some.inj hs
    refine stepSpec_write hi rfl rfl rfl rfl rfl ?_ ?_ ?_
    · intro q
      by_cases hq : q.1 = fd
      · cases hpool : s.pool q <;> simp [current, hq, hpool]
      · simp [current, hq]
    · intro q
      by_cases hq : q.1 = fd
      · simp [current, hq]
      · simp [hq]
    · intro q h
      by_cases hq : q.1 = fd
      · simp only [hq, if_true, Option.or_eq_none_iff] at h
        exact h.1
      · simp only [hq, if_false] at h
        exact hi.framed q h

/-- In every state of a run the CHECKPOINT records in the log file are sound, exactly when no
step writes one to the file ahead of the pages. -/
theorem checkpointSound_iff_pagesFirst {persist : Lsn} {tr : List CkpEv} {s : CkpState}
    (h : run step (fresh persist) tr = some s) :
    (∀ tr₁ tr₂ s₁, tr = tr₁ ++ tr₂ → run step (fresh persist) tr₁ = some s₁ →
      s₁.CheckpointSound) ↔ MeetsAll step PagesFirst (fresh persist) tr := by
  have hstart : (fresh persist).Inv ∧ (fresh persist).CheckpointSound :=
    ⟨inv_fresh persist, by simp [CheckpointSound, fresh, LogManager.fresh]⟩
  refine forall_prefix_iff_meetsAll (I := fun s => s.Inv ∧ s.CheckpointSound)
    (p := CheckpointSound) (fun _ hi => hi.2) ?_ ?_ hstart h
  · intro s e s' hi hgood hs
    have hspec := step_spec hi.1 hs
    refine ⟨hspec.inv, ?_⟩
    cases hf : s.flushes e with
    | true =>
      obtain ⟨hfile, hdisk⟩ := hspec.flushed hf
      exact (hi.2.flush_iff hi.1 hspec.ext hfile hdisk).mpr (hgood hf)
    | false => exact hi.2.keep hi.1 hspec.ext (hspec.kept hf)
  · intro s e s' hi hbad hs hsound
    have hspec := step_spec hi.1 hs
    apply hbad
    intro hf
    obtain ⟨hfile, hdisk⟩ := hspec.flushed hf
    exact (hi.2.flush_iff hi.1 hspec.ext hfile hdisk).mp hsound

def insertBody : LogBody := .insert [1] ⟨⟨1, 0⟩, "t", 1, 2⟩

/-- One row is inserted and logged. -/
def insertSteps : List CkpEv :=
  [.beginLog 0 (-1), .newPage ("t", 1), .recordOp 0 0 insertBody, .appendOp 0 0]

/-- The page is written before the checkpoint statement. -/
def pagesFirstTrace : List CkpEv :=
  insertSteps ++ [.flushPage ("t", 1), .checkpointLog, .flushLog, .flushAllPages "t"]

theorem checkpointSound_iff_pagesFirst_flushed : ∃ s,
    run step (fresh 0) pagesFirstTrace = some s ∧ s.log.file.length = 3 ∧
    ∀ tr₁ tr₂ s₁, pagesFirstTrace = tr₁ ++ tr₂ → run step (fresh 0) tr₁ = some s₁ →
      s₁.CheckpointSound := by
  refine ⟨_, rfl, by decide +kernel, (checkpointSound_iff_pagesFirst rfl).mpr ?_⟩
  have quiet : ∀ {s : CkpState} {e : CkpEv}, s.flushes e = false → s.PagesFirst e := by
    intro s e he hf
    simp [he] at hf
  refine meetsAll_cons rfl (quiet (by decide +kernel)) ?_
  refine meetsAll_cons rfl (quiet (by decide +kernel)) ?_
  refine meetsAll_cons rfl (quiet (by decide +kernel)) ?_
  refine meetsAll_cons rfl (quiet (by decide +kernel)) ?_
  refine meetsAll_cons rfl (quiet (by decide +kernel)) ?_
  refine meetsAll_cons rfl (quiet (by decide +kernel)) ?_
  refine meetsAll_cons rfl ?_ (meetsAll_cons rfl (quiet (by decide +kernel)) trivial)
  intro _ ck _ _ p page hpool c hc _
  by_cases hp : p = ("t", 1)
  · subst hp
    exact ⟨page, hpool, hc⟩
  · simp [fresh, addLog, writePage, setStatus, setWriteSet, change, LogPlace.pageKey, hp] at hpool

/-- The checkpoint statement as it is: the server crashes after the log flush. -/
def checkpointTrace : List CkpEv := insertSteps ++ [.checkpointLog, .flushLog]

theorem not_checkpointSound_midway : ∃ s, run step (fresh 0) checkpointTrace = some s ∧
    s.log.file = [⟨0, some 0, -1, .begin⟩, ⟨1, some 0, 0, insertBody⟩,
      ⟨2, none, -1, .checkpoint⟩] ∧
    s.disk ("t", 1) = some [] ∧ ¬ s.CheckpointSound := by
  refine ⟨_, rfl, by decide +kernel, by decide +kernel, fun h => ?_⟩
  obtain ⟨page, hpage, hc⟩ := h ⟨2, none, -1, .checkpoint⟩ (by decide +kernel) rfl ("t", 1)
    (.op 0) ⟨⟨1, some 0, 0, insertBody⟩, by decide +kernel, by decide +kernel, by decide +kernel⟩
  have : page = [] := by
    have hnil : some ([] : List Change) = some page := hpage
    exact (Option.some.inj hnil).symm
  simp [this] at hc

end CkpState

end Grmdb
