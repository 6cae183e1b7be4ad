import Grmdb.Analyze
import Grmdb.Transaction

namespace Grmdb

open AssocMap

def HasRecord (l : List LogRecord) (t : TxnId) (body : LogBody) : Prop :=
  ∃ r ∈ l, r.logTid = some t ∧ r.body = body

/-- A CHECKPOINT record follows an ABORT record of `t`. -/
def CheckpointedAbort (l : List LogRecord) (t : TxnId) : Prop :=
  ∃ l₁ a l₂, l = l₁ ++ a :: l₂ ∧ a.logTid = some t ∧ a.body = .abort ∧
    ∃ c ∈ l₂, c.body = .checkpoint

/-- What the log says of a transaction in each state, and what `analyze` makes of it: one that
aborted stays in the ATT until a checkpoint. -/
def EndedAs (l : List LogRecord) (t : TxnId) : Option TransactionState → Prop
  | none => ∀ r ∈ l, r.logTid ≠ some t
  | some .growing =>
    ¬ HasRecord l t .commit ∧ ¬ HasRecord l t .abort ∧ (lookup t (analyze l).att).isSome = true
  | some .committed =>
    HasRecord l t .commit ∧ ¬ HasRecord l t .abort ∧ lookup t (analyze l).att = none
  | some .aborted =>
    ¬ HasRecord l t .commit ∧ HasRecord l t .abort ∧
      if t ∈ (analyze l).abortedTids then (lookup t (analyze l).att).isSome = true
      else lookup t (analyze l).att = none ∧ CheckpointedAbort l t
  | some .default | some .shrinking => False

theorem hasRecord_concat {l : List LogRecord} {r : LogRecord} {t : TxnId} {b : LogBody} :
    HasRecord (l ++ [r]) t b ↔ HasRecord l t b ∨ r.logTid = some t ∧ r.body = b := by
  simp only [HasRecord, List.mem_append, List.mem_singleton]
  constructor
  · rintro ⟨q, hq | rfl, h⟩
    · exact Or.inl ⟨q, hq, h⟩
    · exact Or.inr h
  · rintro (⟨q, hq, h⟩ | h)
    · exact ⟨q, Or.inl hq, h⟩
    · exact ⟨r, Or.inr rfl, h⟩

theorem HasRecord.mono {l l' : List LogRecord} {t : TxnId} {b : LogBody} (h : HasRecord l t b)
    (hl : l <+: l') : HasRecord l' t b := by
  obtain ⟨r, hr, ht⟩ := h
  exact ⟨r, hl.subset hr, ht⟩

theorem CheckpointedAbort.concat {l : List LogRecord} {t : TxnId} (h : CheckpointedAbort l t)
    (r : LogRecord) : CheckpointedAbort (l ++ [r]) t := by
  obtain ⟨l₁, a, l₂, rfl, ha, hb, c, hc, hcb⟩ := h
  exact ⟨l₁, a, l₂ ++ [r], by simp, ha, hb, c, List.mem_append_left _ hc, hcb⟩

theorem checkpointedAbort_now {l : List LogRecord} {t : TxnId} {r : LogRecord}
    (h : HasRecord l t .abort) (hr : r.body = .checkpoint) : CheckpointedAbort (l ++ [r]) t := by
  obtain ⟨a, ha, ht, hb⟩ := h
  obtain ⟨l₁, l₂, rfl⟩ := List.append_of_mem ha
  exact ⟨l₁, a, l₂ ++ [r], by simp, ht, hb, r, by simp, hr⟩

/-- The verdict on `t` does not depend on the other transactions' records. -/
theorem EndedAs.other {l : List LogRecord} {t : TxnId} {r : LogRecord}
    {st : Option TransactionState} (h : EndedAs l t st) (hr : r.logTid ≠ some t)
    (hb : r.body ≠ .checkpoint) : EndedAs (l ++ [r]) t st := by
  have hrec : ∀ b, HasRecord (l ++ [r]) t b ↔ HasRecord l t b := by
    intro b
    simp [hasRecord_concat, hr]
  have hatt : lookup t (analyze (l ++ [r])).att = lookup t (analyze l).att := by
    rw [analyze_concat]
    exact analyzeRecord_att_other hr hb
  have htids : t ∈ (analyze (l ++ [r])).abortedTids ↔ t ∈ (analyze l).abortedTids := by
    rw [analyze_concat]
    exact mem_abortedTids_other (fun _ => hr) hb
  cases st with
  | none =>
    intro q hq
    rcases List.mem_append.mp hq with hq | hq
    · exact h q hq
    · rw [List.mem_singleton] at hq
      exact hq ▸ hr
  | some st =>
    cases st with
    | growing => simpa only [EndedAs, hrec, hatt] using h
    | committed => simpa only [EndedAs, hrec, hatt] using h
    | aborted =>
      obtain ⟨h1, h2, h3⟩ := h
      refine ⟨by rwa [hrec], by rwa [hrec], ?_⟩
      simp only [htids, hatt]
      split
      next hm => simpa [hm] using h3
      next hm =>
        rw [if_neg hm] at h3
        exact ⟨h3.1, h3.2.concat r⟩
    | default => exact h
    | shrinking => exact h

theorem EndedAs.checkpoint {l : List LogRecord} {t : TxnId} {r : LogRecord}
    {st : Option TransactionState} (h : EndedAs l t st) (hr : r.logTid = none)
    (hb : r.body = .checkpoint) : EndedAs (l ++ [r]) t st := by
  have hrec : ∀ b, HasRecord (l ++ [r]) t b ↔ HasRecord l t b := by
    intro b
    simp [hasRecord_concat, hr]
  have hatt : lookup t (analyze (l ++ [r])).att =
      if t ∈ (analyze l).abortedTids then none else lookup t (analyze l).att := by
    rw [analyze_concat]
    simp [analyzeRecord, hb, lookup_foldl_erase]
  have hmem : t ∈ (analyze l).abortedTids → HasRecord l t .abort := mem_abortedTids_abort
  cases st with
  | none =>
    intro q hq
    rcases List.mem_append.mp hq with hq | hq
    · exact h q hq
    · rw [List.mem_singleton] at hq
      simp [hq, hr]
  | some st =>
    cases st with
    | growing =>
      obtain ⟨h1, h2, h3⟩ := h
      refine ⟨by rwa [hrec], by rwa [hrec], ?_⟩
      rwa [hatt, if_neg (fun hm => h2 (hmem hm))]
    | committed =>
      obtain ⟨h1, h2, h3⟩ := h
      refine ⟨by rwa [hrec], by rwa [hrec], ?_⟩
      rw [hatt]
      split
      · rfl
      · exact h3
    | aborted =>
      obtain ⟨h1, h2, h3⟩ := h
      refine ⟨by rwa [hrec], by rwa [hrec], ?_⟩
      have hnone : t ∉ (analyze (l ++ [r])).abortedTids := by
        rw [analyze_concat]
        simp [analyzeRecord, hb]
      rw [if_neg hnone, hatt]
      refine ⟨?_, checkpointedAbort_now h2 hb⟩
      split
      next => rfl
      next hm =>
        rw [if_neg hm] at h3
        exact h3.1
    | default => exact h
    | shrinking => exact h

section Own

variable {l : List LogRecord} {t : TxnId} {r : LogRecord}

theorem EndedAs.begin (h : EndedAs l t none) (hr : r.logTid = some t) (hb : r.body = .begin) :
    EndedAs (l ++ [r]) t (some .growing) := by
  have hno : ∀ b, ¬ HasRecord l t b := fun b ⟨q, hq, hqt, _⟩ => h q hq hqt
  refine ⟨?_, ?_, ?_⟩
  · simp [hasRecord_concat, hno, hb]
  · simp [hasRecord_concat, hno, hb]
  · simp [analyze_concat, analyzeRecord, hb, assignTid, hr, lookup_assign]

theorem EndedAs.data (h : EndedAs l t (some .growing)) (hr : r.logTid = some t)
    (hb : r.body.isData = true) : EndedAs (l ++ [r]) t (some .growing) := by
  obtain ⟨h1, h2, h3⟩ := h
  have hbody : r.body ≠ .commit ∧ r.body ≠ .abort := by
    constructor <;> intro he <;> simp [he, LogBody.isData] at hb
  refine ⟨by simp [hasRecord_concat, h1, hbody], by simp [hasRecord_concat, h2, hbody], ?_⟩
  rw [analyze_concat]
  cases hbd : r.body with
  | update old new place => simp [analyzeRecord, hbd, analyzeData, assignTid, hr, lookup_assign]
  | insert value place => simp [analyzeRecord, hbd, analyzeData, assignTid, hr, lookup_assign]
  | delete value place => simp [analyzeRecord, hbd, analyzeData, assignTid, hr, lookup_assign]
  | begin => simp [hbd, LogBody.isData] at hb
  | commit => simp [hbd, LogBody.isData] at hb
  | abort => simp [hbd, LogBody.isData] at hb
  | checkpoint => simp [hbd, LogBody.isData] at hb

theorem EndedAs.commit (h : ¬ HasRecord l t .abort) (hr : r.logTid = some t)
    (hb : r.body = .commit) : EndedAs (l ++ [r]) t (some .committed) := by
  refine ⟨?_, ?_, ?_⟩
  · simp [hasRecord_concat, hr, hb]
  · simp [hasRecord_concat, h, hb]
  · simp [analyze_concat, analyzeRecord, hb, hr, lookup_erase]

theorem EndedAs.abort (h : EndedAs l t (some .growing)) (hr : r.logTid = some t)
    (hb : r.body = .abort) : EndedAs (l ++ [r]) t (some .aborted) := by
  obtain ⟨h1, h2, h3⟩ := h
  refine ⟨by simp [hasRecord_concat, h1, hb], by simp [hasRecord_concat, hr, hb], ?_⟩
  simpa [analyze_concat, analyzeRecord, hb, hr] using h3

end Own

/-- Every transaction is recorded in the log as it stands. -/
def Server.Ended (s : Server) : Prop := ∀ t, EndedAs s.log.records t (s.stateOf t)

/-- A record of `t` decides about `t` only. -/
theorem Server.Ended.record {s s' : Server} (h : s.Ended) {t : TxnId} {r : LogRecord}
    (hrec : s'.log.records = s.log.records ++ [r]) (hr : r.logTid = some t)
    (hb : r.body ≠ .checkpoint) (hst : ∀ u, u ≠ t → s'.stateOf u = s.stateOf u)
    (hown : EndedAs (s.log.records ++ [r]) t (s'.stateOf t)) : s'.Ended := by
  intro u
  rw [hrec]
  by_cases hu : u = t
  · exact hu ▸ hown
  · rw [hst u hu]
    refine (h u).other ?_ hb
    rw [hr]
    exact fun he => hu (Option.some.inj he).symm

theorem Server.stateOf_commit (s : Server) (t u : TxnId) :
    (s.commit t).stateOf u = if u = t then (s.stateOf u).map (fun _ => .committed)
      else s.stateOf u := by
  simp [commit, setState_stateOf]

theorem Server.stateOf_abort (s : Server) (t u : TxnId) :
    (s.abort t).stateOf u = if u = t then (s.stateOf u).map (fun _ => .aborted)
      else s.stateOf u := by
  simp [abort, setState_stateOf]

theorem Server.commit_records (s : Server) (t : TxnId) :
    (s.commit t).log.records =
      s.log.records ++ [⟨s.log.globalLsn, some t, s.prevLsnOf t, .commit⟩] := by
  rw [commit, setState_log, logRecord_records]

theorem Server.abort_records (s : Server) (t : TxnId) :
    (s.abort t).log.records =
      s.log.records ++ [⟨s.log.globalLsn, some t, s.prevLsnOf t, .abort⟩] := by
  rw [abort, setState_log, logRecord_records]

theorem Server.checkpoint_records (s : Server) :
    s.checkpoint.log.records =
      s.log.records ++ [⟨s.log.globalLsn, none, INVALID_LSN, .checkpoint⟩] := by
  simp [checkpoint, LogManager.add_records]

theorem Server.begin_records (s : Server) : ∃ r, r.logTid = some s.nextTxnId ∧ r.body = .begin ∧
    s.begin.log.records = s.log.records ++ [r] := by
  refine ⟨_, ?_, ?_, by rw [begin, logRecord_records, beginTxn_records]⟩ <;> rfl

theorem Server.begin_stateOf (s : Server) (u : TxnId) :
    s.begin.stateOf u = if u = s.nextTxnId then some .growing else s.stateOf u := by
  simp [begin, beginTxn_stateOf]

theorem Server.Ended.logRecord {s : Server} (h : s.Ended) {t : TxnId} {body : LogBody}
    (ht : s.stateOf t = some .growing) (hb : body.isData = true) : (s.logRecord t body).Ended := by
  refine h.record (t := t) (logRecord_records s t body) rfl ?_ (by simp) ?_
  · rintro rfl
    simp [LogBody.isData] at hb
  · have hown := h t
    rw [ht] at hown
    rw [logRecord_stateOf, ht]
    exact hown.data rfl hb

theorem Server.Ended.commit {s : Server} (h : s.Ended) {t : TxnId}
    (ht : s.stateOf t = some .growing ∨ s.stateOf t = some .committed) : (s.commit t).Ended := by
  have hstate : (s.commit t).stateOf t = some .committed := by
    rcases ht with ht | ht <;> simp [stateOf_commit, ht]
  have hno : ¬ HasRecord s.log.records t .abort := by
    have hown := h t
    rcases ht with ht | ht
    · rw [ht] at hown
      exact hown.2.1
    · rw [ht] at hown
      exact hown.2.1
  refine h.record (t := t) (commit_records s t) rfl (by simp) ?_ ?_
  · intro u hu
    simp [stateOf_commit, hu]
  · rw [hstate]
    exact EndedAs.commit hno rfl rfl

theorem Server.Ended.abort {s : Server} (h : s.Ended) {t : TxnId}
    (ht : s.stateOf t = some .growing) : (s.abort t).Ended := by
  have hstate : (s.abort t).stateOf t = some .aborted := by simp [stateOf_abort, ht]
  have hown := h t
  rw [ht] at hown
  refine h.record (t := t) (abort_records s t) rfl (by simp) ?_ ?_
  · intro u hu
    simp [stateOf_abort, hu]
  · rw [hstate]
    exact hown.abort rfl rfl

/-- `abort` behaves the same when the thrower has set ABORTED before. -/
theorem Server.throwAbort_ended {s : Server} (h : s.Ended) {t : TxnId}
    (ht : s.stateOf t = some .growing) : ((s.setState t .aborted).abort t).Ended := by
  have hown := h t
  rw [ht] at hown
  refine h.record (t := t) (r := ⟨s.log.globalLsn, some t, (s.setState t .aborted).prevLsnOf t,
    .abort⟩) ?_ rfl (by simp) ?_ ?_
  · rw [abort_records, setState_log]
  · intro u hu
    simp [stateOf_abort, setState_stateOf, hu]
  · have hstate : ((s.setState t .aborted).abort t).stateOf t = some .aborted := by
      simp [stateOf_abort, setState_stateOf, ht]
    rw [hstate]
    exact hown.abort rfl rfl

theorem Server.Ended.checkpoint {s : Server} (h : s.Ended) : s.checkpoint.Ended := by
  intro t
  rw [checkpoint_records]
  exact (h t).checkpoint rfl rfl

theorem Server.Ended.begin {s : Server} (h : s.Ended) (hnew : s.stateOf s.nextTxnId = none) :
    s.begin.Ended := by
  obtain ⟨r, hr, hb, hrec⟩ := begin_records s
  have hown := h s.nextTxnId
  rw [hnew] at hown
  refine h.record hrec hr (by simp [hb]) ?_ ?_
  · intro u hu
    simp [begin_stateOf, hu]
  · rw [begin_stateOf, if_pos rfl]
    exact hown.begin hr hb

theorem Server.Ended.oneOutcome {s : Server} (h : s.Ended) (t : TxnId) :
    ¬ (HasRecord s.log.records t .abort ∧ HasRecord s.log.records t .commit) := by
  rintro ⟨ha, hc⟩
  have hown := h t
  cases hst : s.stateOf t with
  | none =>
    rw [hst] at hown
    obtain ⟨r, hr, ht, _⟩ := ha
    exact hown r hr ht
  | some st =>
    rw [hst] at hown
    cases st with
    | growing => exact hown.2.1 ha
    | committed => exact hown.2.1 ha
    | aborted => exact hown.1 hc
    | default => exact hown
    | shrinking => exact hown

end Grmdb
