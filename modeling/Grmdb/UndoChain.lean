import Grmdb.Runs
import Grmdb.Transaction

namespace Grmdb

open Runs

/-- The record that `log_offsets_` finds under an LSN: the first one in the log that carries it. -/
def recordOf (log : List LogRecord) (lsn : Lsn) : Option LogRecord :=
  log.find? fun r => r.lsn = lsn

def ofTxn (t : TxnId) (log : List LogRecord) : List LogRecord :=
  log.filter fun r => r.logTid = some t

/-- The records met from `r` on along `prev_lsn_`, up to the first BEGIN record. -/
def followPrev (log : List LogRecord) : Nat → LogRecord → List LogRecord
  | 0, r => [r]
  | fuel + 1, r =>
    if r.body = .begin then [r]
    else
      match recordOf log r.prevLsn with
      | some q => r :: followPrev log fuel q
      | none => [r]

/-- From every data record of a transaction `prev_lsn_` leads through the records of this
transaction up to it, newest first and without a gap, to a BEGIN record. -/
def ChainsInside (log : List LogRecord) : Prop :=
  ∀ pre r post t, log = pre ++ r :: post → r.logTid = some t → r.body.isData = true →
    followPrev log log.length r = (ofTxn t (pre ++ [r])).reverse ∧
    ∃ b, (followPrev log log.length r).getLast? = some b ∧ b.body = .begin

/-- Where the client of a transaction stands with its log records. An executor takes the LSN
that its record is to get, and appends the record in a later step. -/
inductive LogPhase where
  | starting
  | idle
  | predicted (prevLsn : Lsn) (body : LogBody)
  deriving DecidableEq, Repr

def LogPhase.isPredicted : LogPhase → Bool
  | .predicted _ _ => true
  | _ => false

structure ChainState where
  server : Server
  phase : TxnId → LogPhase

/-- `beginLog`, `commit` and `abort` set `prev_lsn_` to the LSN that `add_log_to_buffer` returned
to them. -/
inductive ChainEv where
  | beginTxn
  | beginLog (t : TxnId)
  | predict (t : TxnId) (body : LogBody)
  | append (t : TxnId)
  | commit (t : TxnId)
  | abort (t : TxnId)
  | checkpoint
  | flushLog
  deriving DecidableEq, Repr

namespace ChainState

def fresh (persist : Lsn) : ChainState := ⟨Server.fresh persist, fun _ => .starting⟩

def put (s : ChainState) (t : TxnId) (server : Server) (phase : LogPhase) : ChainState :=
  ⟨server, Function.update s.phase t phase⟩

def step (s : ChainState) : ChainEv → Option ChainState
  | .beginTxn => some { s with server := s.server.beginTxn }
  | .beginLog t =>
    match s.server.txns t, s.phase t with
    | some _, .starting => some (s.put t (s.server.logRecord t .begin) .idle)
    | _, _ => none
  | .predict t body =>
    match s.phase t with
    | .idle =>
      if body.isData then
        let server := s.server.modify t fun txn => { txn with prevLsn := s.server.log.globalLsn }
        some (s.put t server (.predicted (s.server.prevLsnOf t) body))
      else none
    | _ => none
  | .append t =>
    match s.phase t with
    | .predicted prevLsn body =>
      let log := s.server.log.addLogToBuffer (some t) prevLsn body
      some (s.put t { s.server with log := log } .idle)
    | _ => none
  | .commit t =>
    match s.phase t with
    | .idle => some (s.put t (s.server.commit t) .idle)
    | _ => none
  | .abort t =>
    match s.phase t with
    | .idle => some (s.put t (s.server.abort t) .idle)
    | _ => none
  | .checkpoint => some { s with server := s.server.checkpoint }
  | .flushLog => some { s with server := { s.server with log := s.server.log.flushLogToDisk } }

/-- No client has an LSN in hand, apart from the one that is to append. -/
def NonePredicted (s : ChainState) (own : Option TxnId) : Prop :=
  ∀ u < s.server.nextTxnId, own ≠ some u → (s.phase u).isPredicted = false

instance (s : ChainState) (own : Option TxnId) : Decidable (s.NonePredicted own) :=
  inferInstanceAs (Decidable (∀ u < s.server.nextTxnId, own ≠ some u →
    (s.phase u).isPredicted = false))

/-- A step that appends a record does so between no other client's two steps. -/
def AppendsApart (s : ChainState) : ChainEv → Prop
  | .beginLog t | .append t | .commit t | .abort t => s.NonePredicted (some t)
  | .checkpoint => s.NonePredicted none
  | _ => True

instance (s : ChainState) (e : ChainEv) : Decidable (s.AppendsApart e) := by
  unfold AppendsApart
  split <;> infer_instance

end ChainState

theorem ofTxn_append (t : TxnId) (l l' : List LogRecord) :
    ofTxn t (l ++ l') = ofTxn t l ++ ofTxn t l' := List.filter_append ..

theorem ofTxn_own {t : TxnId} {r : LogRecord} (h : r.logTid = some t) : ofTxn t [r] = [r] := by
  simp [ofTxn, h]

theorem ofTxn_other {t : TxnId} {r : LogRecord} (h : r.logTid ≠ some t) : ofTxn t [r] = [] := by
  simp [ofTxn, h]

/-- The LSN of a record is its position in the log. -/
def Numbered (log : List LogRecord) : Prop := ∀ (i : Nat) r, log[i]? = some r → r.lsn = i

theorem Numbered.concat {log : List LogRecord} {r : LogRecord} (h : Numbered log)
    (hr : r.lsn = log.length) : Numbered (log ++ [r]) := by
  intro i q hq
  rcases Nat.lt_trichotomy i log.length with hi | hi | hi
  · rw [List.getElem?_append_left hi] at hq
    exact h i q hq
  · subst hi
    have : r = q := by simpa using hq
    rw [← this, hr]
  · rw [List.getElem?_eq_none (by simp; omega)] at hq
    simp at hq

theorem Numbered.recordOf_mid {pre post : List LogRecord} {r : LogRecord}
    (h : Numbered (pre ++ r :: post)) : recordOf (pre ++ r :: post) r.lsn = some r := by
  have hr : r.lsn = pre.length := h pre.length r (by simp)
  have hpre : pre.find? (fun q => q.lsn = r.lsn) = none := by
    rw [List.find?_eq_none]
    intro q hq heq
    obtain ⟨i, hi, rfl⟩ := List.mem_iff_getElem.mp hq
    have hlsn := h i pre[i] (by rw [List.getElem?_append_left hi, List.getElem?_eq_getElem hi])
    rw [decide_eq_true_eq, hlsn, hr] at heq
    have := Int.ofNat_inj.mp heq
    omega
  rw [recordOf, List.find?_append, hpre]
  simp

/-- `r` continues the chain of its transaction after the records `pre`. -/
def Link (pre : List LogRecord) (r : LogRecord) : Prop :=
  ∀ t, r.logTid = some t →
    (ofTxn t pre = [] ∧ r.body = .begin) ∨
    ∃ q, (ofTxn t pre).getLast? = some q ∧ r.prevLsn = q.lsn ∧ r.body ≠ .begin

def Linked (log : List LogRecord) : Prop := ∀ pre r post, log = pre ++ r :: post → Link pre r

theorem Linked.concat {log : List LogRecord} {r : LogRecord} (h : Linked log)
    (hr : Link log r) : Linked (log ++ [r]) := by
  intro pre q post heq
  rcases List.eq_nil_or_concat post with rfl | ⟨post, last, rfl⟩
  · obtain ⟨rfl, hq⟩ := List.append_inj' heq rfl
    cases hq
    exact hr
  · have heq' : log ++ [r] = (pre ++ q :: post) ++ [last] := by simpa using heq
    exact h pre q post (List.append_inj' heq' rfl).1

/-- The last record of `t` in a list splits the list. -/
theorem exists_split_last {t : TxnId} {q : LogRecord} {log : List LogRecord}
    (h : (ofTxn t log).getLast? = some q) :
    ∃ pre post, log = pre ++ q :: post ∧ q.logTid = some t ∧
      ofTxn t log = ofTxn t (pre ++ [q]) := by
  induction log using List.reverseRecOn with
  | nil => simp [ofTxn] at h
  | append_singleton log r ih =>
    by_cases hr : r.logTid = some t
    · have : r = q := by simpa [ofTxn_append, ofTxn_own hr] using h
      subst this
      exact ⟨log, [], rfl, hr, rfl⟩
    · rw [ofTxn_append, ofTxn_other hr, List.append_nil] at h
      obtain ⟨pre, post, rfl, hq, heq⟩ := ih h
      refine ⟨pre, post ++ [r], by simp, hq, ?_⟩
      rw [ofTxn_append, ofTxn_other hr, List.append_nil, heq]

/-- The walk from `r`, by induction on the fuel: each link leads to a shorter prefix. -/
theorem followPrev_eq {log : List LogRecord} {t : TxnId} (hn : Numbered log) (hl : Linked log)
    (fuel : Nat) {pre post : List LogRecord} {r : LogRecord} (heq : log = pre ++ r :: post)
    (hr : r.logTid = some t) (hfuel : pre.length ≤ fuel) :
    followPrev log fuel r = (ofTxn t (pre ++ [r])).reverse := by
  induction fuel generalizing pre post r with
  | zero =>
    have : pre = [] := List.length_eq_zero_iff.mp (by omega)
    subst this
    simp [followPrev, ofTxn, hr]
  | succ fuel ih =>
    have hown : (ofTxn t (pre ++ [r])).reverse = r :: (ofTxn t pre).reverse := by
      rw [ofTxn_append, ofTxn_own hr, List.reverse_append, List.reverse_singleton,
        List.singleton_append]
    rw [hown]
    rcases hl pre r post heq t hr with ⟨hnil, hb⟩ | ⟨q, hlast, hprev, hb⟩
    · simp [followPrev, hb, hnil]
    · obtain ⟨pre', post', hsplit, hq, hsame⟩ := exists_split_last hlast
      have hlog : log = pre' ++ q :: (post' ++ r :: post) := by simp [heq, hsplit]
      have hfind : recordOf log r.prevLsn = some q := by
        rw [hprev, hlog]
        rw [hlog] at hn
        exact hn.recordOf_mid
      have hshort : pre'.length ≤ fuel := by
        have := congrArg List.length hsplit
        simp only [List.length_append, List.length_cons] at this
        omega
      simp only [followPrev, if_neg hb, hfind]
      rw [ih hlog hq hshort, hsame]

/-- The first record of a transaction is its BEGIN record. -/
theorem Linked.head_begin {log : List LogRecord} {t : TxnId} {b : LogRecord} (hl : Linked log)
    (h : (ofTxn t log).head? = some b) : b.body = .begin := by
  induction log using List.reverseRecOn with
  | nil => simp [ofTxn] at h
  | append_singleton log r ih =>
    have hlog : Linked log := by
      intro pre q post heq
      exact hl pre q (post ++ [r]) (by simp [heq])
    rw [ofTxn_append] at h
    cases hold : ofTxn t log with
    | cons c rest =>
      rw [hold] at h
      exact ih hlog (by simpa [hold] using h)
    | nil =>
      by_cases hr : r.logTid = some t
      · have : r = b := by simpa [hold, ofTxn_own hr] using h
        subst this
        rcases hl log r [] rfl t hr with ⟨_, hb⟩ | ⟨q, hlast, _⟩
        · exact hb
        · simp [hold] at hlast
      · simp [hold, ofTxn_other hr] at h

theorem Linked.left {pre post : List LogRecord} (h : Linked (pre ++ post)) : Linked pre := by
  intro pre' r post' heq
  exact h pre' r (post' ++ post) (by simp [heq])

theorem chainsInside_of_linked {log : List LogRecord} (hn : Numbered log) (hl : Linked log) :
    ChainsInside log := by
  intro pre r post t heq hr _
  have hfuel : pre.length ≤ log.length := by
    rw [heq, List.length_append]
    exact Nat.le_add_right _ _
  have hwalk := followPrev_eq hn hl log.length heq hr hfuel
  have hsub : Linked (pre ++ [r]) := by
    have hsplit : log = (pre ++ [r]) ++ post := by simp [heq]
    rw [hsplit] at hl
    exact hl.left
  refine ⟨hwalk, ?_⟩
  cases hown : ofTxn t (pre ++ [r]) with
  | nil => simp [ofTxn_append, ofTxn_own hr] at hown
  | cons b rest =>
    refine ⟨b, by rw [hwalk, hown]; simp, ?_⟩
    exact hsub.head_begin (t := t) (by simp [hown])

namespace ChainState

/-- What `prev_lsn_` of a transaction holds in each phase of its client. -/
structure Inv (s : ChainState) : Prop where
  numbered : Numbered s.server.log.records
  next : s.server.log.globalLsn = s.server.log.records.length
  linked : Linked s.server.log.records
  unborn : ∀ t, s.server.nextTxnId ≤ t → s.server.txns t = none
  born : ∀ t, s.phase t ≠ .starting → s.server.txns t ≠ none
  starting : ∀ t, s.phase t = .starting → ofTxn t s.server.log.records = []
  idle : ∀ t, s.phase t = .idle → ∃ q, (ofTxn t s.server.log.records).getLast? = some q ∧
    s.server.prevLsnOf t = q.lsn
  predicted : ∀ t prevLsn body, s.phase t = .predicted prevLsn body →
    body.isData = true ∧ s.server.prevLsnOf t = s.server.log.globalLsn ∧
    ∃ q, (ofTxn t s.server.log.records).getLast? = some q ∧ prevLsn = q.lsn

theorem inv_fresh (persist : Lsn) : (fresh persist).Inv := by
  refine ⟨?_, rfl, ?_, fun _ _ => rfl, ?_, fun _ _ => rfl, ?_, ?_⟩
  · intro i r h
    simp [fresh, Server.fresh, LogManager.fresh, LogManager.records] at h
  · intro pre r post h
    simp [fresh, Server.fresh, LogManager.fresh, LogManager.records] at h
  all_goals simp [fresh]

/-- One more record, appended while no other client has an LSN in hand. -/
theorem Inv.appended {s s' : ChainState} {r : LogRecord} (hi : s.Inv)
    (hrec : s'.server.log.records = s.server.log.records ++ [r])
    (hnext : s'.server.log.globalLsn = s.server.log.globalLsn + 1)
    (hlsn : r.lsn = s.server.log.globalLsn) (hlink : Link s.server.log.records r)
    (hid : s'.server.nextTxnId = s.server.nextTxnId)
    (htxns : ∀ t, s'.server.txns t = none ↔ s.server.txns t = none)
    (hother : ∀ t, r.logTid ≠ some t →
      s'.phase t = s.phase t ∧ s'.server.prevLsnOf t = s.server.prevLsnOf t)
    (hown : ∀ t, r.logTid = some t →
      s'.phase t = .idle ∧ s'.server.prevLsnOf t = r.lsn ∧ s.server.txns t ≠ none)
    (apart : s.NonePredicted r.logTid) : s'.Inv := by
  have hkeep : ∀ t, r.logTid ≠ some t →
      ofTxn t s'.server.log.records = ofTxn t s.server.log.records := by
    intro t ht
    rw [hrec, ofTxn_append, ofTxn_other ht, List.append_nil]
  refine ⟨?_, ?_, ?_, ?_, ?_, ?_, ?_, ?_⟩
  · rw [hrec]
    exact hi.numbered.concat (hlsn.trans hi.next)
  · rw [hnext, hi.next, hrec]
    simp
  · rw [hrec]
    exact hi.linked.concat hlink
  · intro t ht
    rw [hid] at ht
    exact (htxns t).mpr (hi.unborn t ht)
  · intro t ht
    by_cases hr : r.logTid = some t
    · exact fun h => (hown t hr).2.2 ((htxns t).mp h)
    · rw [(hother t hr).1] at ht
      exact fun h => hi.born t ht ((htxns t).mp h)
  · intro t ht
    have hr : r.logTid ≠ some t := by
      intro hr
      rw [(hown t hr).1] at ht
      simp at ht
    rw [hkeep t hr]
    exact hi.starting t ((hother t hr).1.symm.trans ht)
  · intro t ht
    by_cases hr : r.logTid = some t
    · refine ⟨r, ?_, (hown t hr).2.1⟩
      rw [hrec, ofTxn_append, ofTxn_own hr, List.getLast?_concat]
    · rw [hkeep t hr, (hother t hr).2]
      exact hi.idle t ((hother t hr).1.symm.trans ht)
  · -- the only client that may be between its two steps is the one that appends
    intro t prevLsn body ht
    exfalso
    have hr : r.logTid ≠ some t := by
      intro hr
      rw [(hown t hr).1] at ht
      simp at ht
    rw [(hother t hr).1] at ht
    have hlive : t < s.server.nextTxnId := by
      by_contra hge
      exact hi.born t (by simp [ht]) (hi.unborn t (not_lt.mp hge))
    have := apart t hlive hr
    simp [ht, LogPhase.isPredicted] at this

theorem modify_txns_none (s : Server) (t u : TxnId) (f : Transaction → Transaction) :
    (s.modify t f).txns u = none ↔ s.txns u = none := by
  simp only [Server.modify]
  split <;> simp

theorem prevLsnOf_modify_other {s : Server} {t u : TxnId} (f : Transaction → Transaction)
    (h : u ≠ t) : (s.modify t f).prevLsnOf u = s.prevLsnOf u := by
  simp [Server.prevLsnOf, Server.modify, h]

theorem prevLsnOf_modify_own {s : Server} {t : TxnId} {lsn : Lsn} (h : s.txns t ≠ none) :
    (s.modify t fun txn => { txn with prevLsn := lsn }).prevLsnOf t = lsn := by
  obtain ⟨txn, htxn⟩ := Option.ne_none_iff_exists'.mp h
  simp [Server.prevLsnOf, Server.modify, htxn]

theorem prevLsnOf_setState (s : Server) (t u : TxnId) (st : TransactionState) :
    (s.setState t st).prevLsnOf u = s.prevLsnOf u := by
  by_cases hu : u = t
  · subst hu
    cases h : s.txns u <;> simp [Server.prevLsnOf, Server.setState, Server.modify, h]
  · exact prevLsnOf_modify_other _ hu

/-- A record that is chained to the LSN `add_log_to_buffer` returned before. -/
theorem Inv.logRecord {s : ChainState} {t : TxnId} {body : LogBody} {server : Server}
    (hi : s.Inv) (hborn : s.server.txns t ≠ none)
    (hlink : Link s.server.log.records
      ⟨s.server.log.globalLsn, some t, s.server.prevLsnOf t, body⟩)
    (hlog : server.log = (s.server.logRecord t body).log)
    (hid : server.nextTxnId = s.server.nextTxnId)
    (htxns : ∀ u, server.txns u = none ↔ s.server.txns u = none)
    (hprev : ∀ u, server.prevLsnOf u = (s.server.logRecord t body).prevLsnOf u)
    (apart : s.NonePredicted (some t)) : (s.put t server .idle).Inv := by
  refine hi.appended (r := ⟨s.server.log.globalLsn, some t, s.server.prevLsnOf t, body⟩)
    ?_ ?_ rfl hlink hid htxns ?_ ?_ apart
  · show server.log.records = _
    rw [hlog, Server.logRecord_records]
  · show server.log.globalLsn = _
    rw [hlog, Server.logRecord_log, LogManager.add_globalLsn]
  · intro u hu
    have hne : u ≠ t := fun e => hu (by rw [e])
    refine ⟨by simp [put, hne], ?_⟩
    show server.prevLsnOf u = _
    rw [hprev, Server.logRecord, prevLsnOf_modify_other _ hne]
    rfl
  · intro u hu
    cases Option.some.inj hu
    refine ⟨by simp [put], ?_, hborn⟩
    show server.prevLsnOf t = _
    rw [hprev]
    exact prevLsnOf_modify_own hborn

theorem Inv.link_idle {s : ChainState} {t : TxnId} {body : LogBody} (hi : s.Inv)
    (h : s.phase t = .idle) (hb : body ≠ .begin) : Link s.server.log.records
      ⟨s.server.log.globalLsn, some t, s.server.prevLsnOf t, body⟩ := by
  intro u hu
  cases Option.some.inj hu
  obtain ⟨q, hlast, hprev⟩ := hi.idle t h
  exact Or.inr ⟨q, hlast, hprev, hb⟩

theorem Inv.predict {s : ChainState} {t : TxnId} {body : LogBody} (hi : s.Inv)
    (h : s.phase t = .idle) (hb : body.isData = true) :
    (s.put t (s.server.modify t fun txn => { txn with prevLsn := s.server.log.globalLsn })
      (.predicted (s.server.prevLsnOf t) body)).Inv := by
  have hborn : s.server.txns t ≠ none := hi.born t (by simp [h])
  refine ⟨hi.numbered, hi.next, hi.linked, ?_, ?_, ?_, ?_, ?_⟩
  · intro u hu
    exact (modify_txns_none _ _ _ _).mpr (hi.unborn u hu)
  · intro u hu hnone
    have hnone' := (modify_txns_none _ _ _ _).mp hnone
    by_cases he : u = t
    · exact hborn (he ▸ hnone')
    · exact hi.born u (by simpa [put, he] using hu) hnone'
  · intro u hu
    by_cases he : u = t
    · simp [put, he] at hu
    · exact hi.starting u (by simpa [put, he] using hu)
  · intro u hu
    by_cases he : u = t
    · simp [put, he] at hu
    · obtain ⟨q, hlast, hprev⟩ := hi.idle u (by simpa [put, he] using hu)
      exact ⟨q, hlast, (prevLsnOf_modify_other _ he).trans hprev⟩
  · intro u prevLsn body' hu
    by_cases he : u = t
    · subst he
      simp only [put, Function.update_self, LogPhase.predicted.injEq] at hu
      obtain ⟨rfl, rfl⟩ := hu
      exact ⟨hb, prevLsnOf_modify_own hborn, hi.idle u h⟩
    · obtain ⟨hdata, hprev, hq⟩ := hi.predicted u prevLsn body' (by simpa [put, he] using hu)
      exact ⟨hdata, (prevLsnOf_modify_other _ he).trans hprev, hq⟩

/-- The second step of an executor: the LSN it has in hand is still the next one. -/
theorem Inv.append {s : ChainState} {t : TxnId} {prevLsn : Lsn} {body : LogBody} (hi : s.Inv)
    (h : s.phase t = .predicted prevLsn body) (apart : s.NonePredicted (some t)) :
    (s.put t { s.server with log := s.server.log.addLogToBuffer (some t) prevLsn body }
      .idle).Inv := by
  obtain ⟨hdata, hprev, q, hlast, hq⟩ := hi.predicted t prevLsn body h
  refine hi.appended (r := ⟨s.server.log.globalLsn, some t, prevLsn, body⟩)
    (LogManager.add_records _ _ _ _) (LogManager.add_globalLsn _ _ _ _) rfl ?_ rfl
    (fun _ => Iff.rfl) ?_ ?_ apart
  · intro u hu
    cases Option.some.inj hu
    refine Or.inr ⟨q, hlast, hq, ?_⟩
    rintro rfl
    simp [LogBody.isData] at hdata
  · intro u hu
    have hne : u ≠ t := fun e => hu (by rw [e])
    exact ⟨by simp [put, hne], rfl⟩
  · intro u hu
    cases Option.some.inj hu
    exact ⟨by simp [put], hprev, hi.born t (by simp [h])⟩

theorem Inv.congr {s s' : ChainState} (hi : s.Inv) (hphase : s'.phase = s.phase)
    (hrec : s'.server.log.records = s.server.log.records)
    (hnext : s'.server.log.globalLsn = s.server.log.globalLsn)
    (hprev : ∀ t, s.server.txns t ≠ none → s'.server.prevLsnOf t = s.server.prevLsnOf t)
    (hunborn : ∀ t, s'.server.nextTxnId ≤ t → s'.server.txns t = none)
    (hborn : ∀ t, s.server.txns t ≠ none → s'.server.txns t ≠ none) : s'.Inv := by
  have hb : ∀ t, s.phase t ≠ .starting → s.server.txns t ≠ none := hi.born
  refine ⟨hrec ▸ hi.numbered, ?_, hrec ▸ hi.linked, hunborn, ?_, ?_, ?_, ?_⟩
  · rw [hnext, hrec, hi.next]
  · intro t ht
    exact hborn t (hb t (hphase ▸ ht))
  · rw [hphase, hrec]
    exact hi.starting
  · intro t ht
    rw [hphase] at ht
    rw [hrec, hprev t (hb t (by simp [ht]))]
    exact hi.idle t ht
  · intro t prevLsn body ht
    rw [hphase] at ht
    rw [hrec, hnext, hprev t (hb t (by simp [ht]))]
    exact hi.predicted t prevLsn body ht

theorem step_inv {s s' : ChainState} {e : ChainEv} (hi : s.Inv) (apart : s.AppendsApart e)
    (hs : s.step e = some s') : s'.Inv := by
  cases e with
  | beginTxn =>
    cases Option.some.inj hs
    refine hi.congr rfl (LogManager.flush_records _) (LogManager.flush_globalLsn _) ?_ ?_ ?_
    · intro t ht
      have hne : t ≠ s.server.nextTxnId := fun h => ht (hi.unborn t h.ge)
      simp [Server.prevLsnOf, Server.beginTxn, hne]
    · intro t ht
      have hlt : s.server.nextTxnId + 1 ≤ t := ht
      simp only [Server.beginTxn, if_neg (show t ≠ s.server.nextTxnId by lia)]
      exact hi.unborn t (by lia)
    · intro t ht
      simp only [Server.beginTxn]
      split
      · simp
      · exact ht
  | beginLog t =>
    simp only [step] at hs
    split at hs
    next txn htxn hph =>
      cases Option.some.inj hs
      refine hi.logRecord (by simp [htxn]) ?_ rfl rfl (modify_txns_none _ _ · _)
        (fun _ => rfl) apart
      intro u hu
      cases Option.some.inj hu
      exact Or.inl ⟨hi.starting t hph, rfl⟩
    next => simp at hs
  | predict t body =>
    simp only [step] at hs
    split at hs
    next hph =>
      split at hs
      next hb =>
        cases Option.some.inj hs
        exact hi.predict hph hb
      next => simp at hs
    next => simp at hs
  | append t =>
    simp only [step] at hs
    split at hs
    next hph =>
      cases Option.some.inj hs
      exact hi.append hph apart
    next => simp at hs
  | commit t =>
    simp only [step] at hs
    split at hs
    next hph =>
      cases Option.some.inj hs
      refine hi.logRecord (hi.born t (by simp [hph])) (hi.link_idle hph (by simp)) rfl rfl ?_
        (prevLsnOf_setState _ _ · _) apart
      intro u
      exact (modify_txns_none _ _ _ _).trans (modify_txns_none _ _ _ _)
    next => simp at hs
  | abort t =>
    simp only [step] at hs
    split at hs
    next hph =>
      cases Option.some.inj hs
      refine hi.logRecord (hi.born t (by simp [hph])) (hi.link_idle hph (by simp)) rfl rfl ?_
        (prevLsnOf_setState _ _ · _) apart
      intro u
      exact (modify_txns_none _ _ _ _).trans (modify_txns_none _ _ _ _)
    next => simp at hs
  | checkpoint =>
    cases Option.some.inj hs
    refine hi.appended (r := ⟨s.server.log.globalLsn, none, INVALID_LSN, .checkpoint⟩) ?_ ?_ rfl
      ?_ rfl (fun _ => Iff.rfl) (fun _ _ => ⟨rfl, rfl⟩) ?_ apart
    · simp [Server.checkpoint, LogManager.add_records]
    · simp [Server.checkpoint]
    · intro u hu
      simp at hu
    · intro u hu
      simp at hu
  | flushLog =>
    cases Option.some.inj hs
    exact hi.congr rfl (LogManager.flush_records _) (LogManager.flush_globalLsn _)
      (fun _ _ => rfl) hi.unborn (fun _ h => h)

/-- While no record is appended between another client's two steps, every chain stays inside
its transaction. -/
theorem chainsInside_of_appendsApart {persist : Lsn} {tr : List ChainEv} {s : ChainState}
    (h : run step (fresh persist) tr = some s)
    (apart : MeetsAll step AppendsApart (fresh persist) tr) :
    ChainsInside s.server.log.records := by
  have hi := run_invariant (fun _ _ _ hi hgood hs => step_inv hi hgood hs) (inv_fresh persist)
    apart h
  exact chainsInside_of_linked hi.numbered hi.linked

def rowWrite (b : UInt8) : LogBody := .insert [b] ⟨⟨1, 0⟩, "t", 1, 2⟩

/-- Two clients, each with an insert, one after the other. -/
def apartTrace : List ChainEv :=
  [.beginTxn, .beginLog 0, .beginTxn, .beginLog 1, .predict 0 (rowWrite 1), .append 0,
    .predict 1 (rowWrite 2), .append 1, .predict 0 (rowWrite 3), .append 0, .commit 0]

theorem chainsInside_of_appendsApart_two : ∃ s, run step (fresh 0) apartTrace = some s ∧
    s.server.log.records.length = 6 ∧ ChainsInside s.server.log.records := by
  refine ⟨_, rfl, by decide +kernel, ?_⟩
  exact @chainsInside_of_appendsApart 0 apartTrace _ rfl (by decide +kernel)

/-- The BEGIN record of another client comes between the two steps of an insert. -/
def betweenTrace : List ChainEv :=
  [.beginTxn, .beginLog 0, .beginTxn, .predict 0 (rowWrite 1), .beginLog 1, .append 0,
    .predict 0 (rowWrite 2), .append 0]

/-- The second insert of transaction 0 is then chained to the BEGIN record of transaction 1. -/
theorem not_chainsInside_between : ∃ s, run step (fresh 0) betweenTrace = some s ∧
    s.server.log.records = [⟨0, some 0, -1, .begin⟩, ⟨1, some 1, -1, .begin⟩,
      ⟨2, some 0, 0, rowWrite 1⟩, ⟨3, some 0, 1, rowWrite 2⟩] ∧
    ¬ ChainsInside s.server.log.records := by
  refine ⟨_, rfl, by decide +kernel, fun h => ?_⟩
  have hchain := (h [⟨0, some 0, -1, .begin⟩, ⟨1, some 1, -1, .begin⟩,
    ⟨2, some 0, 0, rowWrite 1⟩] ⟨3, some 0, 1, rowWrite 2⟩ [] 0 (by decide +kernel) rfl rfl).1
  revert hchain
  decide +kernel

end ChainState

end Grmdb
