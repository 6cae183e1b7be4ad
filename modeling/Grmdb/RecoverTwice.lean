import Grmdb.RecoverReplay
import Grmdb.LsnRestart

namespace Grmdb

open AssocMap Runs

/-- What is compared of a page: bitmap, counter, slots and place in the chain, not the LSN. -/
def RmPage.content (page : RmPage) : RmPage := { page with lsn := 0 }

/-- The two states agree on every file header and on every page. -/
structure SameTables (db db' : Db) : Prop where
  heads : ∀ tab, db.head tab = db'.head tab
  pages : ∀ key, (db.page key).map RmPage.content = (db'.page key).map RmPage.content

/-- Every LSN up to that of a record is there. -/
def DenseLog (log : List LogRecord) : Prop :=
  ∀ r ∈ log, 0 ≤ r.lsn ∧ ∀ lsn, 0 ≤ lsn → lsn ≤ r.lsn → ∃ q ∈ log, q.lsn = lsn

theorem DenseLog.recordAt {log : List LogRecord} (h : DenseLog log) {r : LogRecord} (hr : r ∈ log)
    {lsn : Lsn} (hpos : 0 ≤ lsn) (hle : lsn ≤ r.lsn) :
    ∃ q, recordAt log lsn = some q ∧ q.lsn = lsn := by
  obtain ⟨q, hq, hlsn⟩ := (h r hr).2 lsn hpos hle
  have hfound : (recordOf log lsn).isSome := by
    rw [recordOf, List.find?_isSome]
    exact ⟨q, hq, by simpa using hlsn⟩
  obtain ⟨q', hq'⟩ := Option.isSome_iff_exists.mp hfound
  refine ⟨q', by simp [Grmdb.recordAt, hq'], ?_⟩
  simpa using List.find?_some hq'

namespace LsnState

/-- The LSNs of a process start at 0 and leave no gap, those of its buffer last. -/
structure Dense (s : LsnState) : Prop where
  file : DenseLog s.log.file
  buffer : ∀ (i : Nat) r, s.log.buffer[i]? = some r →
    r.lsn = s.log.globalLsn - s.log.buffer.length + i
  flushed : s.phase = .serving → ∀ lsn, 0 ≤ lsn → lsn < s.log.globalLsn - s.log.buffer.length →
    ∃ q ∈ s.log.file, q.lsn = lsn
  next : s.phase ≠ .down → 0 ≤ s.log.globalLsn - s.log.buffer.length
  restarted : s.phase = .recovering → s.log.globalLsn = 0
  noBuffer : s.phase ≠ .serving → s.log.buffer = []

theorem dense_created : created.Dense := by
  constructor
  all_goals simp [created, LogManager.fresh, DenseLog]

/-- Every LSN that the process has given out is in its log. -/
theorem Dense.given {s : LsnState} (h : s.Dense) (hs : s.phase = .serving) {lsn : Lsn}
    (hpos : 0 ≤ lsn) (hlt : lsn < s.log.globalLsn) : ∃ q ∈ s.log.records, q.lsn = lsn := by
  by_cases hold : lsn < s.log.globalLsn - s.log.buffer.length
  · obtain ⟨q, hq, hlsn⟩ := h.flushed hs lsn hpos hold
    exact ⟨q, List.mem_append_left _ hq, hlsn⟩
  · have hi : (lsn - (s.log.globalLsn - s.log.buffer.length)).toNat < s.log.buffer.length := by
      lia
    have hget := List.getElem?_eq_getElem hi
    refine ⟨_, List.mem_append_right _ (List.getElem_mem hi), ?_⟩
    rw [h.buffer _ _ hget]
    lia

theorem Dense.buffer_below {s : LsnState} (h : s.Dense) {r : LogRecord} (hr : r ∈ s.log.buffer) :
    s.log.globalLsn - s.log.buffer.length ≤ r.lsn ∧ r.lsn < s.log.globalLsn := by
  obtain ⟨i, hi, rfl⟩ := List.mem_iff_getElem.mp hr
  rw [h.buffer i _ (List.getElem?_eq_getElem hi)]
  lia

theorem Dense.flush {s : LsnState} (h : s.Dense) (hs : s.phase = .serving) :
    Dense { s with log := s.log.flushLogToDisk } := by
  have hnext := h.next (by simp [hs])
  refine ⟨?_, by simp, ?_, ?_, by simp [hs], by simp [hs]⟩
  · simp only [LogManager.flush_file]
    intro r hr
    rcases List.mem_append.mp hr with hr | hr
    · obtain ⟨hpos, hdown⟩ := h.file r hr
      refine ⟨hpos, fun lsn hlsn hle => ?_⟩
      obtain ⟨q, hq, hql⟩ := hdown lsn hlsn hle
      exact ⟨q, List.mem_append_left _ hq, hql⟩
    · obtain ⟨hlow, hhigh⟩ := h.buffer_below hr
      exact ⟨by lia, fun lsn hlsn hle => h.given hs hlsn (by lia)⟩
  · intro _ lsn hpos hlt
    simp only [LogManager.flush_file]
    exact h.given hs hpos (by simpa using hlt)
  · intro _
    simp only [LogManager.flush_globalLsn, LogManager.flush_buffer, List.length_nil]
    lia

/-- A record more in the buffer. -/
theorem Dense.push {s : LsnState} (h : s.Dense) (hs : s.phase = .serving) (tid : Option TxnId)
    (prevLsn : Lsn) (body : LogBody) : Dense { s with log := { s.log with
      buffer := s.log.buffer ++ [⟨s.log.globalLsn, tid, prevLsn, body⟩]
      globalLsn := s.log.globalLsn + 1 } } := by
  have hlen : ∀ r : LogRecord, s.log.globalLsn + 1 - ((s.log.buffer ++ [r]).length : Int) =
      s.log.globalLsn - s.log.buffer.length := by
    intro r
    simp only [List.length_append, List.length_singleton, Nat.cast_add, Nat.cast_one]
    lia
  refine ⟨h.file, ?_, ?_, ?_, by simp [hs], by simp [hs]⟩
  · intro i r hr
    simp only at hr ⊢
    rw [hlen]
    rcases Nat.lt_trichotomy i s.log.buffer.length with hi | hi | hi
    · rw [List.getElem?_append_left hi] at hr
      exact h.buffer i r hr
    · subst hi
      have : (⟨s.log.globalLsn, tid, prevLsn, body⟩ : LogRecord) = r := by simpa using hr
      rw [← this]
      lia
    · rw [List.getElem?_eq_none (by simp; omega)] at hr
      simp at hr
  · intro _ lsn hpos hlt
    simp only at hlt
    rw [hlen] at hlt
    exact h.flushed hs lsn hpos hlt
  · intro _
    simp only
    rw [hlen]
    exact h.next (by simp [hs])

/-- Where the log is left alone. -/
theorem Dense.sameLog {s s' : LsnState} (h : s.Dense) (hlog : s'.log = s.log)
    (hphase : s'.phase = s.phase) : s'.Dense := by
  refine ⟨hlog ▸ h.file, ?_, ?_, ?_, ?_, ?_⟩
  · rw [hlog]
    exact h.buffer
  · rw [hlog, hphase]
    exact h.flushed
  · rw [hlog, hphase]
    exact h.next
  · rw [hlog, hphase]
    exact h.restarted
  · rw [hlog, hphase]
    exact h.noBuffer

theorem dense_step {s s' : LsnState} {e : LsnEv} (h : s.Dense) (hs : s.step e = some s') :
    s'.Dense := by
  cases e with
  | openDb persist =>
    simp only [step] at hs
    split at hs
    next hp =>
      cases Option.some.inj hs
      refine ⟨h.file, ?_, ?_, ?_, fun _ => rfl, fun _ => rfl⟩
      all_goals simp [LogManager.fresh]
    next => simp at hs
  | serve =>
    simp only [step] at hs
    split at hs
    next hp =>
      cases Option.some.inj hs
      have hbuf := h.noBuffer (by simp [hp])
      have hzero := h.restarted hp
      refine ⟨h.file, by simp [hbuf], ?_, ?_, by simp, by simp⟩
      · intro _ lsn hpos hlt
        simp only [hbuf, hzero, List.length_nil] at hlt
        lia
      · intro _
        simp [hbuf, hzero]
    next => simp at hs
  | append tid prevLsn body =>
    simp only [step] at hs
    split at hs
    next hp =>
      cases Option.some.inj hs
      unfold LogManager.addLogToBuffer
      split
      · exact (h.flush hp).push hp tid prevLsn body
      · exact h.push hp tid prevLsn body
    next => simp at hs
  | flushLog =>
    simp only [step] at hs
    split at hs
    next hp =>
      cases Option.some.inj hs
      exact h.flush hp
    next => simp at hs
  | crash =>
    simp only [step] at hs
    split at hs
    next hp =>
      cases Option.some.inj hs
      exact ⟨h.file, by simp, by simp, by simp, by simp, by simp⟩
    next => simp at hs
  | redo r =>
    simp only [step] at hs
    split at hs
    next =>
      split at hs
      next =>
        split at hs
        next =>
          cases Option.some.inj hs
          exact h.sameLog rfl rfl
        next => simp at hs
      next => simp at hs
    next => simp at hs
  | fetchPage p =>
    simp only [step] at hs
    split at hs
    next =>
      cases Option.some.inj hs
      exact h.sameLog rfl rfl
    next => simp at hs
  | newPage p =>
    simp only [step] at hs
    split at hs
    next =>
      cases Option.some.inj hs
      exact h.sameLog rfl rfl
    next => simp at hs
  | stamp p =>
    simp only [step] at hs
    split at hs
    next =>
      cases Option.some.inj hs
      exact h.sameLog rfl rfl
    next => simp at hs
  | writePage p =>
    simp only [step] at hs
    split at hs
    next => simp at hs
    next => simp at hs
    next =>
      cases Option.some.inj hs
      exact h.sameLog rfl rfl
  | freeFrame p =>
    simp only [step] at hs
    split at hs
    next =>
      cases Option.some.inj hs
      exact h.sameLog rfl rfl
    next => simp at hs
  | dropTable fd =>
    simp only [step] at hs
    split at hs
    next =>
      cases Option.some.inj hs
      exact h.sameLog rfl rfl
    next => simp at hs

theorem dense_run {tr : List LsnEv} {s : LsnState} (h : run step created tr = some s) :
    DenseLog s.log.file :=
  (run_invariant_all (fun _ _ _ hd hs => dense_step hd hs) dense_created h).file

end LsnState

/-- The page of the record has its change already, by the test of `redo`. -/
def CaughtUp (dpt : List (PageKey × Lsn)) (lsn : Lsn) (r : LogRecord) (db : Db) : Prop :=
  ∀ place, r.body.place = some place → lookup place.pageKey dpt ≠ none →
    ∃ page, db.page place.pageKey = some page ∧ lsn ≤ page.lsn

/-- Tables and pages stay, and no page LSN goes down. -/
structure LsnsGrow (db db' : Db) : Prop where
  tables : ∀ tab, (db tab).isSome → (db' tab).isSome
  pages : ∀ key page, db.page key = some page →
    ∃ page', db'.page key = some page' ∧ page.lsn ≤ page'.lsn

theorem LsnsGrow.refl (db : Db) : LsnsGrow db db :=
  ⟨fun _ h => h, fun _ page h => ⟨page, h, le_rfl⟩⟩

theorem LsnsGrow.trans {db db' db'' : Db} (h : LsnsGrow db db') (h' : LsnsGrow db' db'') :
    LsnsGrow db db'' := by
  refine ⟨fun tab ht => h'.tables tab (h.tables tab ht), fun key page hp => ?_⟩
  obtain ⟨page', hp', hle⟩ := h.pages key page hp
  obtain ⟨page'', hp'', hle'⟩ := h'.pages key page' hp'
  exact ⟨page'', hp'', hle.trans hle'⟩

theorem CaughtUp.grow {dpt : List (PageKey × Lsn)} {lsn : Lsn} {r : LogRecord} {db db' : Db}
    (h : CaughtUp dpt lsn r db) (hg : LsnsGrow db db') : CaughtUp dpt lsn r db' := by
  intro place hplace hdpt
  obtain ⟨page, hp, hle⟩ := h place hplace hdpt
  obtain ⟨page', hp', hle'⟩ := hg.pages _ page hp
  exact ⟨page', hp', hle.trans hle'⟩

theorem isSome_update {db : Db} {tab : TabName} (f : RmFile) (x : TabName) (h : (db x).isSome) :
    (Function.update db tab (some f) x).isSome := by
  by_cases hx : x = tab
  · simp [hx]
  · simpa [hx] using h

section Redo

variable {dpt : List (PageKey × Lsn)} {lsn : Lsn} {r : LogRecord} {db db' : Db}

theorem redoRecord_tables (h : redoRecord dpt lsn r db = some db') (tab : TabName)
    (ht : (db tab).isSome) : (db' tab).isSome := by
  unfold redoRecord at h
  split at h
  next => exact Option.some.inj h ▸ ht
  next place hplace =>
    obtain ⟨f, hf, h⟩ := Option.bind_eq_some_iff.mp h
    split at h
    next => exact Option.some.inj h ▸ ht
    next =>
      obtain ⟨page, hpage, h⟩ := Option.bind_eq_some_iff.mp h
      split at h
      next => exact Option.some.inj h ▸ ht
      next =>
        obtain ⟨f', -, rfl⟩ := Option.map_eq_some_iff.mp h
        exact isSome_update f' tab ht

theorem redoRecord_grows (h : redoRecord dpt lsn r db = some db') (hr : r.lsn = lsn) :
    LsnsGrow db db' := by
  refine ⟨redoRecord_tables h, fun key page hp => ?_⟩
  rcases redoRecord_cases h with ⟨rfl, -⟩ | ⟨place, old, next, hplace, hold, hlt, hpages⟩
  · exact ⟨page, hp, le_rfl⟩
  · by_cases hkey : key = place.pageKey
    · subst hkey
      cases Option.some.inj (hold.symm.trans hp)
      refine ⟨_, by rw [hpages, if_pos rfl], ?_⟩
      simp only [RmFile.redoPage_lsn hplace, hr]
      exact hlt.le
    · exact ⟨page, by rw [hpages, if_neg hkey, hp], le_rfl⟩

theorem redoRecord_caughtUp (h : redoRecord dpt lsn r db = some db') (hr : r.lsn = lsn) :
    CaughtUp dpt lsn r db' := by
  rcases redoRecord_cases h with ⟨rfl, hcaught⟩ | ⟨place', old, next, hplace', hold, hlt, hpages⟩
  · exact hcaught
  · intro place hplace _
    cases Option.some.inj (hplace.symm.trans hplace')
    refine ⟨_, by rw [hpages, if_pos rfl], ?_⟩
    simp only [RmFile.redoPage_lsn hplace, hr, le_refl]

theorem redoRecord_of_caughtUp (h : CaughtUp dpt lsn r db)
    (hopen : ∀ place, r.body.place = some place → (db place.tableName).isSome) :
    redoRecord dpt lsn r db = some db := by
  unfold redoRecord
  split
  · rfl
  next place hplace =>
    obtain ⟨f, hf⟩ := Option.isSome_iff_exists.mp (hopen place hplace)
    simp only [hf, Option.bind_some]
    split
    · rfl
    next hdpt =>
      obtain ⟨page, hpage, hle⟩ := h place hplace hdpt
      have hp : f.pages place.rid.pageNo = some page := by
        simpa [Db.page, LogPlace.pageKey, hf] using hpage
      simp [hp, hle]

variable {log : List LogRecord} {n : Nat}

/-- After the loop every page has the changes of the LSNs it ran through. -/
theorem redoLoop_caughtUp (h : redoLoop log dpt n lsn db = some db')
    (hlog : ∀ l, lsn ≤ l → l < lsn + n → ∃ r, recordAt log l = some r ∧ r.lsn = l) :
    LsnsGrow db db' ∧ ∀ l, lsn ≤ l → l < lsn + n → ∀ r, recordAt log l = some r →
      CaughtUp dpt l r db' := by
  induction n generalizing lsn db with
  | zero =>
    cases Option.some.inj h
    exact ⟨LsnsGrow.refl _, fun l hl hlt => by lia⟩
  | succ n ih =>
    obtain ⟨r, hr, hrl⟩ := hlog lsn le_rfl (by lia)
    simp only [redoLoop, hr, Option.bind_some] at h
    obtain ⟨mid, hmid, h⟩ := Option.bind_eq_some_iff.mp h
    obtain ⟨hgrow, hcaught⟩ := ih h fun l hl hlt => hlog l (by lia) (by push_cast; lia)
    refine ⟨(redoRecord_grows hmid hrl).trans hgrow, fun l hl hlt q hq => ?_⟩
    rcases eq_or_lt_of_le hl with rfl | hl
    · cases Option.some.inj (hr.symm.trans hq)
      exact (redoRecord_caughtUp hmid hrl).grow hgrow
    · exact hcaught l (by lia) (by push_cast at hlt; lia) q hq

theorem mem_of_recordAt {l : Lsn} (h : recordAt log l = some r) : r ∈ log := by
  unfold recordAt at h
  cases hfind : recordOf log l with
  | some q =>
    rw [hfind, Option.some_or] at h
    cases Option.some.inj h
    exact List.mem_of_find?_eq_some hfind
  | none =>
    rw [hfind, Option.none_or] at h
    exact List.mem_of_mem_head? h

theorem redoLoop_of_caughtUp (hopen : tablesOpen log db)
    (h : ∀ l, lsn ≤ l → l < lsn + n → ∃ r, recordAt log l = some r ∧ CaughtUp dpt l r db) :
    redoLoop log dpt n lsn db = some db := by
  induction n generalizing lsn with
  | zero => rfl
  | succ n ih =>
    obtain ⟨r, hr, hcaught⟩ := h lsn le_rfl (by lia)
    have hround := redoRecord_of_caughtUp hcaught (hopen r (mem_of_recordAt hr))
    simp only [redoLoop, hr, Option.bind_some, hround]
    exact ih fun l hl hlt => h l (by lia) (by push_cast; lia)

end Redo

/-- The slot that a data record writes. -/
def LogBody.slot (b : LogBody) : Option (PageKey × Int) :=
  b.place.map fun place => (place.pageKey, place.rid.slotNo)

theorem LogRecord.on_of_slot {r : LogRecord} {key : PageKey} {i : Int}
    (h : r.body.slot = some (key, i)) : r.On key := by
  obtain ⟨place, hplace, heq⟩ := Option.map_eq_some_iff.mp h
  cases heq
  exact LogRecord.on_place hplace

/-- A page without its bitmap and its slots. -/
def RmPage.frame (page : RmPage) : RmPage :=
  { page with bitmap := fun _ => false, slots := fun _ => [] }

/-- The two pages differ at most in the slots that the records still write, and in the bits that
they still set. -/
structure RmPage.OffBy (rs : List LogRecord) (key : PageKey) (page page' : RmPage) : Prop where
  frame : page.frame = page'.frame
  bits : ∀ i, page.bitmap i = page'.bitmap i ∨
    ∃ r ∈ rs, r.body.isDelete = true ∧ r.body.slot = some (key, i)
  bytes : ∀ i, page.slots i = page'.slots i ∨
    ∃ r ∈ rs, r.body.isInsert = false ∧ r.body.slot = some (key, i)

namespace RmPage.OffBy

variable {rs rs' : List LogRecord} {r : LogRecord} {key : PageKey} {page page' page'' : RmPage}

theorem refl (rs : List LogRecord) (key : PageKey) (page : RmPage) : OffBy rs key page page :=
  ⟨rfl, fun _ => Or.inl rfl, fun _ => Or.inl rfl⟩

theorem trans (h : OffBy rs key page page') (h' : OffBy rs key page' page'') :
    OffBy rs key page page'' := by
  refine ⟨h.frame.trans h'.frame, fun i => ?_, fun i => ?_⟩
  · rcases h.bits i with hi | hi
    · exact (h'.bits i).imp_left hi.trans
    · exact Or.inr hi
  · rcases h.bytes i with hi | hi
    · exact (h'.bytes i).imp_left hi.trans
    · exact Or.inr hi

theorem mono (h : OffBy rs key page page') (hsub : rs ⊆ rs') : OffBy rs' key page page' :=
  ⟨h.frame, fun i => (h.bits i).imp_right fun ⟨q, hq, hd⟩ => ⟨q, hsub hq, hd⟩,
    fun i => (h.bytes i).imp_right fun ⟨q, hq, hd⟩ => ⟨q, hsub hq, hd⟩⟩

theorem lsn (h : OffBy rs key page page') : page.lsn = page'.lsn := by
  have := congrArg RmPage.lsn h.frame
  exact this

theorem numRecords (h : OffBy rs key page page') : page.numRecords = page'.numRecords := by
  have := congrArg RmPage.numRecords h.frame
  exact this

theorem nextFreePageNo (h : OffBy rs key page page') :
    page.nextFreePageNo = page'.nextFreePageNo := by
  have := congrArg RmPage.nextFreePageNo h.frame
  exact this

theorem eq_of_nil (h : OffBy [] key page page') : page = page' := by
  have hbits : page.bitmap = page'.bitmap := by
    funext i
    simpa using h.bits i
  have hbytes : page.slots = page'.slots := by
    funext i
    simpa using h.bytes i
  obtain ⟨a, b, c, d, e⟩ := page
  obtain ⟨a', b', c', d', e'⟩ := page'
  have hframe := h.frame
  simp only [RmPage.frame, RmPage.mk.injEq, and_true] at hframe hbits hbytes
  obtain ⟨rfl, rfl, rfl⟩ := hframe
  rw [hbits, hbytes]

/-- A record of another page. -/
theorem of_not_on (h : OffBy (r :: rs) key page page') (hon : ¬ r.On key) :
    OffBy rs key page page' := by
  refine ⟨h.frame, fun i => (h.bits i).imp_right ?_, fun i => (h.bytes i).imp_right ?_⟩
  · rintro ⟨q, hq, hd, hs⟩
    rcases List.mem_cons.mp hq with rfl | hq
    · exact absurd (LogRecord.on_of_slot hs) hon
    · exact ⟨q, hq, hd, hs⟩
  · rintro ⟨q, hq, hd, hs⟩
    rcases List.mem_cons.mp hq with rfl | hq
    · exact absurd (LogRecord.on_of_slot hs) hon
    · exact ⟨q, hq, hd, hs⟩

end RmPage.OffBy

section Unfill

variable (h : FileHead) (p : PageNo) (page : RmPage)

theorem FileHead.unfill_lsn : (h.unfill p page).2.lsn = page.lsn := by
  unfold FileHead.unfill
  split
  · split <;> rfl
  · rfl

theorem FileHead.unfill_numRecords : (h.unfill p page).2.numRecords = page.numRecords := by
  unfold FileHead.unfill
  split
  · split <;> rfl
  · rfl

theorem FileHead.unfill_bitmap : (h.unfill p page).2.bitmap = page.bitmap := by
  unfold FileHead.unfill
  split
  · split <;> rfl
  · rfl

theorem FileHead.unfill_slots : (h.unfill p page).2.slots = page.slots := by
  unfold FileHead.unfill
  split
  · split <;> rfl
  · rfl

/-- Header and chain follow from the frame of the page. -/
theorem FileHead.unfill_congr {page page' : RmPage} (heq : page.frame = page'.frame) :
    (h.unfill p page).1 = (h.unfill p page').1 ∧
      (h.unfill p page).2.frame = (h.unfill p page').2.frame := by
  have hnum : page.frame.numRecords = page'.frame.numRecords := congrArg RmPage.numRecords heq
  have hlsn : page.frame.lsn = page'.frame.lsn := congrArg RmPage.lsn heq
  simp only [RmPage.frame] at hnum hlsn
  unfold FileHead.unfill
  rw [hnum]
  split
  · split
    · exact ⟨rfl, heq⟩
    · exact ⟨rfl, by simp [RmPage.frame, hlsn]⟩
  · exact ⟨rfl, heq⟩

end Unfill

section RolledBack

variable {b : LogBody} {h : FileHead} {page : RmPage}

theorem rolledBack_lsn : (b.rolledBack h page).2.lsn = page.lsn := by
  cases b with
  | insert value pl => exact FileHead.unfill_lsn _ _ _
  | _ => rfl

theorem rolledBack_numRecords : (b.rolledBack h page).2.numRecords =
    page.numRecords - if b.isInsert then 1 else 0 := by
  cases b with
  | insert value pl => exact FileHead.unfill_numRecords _ _ _
  | _ => simp [LogBody.rolledBack, LogBody.isInsert, RmPage.set, RmPage.copy]

theorem rolledBack_head (hins : b.isInsert = false) : (b.rolledBack h page).1 = h := by
  cases b with
  | insert value pl => simp [LogBody.isInsert] at hins
  | _ => rfl

end RolledBack

namespace RmPage.OffBy

variable {rs : List LogRecord} {r : LogRecord} {h : FileHead} {place : LogPlace}
  {page page' : RmPage}

/-- What a later record writes back or sets is left over once this record has had its turn. -/
theorem later {P : LogBody → Prop} {i : Int} {Q : Prop}
    (hrest : Q ∨ ∃ q ∈ r :: rs, P q.body ∧ q.body.slot = some (place.pageKey, i))
    (hown : P r.body → r.body.slot ≠ some (place.pageKey, i)) :
    Q ∨ ∃ q ∈ rs, P q.body ∧ q.body.slot = some (place.pageKey, i) := by
  rcases hrest with hq | ⟨q, hq, hd, hs⟩
  · exact Or.inl hq
  · rcases List.mem_cons.mp hq with rfl | hq
    · exact absurd hs (hown hd)
    · exact Or.inr ⟨q, hq, hd, hs⟩

/-- The roll-back of a record on two pages that the records make equal: the headers agree, and the
pages differ in what is still to come. -/
theorem rolledBack (hoff : OffBy (r :: rs) place.pageKey page page')
    (hplace : r.body.place = some place) :
    (r.body.rolledBack h page).1 = (r.body.rolledBack h page').1 ∧
      OffBy rs place.pageKey (r.body.rolledBack h page).2 (r.body.rolledBack h page').2 := by
  obtain ⟨lsn, tid, prevLsn, body⟩ := r
  cases body with
  | insert value pl =>
    cases Option.some.inj hplace
    -- The bit is cleared on both pages, and the bytes of the slot are of no record.
    have hframe : (RmFile.deleted page place.rid.slotNo none).frame =
        (RmFile.deleted page' place.rid.slotNo none).frame := by
      have hnext := hoff.nextFreePageNo
      have hnum := hoff.numRecords
      have hlsn := hoff.lsn
      simp [RmPage.frame, RmFile.deleted, RmPage.reset, RmPage.stamp, hnext, hnum, hlsn]
    obtain ⟨hhead, hframe⟩ := FileHead.unfill_congr h place.rid.pageNo hframe
    refine ⟨hhead, hframe, fun i => ?_, fun i => ?_⟩
    · simp only [LogBody.rolledBack, FileHead.unfill_bitmap]
      by_cases hi : i = place.rid.slotNo
      · exact Or.inl (by simp [RmFile.deleted, RmPage.reset, RmPage.stamp, hi])
      · simp only [RmFile.deleted, RmPage.reset, RmPage.stamp, Function.update_of_ne hi]
        exact later (P := fun b => b.isDelete = true) (hoff.bits i) fun hd => by simp [LogBody.isDelete] at hd
    · simp only [LogBody.rolledBack, FileHead.unfill_slots]
      exact later (P := fun b => b.isInsert = false) (hoff.bytes i) fun hd => by simp [LogBody.isInsert] at hd
  | delete value pl =>
    cases Option.some.inj hplace
    refine ⟨rfl, hoff.frame, fun i => ?_, fun i => ?_⟩
    · by_cases hi : i = place.rid.slotNo
      · exact Or.inl (by simp [LogBody.rolledBack, RmPage.set, RmPage.copy, hi])
      · simp only [LogBody.rolledBack, RmPage.set, RmPage.copy, Function.update_of_ne hi]
        refine later (P := fun b => b.isDelete = true) (hoff.bits i) fun _ hs => hi ?_
        simpa [LogBody.slot, LogBody.place] using hs.symm
    · by_cases hi : i = place.rid.slotNo
      · exact Or.inl (by simp [LogBody.rolledBack, RmPage.set, RmPage.copy, hi])
      · simp only [LogBody.rolledBack, RmPage.set, RmPage.copy, Function.update_of_ne hi]
        refine later (P := fun b => b.isInsert = false) (hoff.bytes i) fun _ hs => hi ?_
        simpa [LogBody.slot, LogBody.place] using hs.symm
  | update old new pl =>
    cases Option.some.inj hplace
    refine ⟨rfl, hoff.frame, fun i => ?_, fun i => ?_⟩
    · exact later (P := fun b => b.isDelete = true) (hoff.bits i) fun hd => by simp [LogBody.isDelete] at hd
    · by_cases hi : i = place.rid.slotNo
      · exact Or.inl (by simp [LogBody.rolledBack, RmPage.copy, hi])
      · simp only [LogBody.rolledBack, RmPage.copy, Function.update_of_ne hi]
        refine later (P := fun b => b.isInsert = false) (hoff.bytes i) fun _ hs => hi ?_
        simpa [LogBody.slot, LogBody.place] using hs.symm
  | begin => simp [LogBody.place] at hplace
  | commit => simp [LogBody.place] at hplace
  | abort => simp [LogBody.place] at hplace
  | checkpoint => simp [LogBody.place] at hplace

/-- A record takes its page at most as far away as it writes. -/
theorem self (hins : r.body.isInsert = false) (hplace : r.body.place = some place)
    (hr : r ∈ rs) : OffBy rs place.pageKey page (r.body.rolledBack h page).2 := by
  obtain ⟨lsn, tid, prevLsn, body⟩ := r
  have hslot : body.slot = some (place.pageKey, place.rid.slotNo) := by
    simp only at hplace
    simp [LogBody.slot, hplace]
  cases body with
  | insert => simp [LogBody.isInsert] at hins
  | delete value pl =>
    cases Option.some.inj hplace
    refine ⟨rfl, fun i => ?_, fun i => ?_⟩
    · by_cases hi : i = place.rid.slotNo
      · exact Or.inr ⟨_, hr, rfl, by rw [hi]; exact hslot⟩
      · exact Or.inl (by simp [LogBody.rolledBack, RmPage.set, RmPage.copy, hi])
    · by_cases hi : i = place.rid.slotNo
      · exact Or.inr ⟨_, hr, rfl, by rw [hi]; exact hslot⟩
      · exact Or.inl (by simp [LogBody.rolledBack, RmPage.set, RmPage.copy, hi])
  | update old new pl =>
    cases Option.some.inj hplace
    refine ⟨rfl, fun i => Or.inl rfl, fun i => ?_⟩
    by_cases hi : i = place.rid.slotNo
    · exact Or.inr ⟨_, hr, rfl, by rw [hi]; exact hslot⟩
    · exact Or.inl (by simp [LogBody.rolledBack, RmPage.copy, hi])
  | begin => simp [LogBody.place] at hplace
  | commit => simp [LogBody.place] at hplace
  | abort => simp [LogBody.place] at hplace
  | checkpoint => simp [LogBody.place] at hplace

end RmPage.OffBy

/-- The pass of `undo` over the records that it rolls back. -/
def undoAll (rs : List LogRecord) (db : Db) : Option Db := rs.foldlM undoRecord db

section UndoAll

variable {rs pre rest : List LogRecord} {r : LogRecord} {db db' : Db}

theorem undoAll_cons : undoAll (r :: rs) db =
    (undoRecord db r).bind fun mid => undoAll rs mid :=
  List.foldlM_cons

theorem undoAll_append : undoAll (pre ++ rest) db =
    (undoAll pre db).bind fun mid => undoAll rest mid :=
  List.foldlM_append

/-- What the roll-back of one record does: nothing, or its page and the header of its table. -/
theorem undoRecord_cases (h : undoRecord db r = some db') :
    (r.body.place = none ∧ db' = db) ∨ ∃ place head page, r.body.place = some place ∧
      db.head place.tableName = some head ∧ db.page place.pageKey = some page ∧
      (∀ tab, db'.head tab = if tab = place.tableName then some (r.body.rolledBack head page).1
        else db.head tab) ∧
      ∀ k, db'.page k =
        if k = place.pageKey then some (r.body.rolledBack head page).2 else db.page k := by
  cases hplace : r.body.place with
  | none =>
    simp only [undoRecord, hplace, Option.some.injEq] at h
    exact Or.inl ⟨rfl, h.symm⟩
  | some place =>
    rw [undoRecord_eq hplace] at h
    obtain ⟨head, page, hhead, hpage, hheads, hpages⟩ := Db.change_eq_some h
    exact Or.inr ⟨place, head, page, rfl, hhead, hpage, hheads, hpages⟩

theorem undoRecord_shape (h : undoRecord db r = some db') : SameShape db db' := by
  cases hplace : r.body.place with
  | none =>
    simp only [undoRecord, hplace, Option.some.injEq] at h
    exact h ▸ SameShape.refl db
  | some place =>
    rw [undoRecord_eq hplace] at h
    exact SameShape.of_change (fun _ _ => LogBody.rolledBack_recordSize) h

theorem undoAll_shape (h : undoAll rs db = some db') : SameShape db db' := by
  induction rs generalizing db with
  | nil =>
    cases Option.some.inj h
    exact SameShape.refl _
  | cons r rs ih =>
    obtain ⟨mid, hmid, h⟩ := Option.bind_eq_some_iff.mp (undoAll_cons.symm.trans h)
    exact (undoRecord_shape hmid).trans (ih h)

theorem undoRecord_isSome_iff : (undoRecord db r).isSome = true ↔
    ∀ place, r.body.place = some place → (db.page place.pageKey).isSome = true := by
  cases hplace : r.body.place with
  | none => simp [undoRecord, hplace]
  | some place => simp [undoRecord_eq hplace, Db.change_isSome]

/-- Whether a pass runs through depends on the files and pages that are there. -/
theorem undoAll_isSome {db₁ : Db} (h : undoAll rs db = some db') (hshape : SameShape db db₁) :
    (undoAll rs db₁).isSome = true := by
  induction rs generalizing db db₁ with
  | nil => rfl
  | cons r rs ih =>
    obtain ⟨mid, hmid, h⟩ := Option.bind_eq_some_iff.mp (undoAll_cons.symm.trans h)
    have hround : (undoRecord db₁ r).isSome = true := by
      have hold := undoRecord_isSome_iff.mp (Option.isSome_iff_exists.mpr ⟨mid, hmid⟩)
      refine undoRecord_isSome_iff.mpr fun place hplace => ?_
      rw [← hshape.pages]
      exact hold place hplace
    obtain ⟨mid₁, hmid₁⟩ := Option.isSome_iff_exists.mp hround
    rw [undoAll_cons, hmid₁, Option.bind_some]
    exact ih h ((undoRecord_shape hmid).symm.trans (hshape.trans (undoRecord_shape hmid₁)))

theorem undoRecord_grows (h : undoRecord db r = some db') : LsnsGrow db db' := by
  refine ⟨fun tab ht => (undoRecord_shape h).tables tab ▸ ht, fun key page hp => ?_⟩
  rcases undoRecord_cases h with ⟨-, rfl⟩ | ⟨place, head, old, hplace, -, hold, -, hpages⟩
  · exact ⟨page, hp, le_rfl⟩
  · by_cases hk : key = place.pageKey
    · subst hk
      cases Option.some.inj (hold.symm.trans hp)
      exact ⟨_, by rw [hpages, if_pos rfl], rolledBack_lsn.ge⟩
    · exact ⟨page, by rw [hpages, if_neg hk, hp], le_rfl⟩

theorem undoAll_grows (h : undoAll rs db = some db') : LsnsGrow db db' := by
  induction rs generalizing db with
  | nil => exact Option.some.inj h ▸ LsnsGrow.refl db
  | cons r rs ih =>
    obtain ⟨mid, hmid, h⟩ := Option.bind_eq_some_iff.mp (undoAll_cons.symm.trans h)
    exact (undoRecord_grows hmid).trans (ih h)

/-- How many of the records are INSERT records of the page. -/
def insertsOn (key : PageKey) (rs : List LogRecord) : Nat :=
  (rs.filter fun r => r.body.isInsert && decide (r.On key)).length

/-- Each undone INSERT record takes one off the counter of its page. -/
theorem undoAll_numRecords (h : undoAll rs db = some db') (key : PageKey) :
    (db'.page key).map RmPage.numRecords =
      (db.page key).map fun page => page.numRecords - (insertsOn key rs : Int) := by
  induction rs generalizing db with
  | nil =>
    cases Option.some.inj h
    simp [insertsOn]
  | cons r rs ih =>
    obtain ⟨mid, hmid, h⟩ := Option.bind_eq_some_iff.mp (undoAll_cons.symm.trans h)
    rw [ih h]
    have count : insertsOn key (r :: rs) = insertsOn key rs +
        if r.body.isInsert ∧ r.On key then 1 else 0 := by
      simp only [insertsOn, List.filter_cons]
      by_cases hc : r.body.isInsert ∧ r.On key
      · simp [hc.1, hc.2]
      · rw [if_neg hc, if_neg (by simpa using hc), Nat.add_zero]
    rcases undoRecord_cases hmid with ⟨hplace, rfl⟩ |
      ⟨place, head, old, hplace, -, hold, -, hpages⟩
    · simp [count, LogRecord.On, hplace]
    · by_cases hk : key = place.pageKey
      · subst hk
        have hon := LogRecord.on_place hplace
        rw [hpages, if_pos rfl, hold, count]
        simp only [Option.map_some, rolledBack_numRecords, hon, and_true, Option.some.injEq]
        cases r.body.isInsert
        · simp
        · simp
          lia
      · have hon : ¬ r.On key := fun hon => hk (hon.unique (LogRecord.on_place hplace))
        rw [hpages, if_neg hk, count]
        simp [hon]

/-- A table without an undone INSERT record keeps its header. -/
theorem undoAll_head (h : undoAll rs db = some db') (hins : ∀ r ∈ rs, r.body.isInsert = false)
    (tab : TabName) : db'.head tab = db.head tab := by
  induction rs generalizing db with
  | nil =>
    cases Option.some.inj h
    rfl
  | cons r rs ih =>
    obtain ⟨mid, hmid, h⟩ := Option.bind_eq_some_iff.mp (undoAll_cons.symm.trans h)
    rw [ih h fun q hq => hins q (List.mem_cons_of_mem r hq)]
    rcases undoRecord_cases hmid with ⟨-, rfl⟩ | ⟨place, head, old, -, hhead, -, hheads, -⟩
    · rfl
    · rw [hheads, rolledBack_head (hins r List.mem_cons_self)]
      split
      next ht => rw [ht, hhead]
      next => rfl

/-- A page without an undone INSERT record goes no further than the records write. -/
theorem undoAll_offBy {all : List LogRecord} (h : undoAll rs db = some db') {key : PageKey}
    (hins : ∀ r ∈ rs, r.On key → r.body.isInsert = false) (hsub : rs ⊆ all) {page : RmPage}
    (hpage : db.page key = some page) :
    ∃ page', db'.page key = some page' ∧ RmPage.OffBy all key page page' := by
  induction rs generalizing db page with
  | nil =>
    cases Option.some.inj h
    exact ⟨page, hpage, RmPage.OffBy.refl _ _ _⟩
  | cons r rs ih =>
    obtain ⟨mid, hmid, hrest⟩ := Option.bind_eq_some_iff.mp (undoAll_cons.symm.trans h)
    have hsub' : rs ⊆ all := fun q hq => hsub (List.mem_cons_of_mem r hq)
    have hins' : ∀ q ∈ rs, q.On key → q.body.isInsert = false :=
      fun q hq => hins q (List.mem_cons_of_mem r hq)
    rcases undoRecord_cases hmid with ⟨-, rfl⟩ |
      ⟨place, head, old, hplace, -, hold, -, hpages⟩
    · exact ih hrest hins' hsub' hpage
    · by_cases hk : key = place.pageKey
      · subst hk
        cases Option.some.inj (hold.symm.trans hpage)
        have hself := @RmPage.OffBy.self all r head place page
          (hins r List.mem_cons_self (LogRecord.on_place hplace)) hplace
          (hsub List.mem_cons_self)
        obtain ⟨page', hpage', hoff⟩ := ih hrest hins' hsub' ((hpages _).trans (if_pos rfl))
        exact ⟨page', hpage', hself.trans hoff⟩
      · exact ih hrest hins' hsub' (((hpages _).trans (if_neg hk)).trans hpage)

end UndoAll

/-- The two states have the same headers and differ at most in what the records still write. -/
structure OffBy (rs : List LogRecord) (db db' : Db) : Prop where
  heads : ∀ tab, db.head tab = db'.head tab
  there : ∀ key, (db.page key).isSome = (db'.page key).isSome
  pages : ∀ key page page', db.page key = some page → db'.page key = some page' →
    RmPage.OffBy rs key page page'

namespace OffBy

variable {rs rest : List LogRecord} {r : LogRecord} {db db' x y x' : Db}

theorem shape (h : OffBy rs x y) : SameShape x y := ⟨fun tab => by rw [h.heads], h.there⟩

theorem page (h : OffBy rs x y) {key : PageKey} {page : RmPage} (hp : x.page key = some page) :
    ∃ page', y.page key = some page' ∧ RmPage.OffBy rs key page page' := by
  obtain ⟨page', hp'⟩ := Option.isSome_iff_exists.mp
    ((h.there key).symm.trans (Option.isSome_iff_exists.mpr ⟨page, hp⟩))
  exact ⟨page', hp', h.pages key page page' hp hp'⟩

theorem mono {all : List LogRecord} (h : OffBy rs x y) (hsub : rs ⊆ all) : OffBy all x y :=
  ⟨h.heads, h.there, fun key page page' hp hp' => (h.pages key page page' hp hp').mono hsub⟩

theorem trans {z : Db} (h : OffBy rs x y) (h' : OffBy rs y z) : OffBy rs x z := by
  refine ⟨fun tab => (h.heads tab).trans (h'.heads tab),
    fun key => (h.there key).trans (h'.there key), fun key page page'' hp hp'' => ?_⟩
  obtain ⟨page', hp', hoff⟩ := h.page hp
  exact hoff.trans (h'.pages key page' page'' hp' hp'')

/-- One record of a pass, on two states that the pass makes equal again. -/
theorem step (h : OffBy (r :: rs) x y) (hx : undoRecord x r = some x') :
    ∃ y', undoRecord y r = some y' ∧ OffBy rs x' y' := by
  have hsome : (undoRecord y r).isSome = true := by
    have hold := undoRecord_isSome_iff.mp (Option.isSome_iff_exists.mpr ⟨x', hx⟩)
    refine undoRecord_isSome_iff.mpr fun place hplace => ?_
    rw [← h.shape.pages]
    exact hold place hplace
  obtain ⟨y', hy⟩ := Option.isSome_iff_exists.mp hsome
  have hshape : SameShape x' y' :=
    (undoRecord_shape hx).symm.trans (h.shape.trans (undoRecord_shape hy))
  refine ⟨y', hy, ?_⟩
  rcases undoRecord_cases hx with ⟨hnone, rfl⟩ |
    ⟨place, head, page, hplace, hhead, hpage, hheads, hpages⟩
  · rcases undoRecord_cases hy with ⟨-, rfl⟩ | ⟨place, -, -, hplace, -⟩
    · refine ⟨h.heads, hshape.pages, fun key p p' hp hp' => ?_⟩
      refine (h.pages key p p' hp hp').of_not_on fun hon => ?_
      simp [LogRecord.On, hnone] at hon
    · rw [hnone] at hplace
      cases hplace
  · rcases undoRecord_cases hy with ⟨hnone, -⟩ |
      ⟨place', head', page', hplace', hhead', hpage', hheads', hpages'⟩
    · rw [hnone] at hplace
      cases hplace
    · cases Option.some.inj (hplace.symm.trans hplace')
      have hsame := h.heads place.tableName
      rw [hhead, hhead', Option.some.injEq] at hsame
      subst hsame
      have hoff := h.pages _ page page' hpage hpage'
      obtain ⟨hfirst, hback⟩ := @RmPage.OffBy.rolledBack rs r head place page page' hoff hplace
      refine ⟨fun tab => ?_, hshape.pages, fun key p p' hp hp' => ?_⟩
      · rw [hheads, hheads', hfirst, h.heads]
      · rw [hpages] at hp
        rw [hpages'] at hp'
        by_cases hk : key = place.pageKey
        · subst hk
          rw [if_pos rfl, Option.some.injEq] at hp hp'
          subst hp hp'
          exact hback
        · rw [if_neg hk] at hp hp'
          exact (h.pages key p p' hp hp').of_not_on fun hon => hk (hon.unique (LogRecord.on_place hplace))

theorem undoAll (hoff : OffBy (rs ++ rest) x y) (h : undoAll rs x = some db) :
    ∃ db', Grmdb.undoAll rs y = some db' ∧ OffBy rest db db' := by
  induction rs generalizing x y with
  | nil =>
    cases Option.some.inj h
    exact ⟨y, rfl, hoff⟩
  | cons r rs ih =>
    obtain ⟨mid, hmid, h⟩ := Option.bind_eq_some_iff.mp (undoAll_cons.symm.trans h)
    obtain ⟨mid', hmid', hoff'⟩ := hoff.step hmid
    rw [undoAll_cons, hmid']
    exact ih hoff' h

/-- A pass without an INSERT record stays within what it writes. -/
theorem of_undoAll (hins : ∀ r ∈ rs, r.body.isInsert = false)
    (h : Grmdb.undoAll rs x = some db) : OffBy rs x db := by
  refine ⟨fun tab => (undoAll_head h hins tab).symm, (undoAll_shape h).pages, ?_⟩
  intro key page page' hp hp'
  obtain ⟨page'', hp'', hoff⟩ :=
    undoAll_offBy h (fun r hr _ => hins r hr) (List.Subset.refl rs) hp
  cases Option.some.inj (hp'.symm.trans hp'')
  exact hoff

theorem sameTables (h : OffBy [] x y) : SameTables y x := by
  refine ⟨fun tab => (h.heads tab).symm, fun key => ?_⟩
  cases hp : x.page key with
  | none =>
    have hsame := h.there key
    rw [hp, Option.isSome_none] at hsame
    rw [Option.isSome_eq_false_iff.mp hsame.symm |> Option.isNone_iff_eq_none.mp]
  | some page =>
    obtain ⟨page', hp', hoff⟩ := h.page hp
    rw [hp', hoff.eq_of_nil]

end OffBy

/-- The LSNs that `redo` goes through all have their records. -/
theorem redo_range {log : List LogRecord} (hdense : DenseLog log) {first : Lsn}
    (hfirst : firstLsn (analyze log).dpt = some first) {l : Lsn} (hl : first ≤ l)
    (hlt : l < first + ((analyze log).lastLsn + 1 - first).toNat) :
    ∃ r, recordAt log l = some r ∧ r.lsn = l := by
  obtain ⟨e, he, rfl⟩ := exists_firstLsn hfirst
  obtain ⟨q, hq, hql⟩ := exists_of_mem_dpt he
  obtain ⟨last, hlast, hll⟩ := exists_lastLsn (List.ne_nil_of_mem hq)
  have hpos := (hdense q hq).1
  exact hdense.recordAt hlast (by lia) (by lia)

/-- A second `redo` finds nothing to do. -/
theorem redo_again {log : List LogRecord} {db dbr db₁ : Db} (hdense : DenseLog log)
    (hopen : tablesOpen log db) (h : redo (analyze log) log db = some dbr)
    (hgrow : LsnsGrow dbr db₁) :
    tablesOpen log db₁ ∧ redo (analyze log) log db₁ = some db₁ := by
  unfold redo at h ⊢
  cases hfirst : firstLsn (analyze log).dpt with
  | none =>
    rw [hfirst] at h
    cases Option.some.inj h
    exact ⟨fun r hr place hplace => hgrow.tables _ (hopen r hr place hplace), rfl⟩
  | some first =>
    rw [hfirst] at h
    obtain ⟨hgrow', hcaught⟩ := redoLoop_caughtUp h fun l => redo_range hdense hfirst
    have hopen₁ : tablesOpen log db₁ := fun r hr place hplace =>
      hgrow.tables _ (hgrow'.tables _ (hopen r hr place hplace))
    refine ⟨hopen₁, redoLoop_of_caughtUp hopen₁ fun l hl hlt => ?_⟩
    obtain ⟨r, hr, -⟩ := redo_range hdense hfirst hl hlt
    exact ⟨r, hr, (hcaught l hl hlt r hr).grow hgrow⟩

/-- `redo` is `redoAll` over the records that it reads, and these stand in the order of their
LSNs. -/
theorem redo_eq_redoAll {log : List LogRecord} (hdense : DenseLog log) (db : Db) :
    redo (analyze log) log db = redoAll (analyze log).dpt (redoReads log) db := by
  unfold redo redoReads
  cases hfirst : firstLsn (analyze log).dpt with
  | none => rfl
  | some first => exact redoLoop_eq fun l => redo_range hdense hfirst

theorem mem_redoReads {log : List LogRecord} {r : LogRecord} (h : r ∈ redoReads log) :
    r ∈ log := by
  have hread : ∀ n lsn, r ∈ logFrom log n lsn → r ∈ log := by
    intro n
    induction n with
    | zero => simp [logFrom]
    | succ n ih =>
      intro lsn hr
      rcases List.mem_append.mp hr with hr | hr
      · exact mem_of_recordAt (Option.mem_toList.mp hr)
      · exact ih _ hr
  unfold redoReads at h
  split at h
  · cases h
  · exact hread _ _ h

theorem redoReads_sorted {log : List LogRecord} (hdense : DenseLog log) :
    (redoReads log).Pairwise fun q r => q.lsn < r.lsn := by
  unfold redoReads
  cases hfirst : firstLsn (analyze log).dpt with
  | none => exact List.Pairwise.nil
  | some first => exact (logFrom_lsns fun l => redo_range hdense hfirst).2

/-- After a recovery a second one on the same log runs through, and it leaves the tables as they
are exactly when the first one rolled back no INSERT record. -/
theorem recover_twice_iff {tr : List LsnEv} {s : LsnState}
    (hlog : run LsnState.step LsnState.created tr = some s) {fuel : Nat} {db db₁ : Db}
    (h : recover fuel s.log.file db = some db₁) :
    ∃ db₂, recover fuel s.log.file db₁ = some db₂ ∧
      (SameTables db₂ db₁ ↔ ∀ r ∈ undone fuel s.log.file, r.body.isInsert = false) := by
  obtain ⟨hopen, dbr, hredo, hundo, hloop⟩ := recover_eq_some h
  have hundo : undoAll (undone fuel s.log.file) dbr = some db₁ := hundo
  obtain ⟨hopen₁, hredo₁⟩ := redo_again (LsnState.dense_run hlog) hopen hredo (undoAll_grows hundo)
  obtain ⟨db₂, hundo₂⟩ := Option.isSome_iff_exists.mp (undoAll_isSome hundo (undoAll_shape hundo))
  refine ⟨db₂, ?_, ?_, ?_⟩
  · simp only [recover, if_pos hopen₁, hredo₁, Option.bind_some, undoLoop_eq, hloop]
    exact hundo₂
  · intro hequal r hr
    by_contra hins
    have hins' : r.body.isInsert = true := by simpa using hins
    obtain ⟨place, hplace⟩ : ∃ place, r.body.place = some place := by
      cases hb : r.body <;> simp_all [LogBody.isInsert, LogBody.place]
    obtain ⟨page, hp⟩ : ∃ page, db₁.page place.pageKey = some page := by
      obtain ⟨pre, post, hsplit⟩ := List.append_of_mem hr
      rw [hsplit, undoAll_append] at hundo₂
      obtain ⟨mid, hmid, hrest⟩ := Option.bind_eq_some_iff.mp hundo₂
      obtain ⟨next, hnext, -⟩ := Option.bind_eq_some_iff.mp (undoAll_cons.symm.trans hrest)
      have hthere := undoRecord_isSome_iff.mp (Option.isSome_iff_exists.mpr ⟨next, hnext⟩) place
        hplace
      exact Option.isSome_iff_exists.mp (((undoAll_shape hmid).pages _).trans hthere)
    have hcount : 0 < insertsOn place.pageKey (undone fuel s.log.file) := by
      rw [insertsOn, List.length_pos_iff_exists_mem]
      exact ⟨r, List.mem_filter.mpr ⟨hr, by simp [hins', LogRecord.on_place hplace]⟩⟩
    have hless := undoAll_numRecords hundo₂ place.pageKey
    have heq := congrArg (Option.map RmPage.numRecords) (hequal.pages place.pageKey)
    simp only [Option.map_map] at heq
    have hnum : (db₂.page place.pageKey).map RmPage.numRecords =
        (db₁.page place.pageKey).map RmPage.numRecords := heq
    rw [hnum, hp] at hless
    simp only [Option.map_some, Option.some.injEq] at hless
    lia
  · intro hnone
    have hoff := OffBy.of_undoAll hnone hundo
    rw [← List.append_nil (undone fuel s.log.file)] at hoff
    obtain ⟨db', hback, hsame⟩ := hoff.undoAll hundo
    cases Option.some.inj (hback.symm.trans hundo₂)
    exact hsame.sameTables

end Grmdb
