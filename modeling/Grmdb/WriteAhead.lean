import Grmdb.Analyze
import Grmdb.Runs

namespace Grmdb

open Runs

/-- Number of a record operation that runs with a context: it stamps the page it changes. -/
abbrev OpId := Nat

/-- A table page as far as the log is concerned: its LSN and the operations whose effect it
holds. A page of zeros has LSN 0. -/
structure PageImage where
  lsn : Lsn
  ops : List OpId
  deriving DecidableEq, Repr

def PageImage.zero : PageImage := ⟨0, []⟩

/-- How far the executor has come with an operation. It is dropped when the executor fails
between the change of the page and the append, so that it is never logged. -/
inductive OpStatus where
  | unused
  | pending (tid : TxnId) (body : LogBody)
  | logged (record : LogRecord)
  | dropped
  deriving DecidableEq, Repr

structure Frame where
  page : PageImage
  isDirty : Bool
  deriving DecidableEq, Repr

structure WalState where
  log : LogManager
  pageTable : PageKey → Option Frame
  disk : PageKey → PageImage
  status : OpId → OpStatus

/-- `fetchPage` and `newPage` name the page whose frame they take; `none` is a frame of the free
list; `newPage` gets the number of a page that `allocate_page` has just added. `touch` stands for
the changes made without a context and for `unpin_page` with the dirty flag, `flushAllPages` also
for the second half of a checkpoint and of a file close. -/
inductive WalEv where
  | fetchPage (p : PageKey) (victim : Option PageKey)
  | newPage (p : PageKey) (victim : Option PageKey)
  | recordOp (op : OpId) (tid : TxnId) (body : LogBody)
  | touch (p : PageKey)
  | appendOp (op : OpId) (prevLsn : Lsn)
  | dropOp (op : OpId)
  | append (tid : TxnId) (prevLsn : Lsn) (body : LogBody)
  | checkpointLog
  | flushLog
  | flushPage (p : PageKey)
  | deletePage (p : PageKey)
  | flushAllPages (fd : TabName)
  deriving DecidableEq, Repr

namespace WalState

def fresh (persist : Lsn) : WalState :=
  ⟨LogManager.fresh persist, fun _ => none, fun _ => .zero, fun _ => .unused⟩

def setFrame (s : WalState) (p : PageKey) (f : Option Frame) : WalState :=
  { s with pageTable := fun x => if x = p then f else s.pageTable x }

def writePage (s : WalState) (p : PageKey) (page : PageImage) : WalState :=
  { s with disk := fun x => if x = p then page else s.disk x }

def setStatus (s : WalState) (op : OpId) (st : OpStatus) : WalState :=
  { s with status := fun x => if x = op then st else s.status x }

/-- `update_page` on the frame it is given: the log is flushed when the page LSN is above
`persist_lsn_`, a dirty page is written back and leaves the page table. -/
def updatePage (s : WalState) : Option PageKey → Option WalState
  | none =>
    some { s with log := if s.log.persistLsn < 0 then s.log.flushLogToDisk else s.log }
  | some v =>
    match s.pageTable v with
    | none => none
    | some f =>
      let s' := { s with
        log := if s.log.persistLsn < f.page.lsn then s.log.flushLogToDisk else s.log }
      some ((if f.isDirty then s'.writePage v f.page else s').setFrame v none)

def flushAll (s : WalState) (fd : TabName) : WalState :=
  { s with
    disk := fun p =>
      if p.1 = fd then
        match s.pageTable p with
        | some f => f.page
        | none => s.disk p
      else s.disk p
    pageTable := fun p =>
      if p.1 = fd then (s.pageTable p).map (fun f => { f with isDirty := false })
      else s.pageTable p }

def step (s : WalState) : WalEv → Option WalState
  | .fetchPage p victim =>
    match s.pageTable p with
    | some _ => some s
    | none => (s.updatePage victim).map fun s' => s'.setFrame p (some ⟨s'.disk p, false⟩)
  | .newPage p victim =>
    match s.pageTable p with
    | some _ => none
    | none =>
      (s.updatePage victim).map fun s' =>
        (s'.setFrame p (some ⟨.zero, false⟩)).writePage p .zero
  | .recordOp op tid body =>
    match body.place, s.status op with
    | some place, .unused =>
      match s.pageTable place.pageKey with
      | some f =>
        some ((s.setFrame place.pageKey
          (some ⟨⟨s.log.globalLsn, op :: f.page.ops⟩, true⟩)).setStatus op (.pending tid body))
      | none => none
    | _, _ => none
  | .touch p =>
    match s.pageTable p with
    | some f => some (s.setFrame p (some { f with isDirty := true }))
    | none => none
  | .appendOp op prevLsn =>
    match s.status op with
    | .pending tid body =>
      some ({ s with log := s.log.addLogToBuffer (some tid) prevLsn body }.setStatus op
        (.logged ⟨s.log.globalLsn, some tid, prevLsn, body⟩))
    | _ => none
  | .dropOp op =>
    match s.status op with
    | .pending _ _ => some (s.setStatus op .dropped)
    | _ => none
  | .append tid prevLsn body =>
    if body.isData then none
    else some { s with log := s.log.addLogToBuffer (some tid) prevLsn body }
  | .checkpointLog =>
    some { s with log := (s.log.addLogToBuffer none INVALID_LSN .checkpoint).flushLogToDisk }
  | .flushLog => some { s with log := s.log.flushLogToDisk }
  | .flushPage p =>
    match s.pageTable p with
    | some f => some ((s.writePage p f.page).setFrame p (some { f with isDirty := false }))
    | none => some s
  | .deletePage p =>
    match s.pageTable p with
    | some f => some ((if f.isDirty then s.writePage p f.page else s).setFrame p none)
    | none => some s
  | .flushAllPages fd => some (s.flushAll fd)

/-- The record of `op` is in the log file, if it has one at all. -/
def Durable (s : WalState) (op : OpId) : Prop :=
  s.status op = .dropped ∨ ∃ r ∈ s.log.file, s.status op = .logged r

/-- The write-ahead rule. -/
def WriteAhead (s : WalState) : Prop := ∀ p, ∀ op ∈ (s.disk p).ops, s.Durable op

/-- The append of `op` is over, so a flush of the log reaches its record. -/
def Appended (s : WalState) (op : OpId) : Bool :=
  match s.status op with
  | .logged _ | .dropped => true
  | _ => false

/-- The record of `op` is below `persist_lsn_`. -/
def Below (s : WalState) (op : OpId) : Bool :=
  match s.status op with
  | .logged r => decide (r.lsn < s.log.persistLsn)
  | .dropped => true
  | _ => false

/-- When `update_page` may take the frame: no operation on the page waits for its append, and
the page LSN makes `update_page` flush unless their LSNs are below `persist_lsn_`. -/
def Evictable (s : WalState) : Option PageKey → Prop
  | none => True
  | some v =>
    match s.pageTable v with
    | some f => f.isDirty = true →
      ∀ op ∈ f.page.ops, s.Appended op ∧ (s.log.persistLsn < f.page.lsn ∨ s.Below op)
    | none => True

instance (s : WalState) (victim : Option PageKey) : Decidable (s.Evictable victim) := by
  unfold Evictable
  split
  · infer_instance
  · split <;> infer_instance

/-- What a step that writes pages back has to find in the log. -/
def WritesLogged (s : WalState) : WalEv → Prop
  | .fetchPage p victim => s.pageTable p = none → s.Evictable victim
  | .newPage _ victim => s.Evictable victim
  | .flushPage p =>
    match s.pageTable p with
    | some f => ∀ op ∈ f.page.ops, s.Below op
    | none => True
  | .deletePage p =>
    match s.pageTable p with
    | some f => f.isDirty = true → ∀ op ∈ f.page.ops, s.Below op
    | none => True
  | .flushAllPages fd => ∀ p, p.1 = fd →
    match s.pageTable p with
    | some f => ∀ op ∈ f.page.ops, s.Below op
    | none => True
  | _ => True

/-- Every logged operation has its record in the log, on the side of `persist_lsn_` that its
LSN says. -/
structure Inv (s : WalState) : Prop where
  ordered : s.log.Ordered
  recorded : ∀ op r, s.status op = .logged r → r ∈ s.log.records

theorem inv_fresh {persist : Lsn} (h : persist ≤ 0) : Inv (fresh persist) :=
  ⟨LogManager.ordered_fresh h, by simp [fresh]⟩

theorem Inv.log {s : WalState} (hi : s.Inv) {log : LogManager} (ho : log.Ordered)
    (hsub : s.log.records <+: log.records) : Inv { s with log := log } :=
  ⟨ho, fun op r h => hsub.subset (hi.recorded op r h)⟩

theorem Inv.congr {s s' : WalState} (hi : s.Inv) (hlog : s'.log = s.log)
    (hst : s'.status = s.status) : s'.Inv := by
  refine ⟨hlog ▸ hi.ordered, ?_⟩
  rw [hlog, hst]
  exact hi.recorded

theorem Inv.flushed {s : WalState} (hi : s.Inv) : Inv { s with log := s.log.flushLogToDisk } :=
  hi.log hi.ordered.flush (by simp)

theorem durable_iff_below {s : WalState} (hi : s.Inv) (op : OpId) :
    s.Durable op ↔ s.Below op = true := by
  unfold Durable Below
  cases hst : s.status op with
  | unused => simp
  | pending tid body => simp
  | dropped => simp
  | logged r =>
    have := hi.ordered.mem_file_iff (hi.recorded op r hst)
    simp [this]

theorem durable_flushed_iff {s : WalState} (hi : s.Inv) (op : OpId) :
    Durable { s with log := s.log.flushLogToDisk } op ↔ s.Appended op = true := by
  unfold Durable Appended
  cases hst : s.status op with
  | unused => simp
  | pending tid body => simp
  | dropped => simp
  | logged r => simp [LogManager.flush_file, hi.recorded op r hst]

theorem Durable.mono {s s' : WalState} {op : OpId} (h : s.Durable op)
    (hst : s'.status op = s.status op) (hfile : s.log.file <+: s'.log.file) : s'.Durable op := by
  rcases h with h | ⟨r, hr, h⟩
  · exact Or.inl (hst.trans h)
  · exact Or.inr ⟨r, hfile.subset hr, hst.trans h⟩

theorem file_prefix_flush (lm : LogManager) : lm.file <+: lm.flushLogToDisk.file := by
  rw [LogManager.flush_file]
  exact List.prefix_append _ _

theorem file_prefix_add (lm : LogManager) (tid : Option TxnId) (prevLsn : Lsn) (body : LogBody) :
    lm.file <+: (lm.addLogToBuffer tid prevLsn body).file := by
  by_cases h : lm.isFull body.totLen = true
  · rw [LogManager.add_file_of_full _ _ _ _ h]
    exact List.prefix_append _ _
  · have hfile := LogManager.add_file_of_room lm tid prevLsn body (by simpa using h)
    exact hfile.symm ▸ List.prefix_refl lm.file

/-- A step that writes no page keeps the rule. -/
theorem WriteAhead.quiet {s s' : WalState} (h : s.WriteAhead) (hdisk : s'.disk = s.disk)
    (hst : ∀ op, s.Durable op → s'.status op = s.status op)
    (hfile : s.log.file <+: s'.log.file) : s'.WriteAhead := by
  intro p op hop
  rw [hdisk] at hop
  exact (h p op hop).mono (hst op (h p op hop)) hfile

/-- Writing one page back keeps the rule exactly when its operations are durable. -/
theorem writeAhead_writePage {s : WalState} (h : s.WriteAhead) (p : PageKey) (page : PageImage) :
    (s.writePage p page).WriteAhead ↔ ∀ op ∈ page.ops, s.Durable op := by
  constructor
  · intro hw op hop
    exact hw p op (by simpa [writePage] using hop)
  · intro hops q op hop
    by_cases hq : q = p
    · exact hops op (by simpa [writePage, hq] using hop)
    · exact h q op (by simpa [writePage, hq] using hop)

/-- What `update_page` leaves behind. -/
theorem updatePage_spec {s s' : WalState} {victim : Option PageKey} (hi : s.Inv)
    (h : s.WriteAhead) (hs : s.updatePage victim = some s') :
    s'.Inv ∧ (s'.WriteAhead ↔ s.Evictable victim) ∧ s'.status = s.status ∧
    s.log.file <+: s'.log.file ∧ ∀ p, s.pageTable p = none → s'.disk p = s.disk p := by
  have hflush : ({ s with log := s.log.flushLogToDisk } : WalState).WriteAhead :=
    h.quiet rfl (fun _ _ => rfl) (file_prefix_flush _)
  cases victim with
  | none =>
    cases Option.some.inj hs
    by_cases hp : s.log.persistLsn < 0
    · rw [if_pos hp]
      exact ⟨hi.flushed, by simp [Evictable, hflush], rfl, file_prefix_flush _, fun _ _ => rfl⟩
    · rw [if_neg hp]
      exact ⟨hi, by simp [Evictable, h], rfl, List.prefix_refl _, fun _ _ => rfl⟩
  | some v =>
    simp only [updatePage] at hs
    split at hs
    next => simp at hs
    next f hf =>
      cases Option.some.inj hs
      have hdisk : ∀ p, s.pageTable p = none → p ≠ v := by
        rintro p hp rfl
        simp [hp] at hf
      by_cases hp : s.log.persistLsn < f.page.lsn
      · rw [if_pos hp]
        by_cases hd : f.isDirty = true
        · rw [if_pos hd]
          refine ⟨hi.flushed.congr rfl rfl, ?_, rfl, file_prefix_flush _, ?_⟩
          · show (writePage { s with log := s.log.flushLogToDisk } v f.page).WriteAhead ↔ _
            rw [writeAhead_writePage hflush]
            simp [Evictable, hf, hd, hp, durable_flushed_iff hi]
          · intro p hpn
            simp [setFrame, writePage, hdisk p hpn]
        · rw [if_neg hd]
          refine ⟨hi.flushed.congr rfl rfl, ?_, rfl, file_prefix_flush _, fun _ _ => rfl⟩
          show ({ s with log := s.log.flushLogToDisk } : WalState).WriteAhead ↔ _
          simp [Evictable, hf, hd, hflush]
      · rw [if_neg hp]
        by_cases hd : f.isDirty = true
        · rw [if_pos hd]
          refine ⟨hi.congr rfl rfl, ?_, rfl, List.prefix_refl _, ?_⟩
          · show (s.writePage v f.page).WriteAhead ↔ _
            rw [writeAhead_writePage h]
            simp only [Evictable, hf, hd, hp, false_or, forall_const, durable_iff_below hi]
            refine forall₂_congr fun op _ => ⟨fun hb => ⟨?_, hb⟩, And.right⟩
            unfold Below at hb
            unfold Appended
            split at hb <;> simp_all
          · intro p hpn
            simp [setFrame, writePage, hdisk p hpn]
        · rw [if_neg hd]
          refine ⟨hi.congr rfl rfl, ?_, rfl, List.prefix_refl _, fun _ _ => rfl⟩
          show s.WriteAhead ↔ _
          simp [Evictable, hf, hd, h]

theorem flushAll_writeAhead {s : WalState} (h : s.WriteAhead) (fd : TabName) :
    (s.flushAll fd).WriteAhead ↔ ∀ p, p.1 = fd → ∀ f, s.pageTable p = some f →
      ∀ op ∈ f.page.ops, s.Durable op := by
  constructor
  · intro hw p hp f hf op hop
    exact hw p op (by simpa [flushAll, hp, hf] using hop)
  · intro hall p op hop
    by_cases hp : p.1 = fd
    · cases hf : s.pageTable p with
      | none => exact h p op (by simpa [flushAll, hp, hf] using hop)
      | some f => exact hall p hp f hf op (by simpa [flushAll, hp, hf] using hop)
    · exact h p op (by simpa [flushAll, hp] using hop)

/-- A page that is written back as it is in the pool. -/
theorem writeAhead_writePage_below {s : WalState} (hi : s.Inv) (h : s.WriteAhead) (p : PageKey)
    (page : PageImage) :
    (s.writePage p page).WriteAhead ↔ ∀ op ∈ page.ops, s.Below op = true := by
  simp only [writeAhead_writePage h, durable_iff_below hi]

theorem durable_status {s : WalState} {op : OpId} (h : s.Durable op) :
    (∀ tid body, s.status op ≠ .pending tid body) ∧ s.status op ≠ .unused := by
  rcases h with h | ⟨r, _, h⟩ <;> simp [h]

/-- One step: the invariant is kept, and the rule is kept exactly when the step finds in the
log what `WritesLogged` asks for. -/
theorem step_spec {s s' : WalState} {e : WalEv} (hi : s.Inv) (h : s.WriteAhead)
    (hs : s.step e = some s') : s'.Inv ∧ (s'.WriteAhead ↔ s.WritesLogged e) := by
  cases e with
  | fetchPage p victim =>
    simp only [step] at hs
    split at hs
    next f hf =>
      cases Option.some.inj hs
      exact ⟨hi, by simp [WritesLogged, hf, h]⟩
    next hf =>
      obtain ⟨mid, hmid, rfl⟩ := Option.map_eq_some_iff.mp hs
      obtain ⟨hinv, hiff, hst, hfile, hdisk⟩ := updatePage_spec hi h hmid
      refine ⟨hinv.congr rfl rfl, ?_⟩
      simp only [WritesLogged, hf, forall_const]
      exact hiff
  | newPage p victim =>
    simp only [step] at hs
    split at hs
    next => simp at hs
    next hf =>
      obtain ⟨mid, hmid, rfl⟩ := Option.map_eq_some_iff.mp hs
      obtain ⟨hinv, hiff, hst, hfile, hdisk⟩ := updatePage_spec hi h hmid
      refine ⟨hinv.congr rfl rfl, ?_⟩
      show (mid.writePage p .zero).WriteAhead ↔ s.Evictable victim
      rw [← hiff]
      constructor
      · -- the page that is overwritten was written before this step
        intro hw q op hop
        by_cases hq : q = p
        · subst hq
          rw [hdisk q hf] at hop
          exact (h q op hop).mono (by rw [hst]) hfile
        · exact hw q op (by simpa [writePage, hq] using hop)
      · intro hw
        exact (writeAhead_writePage hw p .zero).mpr (by simp [PageImage.zero])
  | recordOp op tid body =>
    simp only [step] at hs
    split at hs
    next place hplace hunused =>
      split at hs
      next f hf =>
        cases Option.some.inj hs
        refine ⟨⟨hi.ordered, ?_⟩, ?_⟩
        · intro op' r hr
          by_cases ho : op' = op
          · simp [setStatus, ho] at hr
          · exact hi.recorded op' r (by simpa [setStatus, setFrame, ho] using hr)
        · simp only [WritesLogged, iff_true]
          refine h.quiet rfl ?_ (List.prefix_refl _)
          intro op' hd
          have hne : op' ≠ op := by
            rintro rfl
            exact (durable_status hd).2 hunused
          simp [setStatus, hne, setFrame]
      next => simp at hs
    next => simp at hs
  | touch p =>
    simp only [step] at hs
    split at hs
    next =>
      cases Option.some.inj hs
      refine ⟨hi.congr rfl rfl, ?_⟩
      simp only [WritesLogged, iff_true]
      exact h
    next => simp at hs
  | appendOp op prevLsn =>
    simp only [step] at hs
    split at hs
    next tid body hpending =>
      cases Option.some.inj hs
      refine ⟨⟨hi.ordered.add _ _ _, ?_⟩, ?_⟩
      · intro op' r hr
        show r ∈ (s.log.addLogToBuffer (some tid) prevLsn body).records
        rw [LogManager.add_records]
        by_cases ho : op' = op
        · have : r = ⟨s.log.globalLsn, some tid, prevLsn, body⟩ := by
            simpa [setStatus, ho, eq_comm] using hr
          simp [this]
        · exact List.mem_append_left _ (hi.recorded op' r (by simpa [setStatus, ho] using hr))
      · simp only [WritesLogged, iff_true]
        refine h.quiet rfl ?_ (file_prefix_add _ _ _ _)
        intro op' hd
        have hne : op' ≠ op := by
          rintro rfl
          exact (durable_status hd).1 tid body hpending
        simp [setStatus, hne]
    next => simp at hs
  | dropOp op =>
    simp only [step] at hs
    split at hs
    next tid body hpending =>
      cases Option.some.inj hs
      refine ⟨⟨hi.ordered, ?_⟩, ?_⟩
      · intro op' r hr
        by_cases ho : op' = op
        · simp [setStatus, ho] at hr
        · exact hi.recorded op' r (by simpa [setStatus, ho] using hr)
      · simp only [WritesLogged, iff_true]
        refine h.quiet rfl ?_ (List.prefix_refl _)
        intro op' hd
        have hne : op' ≠ op := by
          rintro rfl
          exact (durable_status hd).1 tid body hpending
        simp [setStatus, hne]
    next => simp at hs
  | append tid prevLsn body =>
    simp only [step] at hs
    split at hs
    next => simp at hs
    next =>
      cases Option.some.inj hs
      refine ⟨hi.log (hi.ordered.add _ _ _) ?_, ?_⟩
      · rw [LogManager.add_records]
        exact List.prefix_append _ _
      · simp only [WritesLogged, iff_true]
        exact h.quiet rfl (fun _ _ => rfl) (file_prefix_add _ _ _ _)
  | checkpointLog =>
    cases Option.some.inj hs
    refine ⟨hi.log (hi.ordered.add _ _ _).flush ?_, ?_⟩
    · rw [LogManager.flush_records, LogManager.add_records]
      exact List.prefix_append _ _
    · simp only [WritesLogged, iff_true]
      exact h.quiet rfl (fun _ _ => rfl) ((file_prefix_add _ _ _ _).trans (file_prefix_flush _))
  | flushLog =>
    cases Option.some.inj hs
    refine ⟨hi.flushed, ?_⟩
    simp only [WritesLogged, iff_true]
    exact h.quiet rfl (fun _ _ => rfl) (file_prefix_flush _)
  | flushPage p =>
    simp only [step] at hs
    split at hs
    next f hf =>
      cases Option.some.inj hs
      refine ⟨hi.congr rfl rfl, ?_⟩
      simp only [WritesLogged, hf]
      exact writeAhead_writePage_below hi h p f.page
    next hf =>
      cases Option.some.inj hs
      exact ⟨hi, by simp [WritesLogged, hf, h]⟩
  | deletePage p =>
    simp only [step] at hs
    split at hs
    next f hf =>
      cases Option.some.inj hs
      simp only [WritesLogged, hf]
      by_cases hd : f.isDirty = true
      · rw [if_pos hd]
        refine ⟨hi.congr rfl rfl, ?_⟩
        simp only [hd, forall_const]
        exact writeAhead_writePage_below hi h p f.page
      · rw [if_neg hd]
        refine ⟨hi.congr rfl rfl, ?_⟩
        simp only [hd, Bool.false_eq_true, false_implies, iff_true]
        exact h
    next hf =>
      cases Option.some.inj hs
      exact ⟨hi, by simp [WritesLogged, hf, h]⟩
  | flushAllPages fd =>
    cases Option.some.inj hs
    refine ⟨hi.congr rfl rfl, ?_⟩
    rw [flushAll_writeAhead h]
    simp only [WritesLogged, durable_iff_below hi]
    refine forall₂_congr fun p _ => ?_
    cases s.pageTable p <;> simp

/-- Every state that the run passes through meets the rule, exactly when every step that writes
pages back finds their records in the log. -/
theorem writeAhead_iff_writesLogged {persist : Lsn} (hp : persist ≤ 0) {tr : List WalEv}
    {s : WalState} (h : run step (fresh persist) tr = some s) :
    (∀ tr₁ tr₂ s₁, tr = tr₁ ++ tr₂ → run step (fresh persist) tr₁ = some s₁ → s₁.WriteAhead) ↔
      MeetsAll step WritesLogged (fresh persist) tr := by
  have hstart : (fresh persist).Inv ∧ (fresh persist).WriteAhead :=
    ⟨inv_fresh hp, by simp [WriteAhead, fresh, PageImage.zero]⟩
  refine forall_prefix_iff_meetsAll (I := fun s => s.Inv ∧ s.WriteAhead) (p := WriteAhead)
    (fun _ hi => hi.2) ?_ ?_ hstart h
  · intro s e s' hi hgood hs
    obtain ⟨hinv, hiff⟩ := step_spec hi.1 hi.2 hs
    exact ⟨hinv, hiff.mpr hgood⟩
  · intro s e s' hi hbad hs hw
    exact hbad ((step_spec hi.1 hi.2 hs).2.mp hw)

def rowInsert : LogBody := .insert [1] ⟨⟨1, 0⟩, "t", 1, 2⟩

/-- A row is inserted and logged, and its page is evicted. -/
def evictTrace : List WalEv :=
  [.append 0 (-1) .begin, .newPage ("t", 1) none, .recordOp 0 0 rowInsert, .appendOp 0 0,
    .fetchPage ("t", 2) (some ("t", 1))]

theorem writeAhead_iff_writesLogged_evict : ∃ s, run step (fresh 0) evictTrace = some s ∧
    (s.disk ("t", 1)).ops = [0] ∧
    ∀ tr₁ tr₂ s₁, evictTrace = tr₁ ++ tr₂ → run step (fresh 0) tr₁ = some s₁ → s₁.WriteAhead := by
  refine ⟨_, rfl, rfl, (writeAhead_iff_writesLogged le_rfl rfl).mpr ?_⟩
  refine meetsAll_cons rfl trivial (meetsAll_cons rfl trivial ?_)
  refine meetsAll_cons rfl trivial (meetsAll_cons rfl trivial ?_)
  refine meetsAll_cons rfl (fun _ => ?_) trivial
  decide

/-- The same after a flush between BEGIN and the insert: the page LSN equals `persist_lsn_`, so
the page is written back before its record. -/
def evictEqualTrace : List WalEv :=
  [.append 0 (-1) .begin, .flushLog, .newPage ("t", 1) none, .recordOp 0 0 rowInsert,
    .appendOp 0 0, .fetchPage ("t", 2) (some ("t", 1))]

theorem not_writeAhead_evictEqual : ∃ s, run step (fresh 0) evictEqualTrace = some s ∧
    (s.disk ("t", 1)).ops = [0] ∧ s.status 0 = .logged ⟨1, some 0, 0, rowInsert⟩ ∧
    s.log.file = [⟨0, some 0, -1, .begin⟩] ∧ ¬ s.WriteAhead := by
  refine ⟨_, rfl, rfl, rfl, rfl, fun h => ?_⟩
  rcases h ("t", 1) 0 (by decide) with h | ⟨r, hr, h⟩
  · exact absurd h (by decide)
  · revert r
    decide

end WalState

end Grmdb
