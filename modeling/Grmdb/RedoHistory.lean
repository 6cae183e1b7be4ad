import Grmdb.Recovery
import Grmdb.RecordReinsert

namespace Grmdb

open AssocMap Runs

/-- One statement of a serial history without aborts, on one row, or a BEGIN or COMMIT record. -/
inductive HistEv where
  | mark (tid : TxnId) (prevLsn : Lsn) (commit : Bool)
  | insert (tid : TxnId) (prevLsn : Lsn) (buf : Bytes)
  | delete (tid : TxnId) (prevLsn : Lsn) (rid : Rid)
  | update (tid : TxnId) (prevLsn : Lsn) (rid : Rid) (buf : Bytes)

/-- A table file with its log, and the file as it was before each record of the log. -/
structure Hist where
  file : RmFile
  log : List LogRecord
  past : List RmFile

namespace Hist

def start (recordSize : Nat) : Hist := ⟨RmFile.create recordSize, [], []⟩

/-- The LSN that the next record gets, and that the operation before it stamps on its page. -/
def lsn (h : Hist) : Lsn := h.log.length

def push (h : Hist) (file : RmFile) (tid : TxnId) (prevLsn : Lsn) (body : LogBody) : Hist :=
  ⟨file, h.log ++ [⟨h.lsn, some tid, prevLsn, body⟩], h.past ++ [h.file]⟩

/-- Where the executors put the row: the header fields are read after the operation. -/
def place (tab : TabName) (rid : Rid) (file : RmFile) : LogPlace :=
  ⟨rid, tab, file.firstFreePageNo, file.numPages⟩

/-- A statement runs in a transaction that has logged its BEGIN record. -/
def step (tab : TabName) (h : Hist) : HistEv → Option Hist
  | .mark tid prevLsn commit =>
    some (h.push h.file tid prevLsn (if commit then .commit else .begin))
  | .insert tid prevLsn buf =>
    if h.log = [] then none
    else (h.file.insertRecord buf (some h.lsn)).map fun r =>
      h.push r.1 tid prevLsn (.insert buf (place tab r.2 r.1))
  | .delete tid prevLsn rid =>
    if h.log = [] then none
    else (h.file.record rid).bind fun old => (h.file.deleteRecord rid (some h.lsn)).map fun file =>
      h.push file tid prevLsn (.delete old (place tab rid file))
  | .update tid prevLsn rid buf =>
    if h.log = [] then none
    else (h.file.record rid).bind fun old =>
      (h.file.updateRecord rid buf (some h.lsn)).map fun file =>
        h.push file tid prevLsn (.update old buf (place tab rid file))

/-- The file before record `i` of the log, at the end the file itself. -/
def before (h : Hist) (i : Nat) : RmFile := (h.past[i]?).getD h.file

/-- The image of page `p` that was flushed last, at the time `t p`; before the first record of
the page that is the page of zeros. -/
def image (h : Hist) (t : PageNo → Nat) (p : PageNo) : RmPage :=
  ((h.before (t p)).pages p).getD (RmPage.zero h.file.recordSize)

/-- The table file on disk. Its header is written whenever it changes. -/
def disk (h : Hist) (t : PageNo → Nat) : RmFile :=
  { h.file with pages := fun p => (h.file.pages p).map fun _ => h.image t p }

/-- The flushed image of its page lacks the record. -/
def lacks (t : PageNo → Nat) (r : LogRecord) : Bool :=
  r.body.place.any fun place => (t place.rid.pageNo : Int) ≤ r.lsn

def redone (h : Hist) (t : PageNo → Nat) : List LogRecord := h.log.filter (lacks t)

/-- The record is an insert that filled its page. -/
def fills (h : Hist) (r : LogRecord) : Bool :=
  match r.body with
  | .insert _ place =>
    ((h.before (r.lsn.toNat + 1)).pages place.rid.pageNo).any fun page =>
      decide ((h.file.perPage : Int) ≤ page.numRecords)
  | _ => false

/-- -1 once one of the records has filled the page, else what its flushed image has. -/
def nextAfter (h : Hist) (t : PageNo → Nat) (rs : List LogRecord) (p : PageNo) : PageNo :=
  if rs.any fun r => h.fills r && r.body.place.any fun place => place.rid.pageNo = p then
    RM_NO_PAGE
  else (h.image t p).nextFreePageNo

/-- The chain of free pages survives the choice of images: on every page, and in the header by
the last record that is redone. -/
structure ChainKept (h : Hist) (t : PageNo → Nat) : Prop where
  pages : ∀ p page, h.file.pages p = some page →
    h.nextAfter t (h.redone t) p = page.nextFreePageNo
  header : ∀ rs r place, h.redone t = rs ++ [r] → r.body.place = some place →
    place.numPages = h.file.numPages ∧
    (if h.fills r then h.nextAfter t rs place.rid.pageNo else place.firstFreePageNo) =
      h.file.firstFreePageNo

end Hist

/-- The database that has one table. -/
def tabDb (tab : TabName) (f : RmFile) : Db := fun x => if x = tab then some f else none

/-- What is compared of a page that redo has rebuilt. -/
structure RebuiltPage (page page' : RmPage) : Prop where
  bitmap : page.bitmap = page'.bitmap
  numRecords : page.numRecords = page'.numRecords
  nextFreePageNo : page.nextFreePageNo = page'.nextFreePageNo
  slots : ∀ i, page'.bitmap i = true → page.slots i = page'.slots i

structure Rebuilt (f f' : RmFile) : Prop where
  numPages : f.numPages = f'.numPages
  firstFreePageNo : f.firstFreePageNo = f'.firstFreePageNo
  pages : ∀ p, (f.pages p).isSome = (f'.pages p).isSome ∧
    ∀ page page', f.pages p = some page → f'.pages p = some page' → RebuiltPage page page'

/-- A page but for its place in the chain. -/
def RmPage.unlinked (page : RmPage) : RmPage := { page with nextFreePageNo := 0 }

/-- What a record of the log did to the file, from `f` to `f'`. -/
structure Forward (tab : TabName) (recordSize : Nat) (f : RmFile) (r : LogRecord) (f' : RmFile) :
    Prop where
  size : f'.recordSize = recordSize
  body : r.body ≠ .checkpoint
  mark : r.body.place = none → f' = f
  data : ∀ place, r.body.place = some place → 1 ≤ r.lsn ∧ place.tableName = tab ∧
    place.firstFreePageNo = f'.firstFreePageNo ∧ place.numPages = f'.numPages ∧
    (∀ q, q ≠ place.rid.pageNo → f'.pages q = f.pages q) ∧
    ∃ page', f'.pages place.rid.pageNo = some page' ∧
      page'.unlinked = (r.body.redoPage r.lsn
        ((f.pages place.rid.pageNo).getD (RmPage.zero recordSize))).unlinked ∧
      (r.body.isDelete = true → page'.numRecords = (numRecordsPerPage recordSize : Int) - 1 →
        f'.firstFreePageNo = place.rid.pageNo)

theorem redoPage_unlinked {page page' : RmPage} (h : page.unlinked = page'.unlinked)
    (b : LogBody) (lsn : Lsn) :
    (b.redoPage lsn page).unlinked = (b.redoPage lsn page').unlinked := by
  obtain ⟨a, c, d, e, g⟩ := page
  obtain ⟨a', c', d', e', g'⟩ := page'
  simp only [RmPage.unlinked, RmPage.mk.injEq, true_and] at h
  obtain ⟨rfl, rfl, rfl, rfl⟩ := h
  cases b <;> rfl

namespace RmFile

variable {f f' : RmFile} {free : List PageNo} {rid : Rid} {buf : Bytes} {lsn : Lsn}

/-- `create_page_handle` changes at most the page it returns, which was not there. -/
theorem createPageHandle_pages (h : Chained f free) :
    (∀ q, q ≠ f.createPageHandle.firstFreePageNo → f.createPageHandle.pages q = f.pages q) ∧
    ∀ page, f.createPageHandle.pages f.createPageHandle.firstFreePageNo = some page →
      page.unlinked = ((f.pages f.createPageHandle.firstFreePageNo).getD
        (RmPage.zero f.recordSize)).unlinked := by
  unfold RmFile.createPageHandle
  split
  · refine ⟨fun _ _ => rfl, fun page hp => ?_⟩
    rw [hp, Option.getD_some]
  · refine ⟨fun q hq => ?_, fun page hp => ?_⟩
    · exact Function.update_of_ne hq _ _
    · simp only [RmFile.createNewPageHandle, Function.update_self, Option.some.injEq] at hp
      simp only [RmFile.createNewPageHandle, h.next_absent, Option.getD_none, ← hp]
      rfl

/-- A page that is back below the full mark is first in the chain then. -/
theorem unfill_first (f : RmFile) (p : PageNo) {page : RmPage}
    (h : page.numRecords = (f.perPage : Int) - 1) : (f.unfill p page).firstFreePageNo = p := by
  unfold RmFile.unfill RmFile.releasePageHandle
  rw [if_pos h]
  split
  next hp => exact hp.symm
  next => rfl

theorem insertRecord_forward (hinv : f.Inv free)
    (h : f.insertRecord buf (some lsn) = some (f', rid)) (tab : TabName) (tid : Option TxnId)
    (prevLsn : Lsn) (hlsn : 1 ≤ lsn) : Forward tab f.recordSize f
      ⟨lsn, tid, prevLsn, .insert buf (Hist.place tab rid f')⟩ f' := by
  obtain ⟨page, hp, heq⟩ := Option.map_eq_some_iff.mp h
  obtain ⟨hother, hhere⟩ := createPageHandle_pages hinv.toChained
  simp only [Prod.mk.injEq] at heq
  obtain ⟨hfile, hrid⟩ := heq
  obtain ⟨next, hpages⟩ := fill_pages f.createPageHandle f.createPageHandle.firstFreePageNo
    (inserted page rid.slotNo buf (some lsn))
  have hslot : rid.slotNo = firstBit false page.bitmap f.createPageHandle.perPage := by
    rw [← hrid]
  have hfile' : f.createPageHandle.fill f.createPageHandle.firstFreePageNo
      (inserted page rid.slotNo buf (some lsn)) = f' := by
    rw [← hfile, hslot]
    rfl
  rw [hfile'] at hpages
  have hpage : rid.pageNo = f.createPageHandle.firstFreePageNo := by rw [← hrid]
  refine ⟨?_, by simp, by simp [LogBody.place], ?_⟩
  · rw [← hfile', fill_recordSize, createPageHandle_recordSize]
  · intro place hplace
    cases Option.some.inj hplace
    refine ⟨hlsn, rfl, rfl, rfl, fun q hq => ?_, ?_⟩
    · have hq' : q ≠ f.createPageHandle.firstFreePageNo := fun e => hq (e.trans hpage.symm)
      rw [hpages, Function.update_of_ne hq', hother q hq']
    · refine ⟨{ inserted page rid.slotNo buf (some lsn) with nextFreePageNo := next }, ?_, ?_,
        by simp [LogBody.isDelete]⟩
      · show f'.pages rid.pageNo = _
        rw [hpages, hpage, Function.update_self]
      · show (inserted page rid.slotNo buf (some lsn)).unlinked = _
        have := redoPage_unlinked (hhere page hp) (.insert buf (Hist.place tab rid f')) lsn
        rw [← hpage] at this
        exact this

theorem deleteRecord_forward {old : Bytes} (h : f.deleteRecord rid (some lsn) = some f')
    (tab : TabName) (tid : Option TxnId) (prevLsn : Lsn) (hlsn : 1 ≤ lsn) :
    Forward tab f.recordSize f ⟨lsn, tid, prevLsn, .delete old (Hist.place tab rid f')⟩ f' := by
  obtain ⟨page, hp, heq⟩ := Option.map_eq_some_iff.mp h
  have heq' : f.unfill rid.pageNo (deleted page rid.slotNo (some lsn)) = f' := heq
  obtain ⟨next, hpages⟩ := unfill_pages f rid.pageNo (deleted page rid.slotNo (some lsn))
  rw [heq'] at hpages
  refine ⟨?_, by simp, by simp [LogBody.place], ?_⟩
  · rw [← heq', unfill_recordSize]
  · intro place hplace
    cases Option.some.inj hplace
    refine ⟨hlsn, rfl, rfl, rfl, fun q hq => ?_, ?_⟩
    · rw [hpages]
      exact Function.update_of_ne hq _ _
    · refine ⟨{ deleted page rid.slotNo (some lsn) with nextFreePageNo := next }, ?_, ?_, ?_⟩
      · show f'.pages rid.pageNo = _
        rw [hpages, Function.update_self]
      · simp only [Hist.place, hp, Option.getD_some]
        rfl
      · intro _ hnum
        rw [← heq']
        exact unfill_first f rid.pageNo hnum

theorem updateRecord_forward {old : Bytes} (h : f.updateRecord rid buf (some lsn) = some f')
    (tab : TabName) (tid : Option TxnId) (prevLsn : Lsn) (hlsn : 1 ≤ lsn) :
    Forward tab f.recordSize f ⟨lsn, tid, prevLsn, .update old buf (Hist.place tab rid f')⟩ f' := by
  obtain ⟨page, hp, rfl⟩ := Option.map_eq_some_iff.mp h
  refine ⟨rfl, by simp, by simp [LogBody.place], ?_⟩
  intro place hplace
  cases Option.some.inj hplace
  refine ⟨hlsn, rfl, rfl, rfl, fun q hq => ?_, ?_⟩
  · exact Function.update_of_ne hq _ _
  · refine ⟨(page.copy rid.slotNo buf).stamp (some lsn), ?_, ?_, by simp [LogBody.isDelete]⟩
    · exact Function.update_self _ _ _
    · simp only [Hist.place, hp, Option.getD_some]
      rfl

end RmFile

namespace Hist

/-- Consecutive files of a history are one record apart. -/
structure Inv (tab : TabName) (recordSize : Nat) (h : Hist) : Prop where
  file : ∃ free, h.file.Inv free
  size : h.file.recordSize = recordSize
  length : h.past.length = h.log.length
  numbered : Numbered h.log
  first : ∀ p, (h.before 0).pages p = none
  forward : ∀ k r, h.log[k]? = some r → Forward tab recordSize (h.before k) r (h.before (k + 1))

theorem inv_start {recordSize : Nat} (tab : TabName) (hsize : recordSize ≤ RM_MAX_RECORD_SIZE) :
    (start recordSize).Inv tab recordSize := by
  refine ⟨⟨[], RmFile.inv_create hsize⟩, rfl, rfl, ?_, fun _ => rfl, ?_⟩
  · intro i r hr
    simp [start] at hr
  · intro k r hr
    simp [start] at hr

theorem before_push_old {h : Hist} (hlen : h.past.length = h.log.length) (file : RmFile)
    (tid : TxnId) (prevLsn : Lsn) (body : LogBody) {i : Nat} (hi : i ≤ h.log.length) :
    (h.push file tid prevLsn body).before i = h.before i := by
  rcases eq_or_lt_of_le hi with rfl | hi
  · simp [before, push, ← hlen]
  · have hi' : i < h.past.length := by omega
    simp [before, push, List.getElem?_append_left hi', List.getElem?_eq_getElem hi']

theorem before_push_new {h : Hist} (hlen : h.past.length = h.log.length) (file : RmFile)
    (tid : TxnId) (prevLsn : Lsn) (body : LogBody) :
    (h.push file tid prevLsn body).before (h.log.length + 1) = file := by
  simp [before, push, ← hlen]

theorem before_length {h : Hist} (hlen : h.past.length = h.log.length) {i : Nat}
    (hi : h.log.length ≤ i) : h.before i = h.file := by
  rw [before, List.getElem?_eq_none (by omega), Option.getD_none]

theorem Inv.push {tab : TabName} {recordSize : Nat} {h : Hist} (hi : h.Inv tab recordSize)
    {file : RmFile} {tid : TxnId} {prevLsn : Lsn} {body : LogBody} (hfile : ∃ free, file.Inv free)
    (hfwd : Forward tab recordSize h.file ⟨h.lsn, some tid, prevLsn, body⟩ file) :
    (h.push file tid prevLsn body).Inv tab recordSize := by
  refine ⟨hfile, hfwd.size, by simp [Hist.push, hi.length], hi.numbered.concat rfl, ?_, ?_⟩
  · intro p
    rw [before_push_old hi.length _ _ _ _ (Nat.zero_le _)]
    exact hi.first p
  · intro k r hr
    rcases Nat.lt_trichotomy k h.log.length with hk | hk | hk
    · rw [before_push_old hi.length _ _ _ _ hk.le, before_push_old hi.length _ _ _ _ hk]
      refine hi.forward k r ?_
      simpa [Hist.push, List.getElem?_append_left hk] using hr
    · subst hk
      rw [before_push_old hi.length _ _ _ _ le_rfl, before_push_new hi.length,
        before_length hi.length le_rfl]
      have : (⟨h.lsn, some tid, prevLsn, body⟩ : LogRecord) = r := by simpa [Hist.push] using hr
      exact this ▸ hfwd
    · rw [List.getElem?_eq_none (by simp [Hist.push]; omega)] at hr
      simp at hr

theorem inv_step {tab : TabName} {recordSize : Nat} {h h' : Hist} {e : HistEv}
    (hi : h.Inv tab recordSize) (hs : h.step tab e = some h') : h'.Inv tab recordSize := by
  obtain ⟨free, hfile⟩ := hi.file
  obtain ⟨rfl⟩ := hi.size
  have hlsn : h.log ≠ [] → 1 ≤ h.lsn := by
    intro hne
    have := List.length_pos_of_ne_nil hne
    simp only [lsn]
    lia
  cases e with
  | mark tid prevLsn commit =>
    cases Option.some.inj hs
    refine hi.push hi.file ⟨rfl, ?_, fun _ => rfl, ?_⟩
    · cases commit <;> simp
    · intro place hplace
      cases commit <;> simp [LogBody.place] at hplace
  | insert tid prevLsn buf =>
    simp only [step] at hs
    split at hs
    next => simp at hs
    next hne =>
      obtain ⟨f', rid, free', hrun, hinv, -⟩ := hfile.insertRecord buf (some h.lsn)
      simp only [hrun, Option.map_some, Option.some.injEq] at hs
      subst hs
      exact hi.push ⟨free', hinv⟩
        (RmFile.insertRecord_forward hfile hrun tab (some tid) prevLsn (hlsn hne))
  | delete tid prevLsn rid =>
    simp only [step] at hs
    split at hs
    next => simp at hs
    next hne =>
      obtain ⟨old, hold, hs⟩ := Option.bind_eq_some_iff.mp hs
      have hlive : h.file.record rid ≠ none := by simp [hold]
      obtain ⟨f', free', hrun, hinv, -⟩ := hfile.deleteRecord hlive (some h.lsn)
      simp only [hrun, Option.map_some, Option.some.injEq] at hs
      subst hs
      exact hi.push ⟨free', hinv⟩
        (RmFile.deleteRecord_forward hrun tab (some tid) prevLsn (hlsn hne))
  | update tid prevLsn rid buf =>
    simp only [step] at hs
    split at hs
    next => simp at hs
    next hne =>
      obtain ⟨old, hold, hs⟩ := Option.bind_eq_some_iff.mp hs
      have hlive : h.file.record rid ≠ none := by simp [hold]
      obtain ⟨f', hrun, hinv, -⟩ := hfile.updateRecord hlive buf (some h.lsn)
      simp only [hrun, Option.map_some, Option.some.injEq] at hs
      subst hs
      exact hi.push ⟨free, hinv⟩
        (RmFile.updateRecord_forward hrun tab (some tid) prevLsn (hlsn hne))

section Pages

variable {tab : TabName} {recordSize : Nat} {h : Hist} {p : PageNo} {page : RmPage}

theorem Inv.before_of_ge (hi : h.Inv tab recordSize) {i : Nat} (hle : h.log.length ≤ i) :
    h.before i = h.file := before_length hi.length hle

/-- A data record leaves its LSN on its page. -/
theorem Inv.lsn_after (hi : h.Inv tab recordSize) {k : Nat} {r : LogRecord} {place : LogPlace}
    (hr : h.log[k]? = some r) (hplace : r.body.place = some place) :
    ∃ page, (h.before (k + 1)).pages place.rid.pageNo = some page ∧ page.lsn = k := by
  obtain ⟨-, -, -, -, -, page, hpage, hsame, -⟩ := (hi.forward k r hr).data place hplace
  refine ⟨page, hpage, ?_⟩
  have hlsn := congrArg RmPage.lsn hsame
  have hown : page.lsn = r.lsn := hlsn.trans (RmFile.redoPage_lsn hplace _ _)
  exact hown.trans (hi.numbered k r hr)

/-- What one more record changes of page `p`, also behind the end of the log. -/
theorem Inv.next_page (hi : h.Inv tab recordSize) (i : Nat) (p : PageNo) :
    (h.before (i + 1)).pages p = (h.before i).pages p ∨
    ∃ page, (h.before (i + 1)).pages p = some page ∧ page.lsn = i := by
  cases hr : h.log[i]? with
  | none =>
    have hle : h.log.length ≤ i := List.getElem?_eq_none_iff.mp hr
    left
    rw [hi.before_of_ge hle, hi.before_of_ge (by omega)]
  | some r =>
    have hfwd := hi.forward i r hr
    cases hplace : r.body.place with
    | none =>
      left
      rw [hfwd.mark hplace]
    | some place =>
      by_cases hp : p = place.rid.pageNo
      · right
        exact hp ▸ hi.lsn_after hr hplace
      · left
        exact (hfwd.data place hplace).2.2.2.2.1 p hp

/-- Pages stay. -/
theorem Inv.pages_mono (hi : h.Inv tab recordSize) {i j : Nat} (hij : i ≤ j)
    (hp : ((h.before i).pages p).isSome) : ((h.before j).pages p).isSome := by
  induction hij with
  | refl => exact hp
  | step _ ih =>
    rcases hi.next_page _ p with heq | ⟨_, hpage, -⟩
    · rw [heq]
      exact ih
    · rw [hpage]
      rfl

/-- The LSN of a page is that of a record before. -/
theorem Inv.lsn_lt (hi : h.Inv tab recordSize) {i : Nat} (hp : (h.before i).pages p = some page) :
    page.lsn < i := by
  induction i generalizing page with
  | zero =>
    rw [hi.first p] at hp
    simp at hp
  | succ i ih =>
    rcases hi.next_page i p with heq | ⟨page', hpage, hlsn⟩
    · have := ih (heq ▸ hp)
      push_cast
      lia
    · cases Option.some.inj (hpage.symm.trans hp)
      push_cast
      lia

/-- It is not below that of any record of the page before. -/
theorem Inv.le_lsn (hi : h.Inv tab recordSize) {k i : Nat} {r : LogRecord} {place : LogPlace}
    (hr : h.log[k]? = some r) (hplace : r.body.place = some place) (hki : k < i)
    (hp : (h.before i).pages place.rid.pageNo = some page) : (k : Int) ≤ page.lsn := by
  induction i, hki using Nat.le_induction generalizing page with
  | base =>
    obtain ⟨page', hpage, hlsn⟩ := hi.lsn_after hr hplace
    cases Option.some.inj (hpage.symm.trans hp)
    exact hlsn.ge
  | succ i hle ih =>
    rcases hi.next_page i place.rid.pageNo with heq | ⟨page', hpage, hlsn⟩
    · exact ih (heq ▸ hp)
    · cases Option.some.inj (hpage.symm.trans hp)
      rw [hlsn]
      omega

end Pages

end Hist

/-- Whether `redo` of the record takes the page out of the chain. -/
def redoFull (f : RmFile) (r : LogRecord) (page : RmPage) : Bool :=
  r.body.isInsert && decide ((f.perPage : Int) ≤ (r.body.redoPage r.lsn page).numRecords)

/-- `redo` of a record in full. The release of a page does nothing, because the header that was
logged names the page already. -/
theorem RmFile.redo_eq {f : RmFile} {r : LogRecord} {place : LogPlace} {page : RmPage}
    (hplace : r.body.place = some place) (hp : f.pages place.rid.pageNo = some page)
    (hfirst : r.body.isDelete = true →
      (r.body.redoPage r.lsn page).numRecords = (f.perPage : Int) - 1 →
        place.firstFreePageNo = place.rid.pageNo) :
    f.redo r = some (RmFile.write { f with
        numPages := place.numPages
        firstFreePageNo :=
          if redoFull f r page then page.nextFreePageNo else place.firstFreePageNo }
      place.rid.pageNo { r.body.redoPage r.lsn page with
        nextFreePageNo := if redoFull f r page then RM_NO_PAGE else page.nextFreePageNo }) := by
  obtain ⟨lsn, tid, prevLsn, body⟩ := r
  cases body with
  | insert value pl =>
    cases Option.some.inj hplace
    have hrun : f.redo ⟨lsn, tid, prevLsn, .insert value place⟩ = some ((f.setHeader place).fill
        place.rid.pageNo (inserted page place.rid.slotNo value (some lsn))) := by
      simp only [RmFile.redo, RmFile.insertRedo, RmFile.setHeader, hp, Option.map_some]
    rw [hrun, RmFile.fill]
    by_cases hfull : ((f.setHeader place).perPage : Int) ≤
        (RmFile.inserted page place.rid.slotNo value (some lsn)).numRecords
    · have hf : redoFull f ⟨lsn, tid, prevLsn, .insert value place⟩ page = true :=
        decide_eq_true hfull
      rw [if_pos hfull, hf]
      rfl
    · have hf : redoFull f ⟨lsn, tid, prevLsn, .insert value place⟩ page = false :=
        decide_eq_false hfull
      rw [if_neg hfull, hf]
      rfl
  | delete value pl =>
    cases Option.some.inj hplace
    have hrun : f.redo ⟨lsn, tid, prevLsn, .delete value place⟩ = some ((f.setHeader place).unfill
        place.rid.pageNo (deleted page place.rid.slotNo (some lsn))) := by
      simp only [RmFile.redo, RmFile.deleteRedo, RmFile.setHeader, hp, Option.map_some]
    have hf : redoFull f ⟨lsn, tid, prevLsn, .delete value place⟩ page = false := rfl
    rw [hrun, RmFile.unfill, hf]
    split
    next hnum =>
      have hname : place.rid.pageNo = (f.setHeader place).firstFreePageNo := (hfirst rfl hnum).symm
      rw [RmFile.releasePageHandle, if_pos hname]
      rfl
    next => rfl
  | update old value pl =>
    cases Option.some.inj hplace
    simp only [RmFile.redo, RmFile.updateRedo, RmFile.setHeader, hp, Option.map_some]
    rfl
  | begin => simp [LogBody.place] at hplace
  | commit => simp [LogBody.place] at hplace
  | abort => simp [LogBody.place] at hplace
  | checkpoint => simp [LogBody.place] at hplace

theorem foldl_min_le (dpt : List (PageKey × Lsn)) (m : Lsn) :
    dpt.foldl (fun m e => min e.2 m) m ≤ m ∧
      ∀ e ∈ dpt, dpt.foldl (fun m e => min e.2 m) m ≤ e.2 := by
  induction dpt generalizing m with
  | nil => simp
  | cons e dpt ih =>
    obtain ⟨hm, hall⟩ := ih (min e.2 m)
    rw [List.foldl_cons]
    refine ⟨hm.trans (min_le_right _ _), fun e' he' => ?_⟩
    rcases List.mem_cons.mp he' with rfl | he'
    · exact hm.trans (min_le_left _ _)
    · exact hall e' he'

theorem firstLsn_le {dpt : List (PageKey × Lsn)} {first lsn : Lsn} {key : PageKey}
    (h : firstLsn dpt = some first) (hmem : (key, lsn) ∈ dpt) : first ≤ lsn := by
  cases dpt with
  | nil => simp at hmem
  | cons e dpt =>
    cases Option.some.inj h
    obtain ⟨hm, hall⟩ := foldl_min_le dpt e.2
    rcases List.mem_cons.mp hmem with rfl | hmem
    · exact hm
    · exact hall _ hmem

theorem Numbered.lsn_lt {log : List LogRecord} (h : Numbered log) {r : LogRecord} (hr : r ∈ log) :
    r.lsn < log.length := by
  obtain ⟨i, hi, rfl⟩ := List.mem_iff_getElem.mp hr
  rw [h i _ (List.getElem?_eq_getElem hi)]
  lia

theorem Numbered.left {pre post : List LogRecord} (h : Numbered (pre ++ post)) : Numbered pre := by
  intro i r hr
  refine h i r ?_
  rw [List.getElem?_append_left (List.getElem?_eq_some_iff.mp hr).1, hr]

/-- Without a checkpoint every data record has its page in the dirty page table, from no later
LSN on. -/
theorem exists_lookup_dpt {log : List LogRecord} (hn : Numbered log)
    (hck : ∀ r ∈ log, r.body ≠ .checkpoint) {r : LogRecord} (hr : r ∈ log) {place : LogPlace}
    (hplace : r.body.place = some place) :
    ∃ lsn ≤ r.lsn, lookup place.pageKey (analyze log).dpt = some lsn := by
  induction log using List.reverseRecOn with
  | nil => simp at hr
  | append_singleton log q ih =>
    have hq : q.lsn = log.length := hn log.length q (by simp)
    have hold : r ∈ log → ∃ lsn ≤ r.lsn, lookup place.pageKey (analyze log).dpt = some lsn :=
      fun hr => ih hn.left (fun x hx => hck x (List.mem_append_left _ hx)) hr
    have hmark : q.body.place = none → (analyzeRecord (analyze log) q).dpt = (analyze log).dpt := by
      intro hnone
      have := hck q (by simp)
      unfold analyzeRecord
      cases hb : q.body <;> simp_all [LogBody.place]
    have hdata : ∀ pl, q.body.place = some pl → (analyzeRecord (analyze log) q).dpt =
        insertNew pl.pageKey q.lsn (analyze log).dpt := by
      intro pl hpl
      unfold analyzeRecord
      cases hb : q.body <;> simp_all [LogBody.place, analyzeData]
    rw [analyze_concat]
    cases hqp : q.body.place with
    | none =>
      rw [hmark hqp]
      refine hold ?_
      rcases List.mem_append.mp hr with hr | hr
      · exact hr
      · rw [List.mem_singleton.mp hr, hqp] at hplace
        simp at hplace
    | some pl =>
      rw [hdata pl hqp, lookup_insertNew]
      rcases List.mem_append.mp hr with hr | hr
      · obtain ⟨lsn, hle, hlook⟩ := hold hr
        refine ⟨lsn, hle, ?_⟩
        split
        next hkey => rw [hkey, hlook, Option.getD_some]
        next => exact hlook
      · cases List.mem_singleton.mp hr
        cases Option.some.inj (hqp.symm.trans hplace)
        cases hlook : lookup place.pageKey (analyze log).dpt with
        | none => exact ⟨r.lsn, le_rfl, by simp⟩
        | some lsn =>
          obtain ⟨x, hx, hxl⟩ := exists_of_mem_dpt (mem_of_lookup hlook)
          have hlt := hn.left.lsn_lt hx
          have hlsn : x.lsn = lsn := hxl
          exact ⟨lsn, by rw [hq, ← hlsn]; exact hlt.le, by simp⟩

namespace Hist

/-- The file while `redo` is at LSN `k`: every page is as far as its image or record `k`,
whichever is later, but for the chain. -/
structure Sim (h : Hist) (t : PageNo → Nat) (k : Nat) (f : RmFile) : Prop where
  size : f.recordSize = h.file.recordSize
  there : ∀ p, (f.pages p).isSome = (h.file.pages p).isSome
  pages : ∀ p page, f.pages p = some page →
    page.unlinked =
      (((h.before (max (t p) k)).pages p).getD (RmPage.zero h.file.recordSize)).unlinked ∧
    page.nextFreePageNo = h.nextAfter t ((h.log.take k).filter (lacks t)) p
  untouched : (h.log.take k).filter (lacks t) = [] →
    f.numPages = h.file.numPages ∧ f.firstFreePageNo = h.file.firstFreePageNo
  header : ∀ rs r place, (h.log.take k).filter (lacks t) = rs ++ [r] → r.body.place = some place →
    f.numPages = place.numPages ∧
    f.firstFreePageNo =
      if h.fills r then h.nextAfter t rs place.rid.pageNo else place.firstFreePageNo

section Redo

variable {tab : TabName} {recordSize : Nat} {h : Hist} {t : PageNo → Nat} {k : Nat} {f : RmFile}

theorem sim_disk (h : Hist) (t : PageNo → Nat) : h.Sim t 0 (h.disk t) := by
  refine ⟨rfl, fun p => ?_, fun p page hp => ?_, fun _ => ⟨rfl, rfl⟩, ?_⟩
  · simp [disk]
  · obtain ⟨-, -, rfl⟩ := Option.map_eq_some_iff.mp hp
    simp [image, nextAfter]
  · intro rs r place heq
    simp at heq

theorem nextAfter_concat (h : Hist) (t : PageNo → Nat) (rs : List LogRecord) {r : LogRecord}
    {place : LogPlace} (hplace : r.body.place = some place) (p : PageNo) :
    h.nextAfter t (rs ++ [r]) p =
      if h.fills r = true ∧ place.rid.pageNo = p then RM_NO_PAGE else h.nextAfter t rs p := by
  by_cases hr : h.fills r = true ∧ place.rid.pageNo = p
  · simp [nextAfter, hplace, hr]
  · have hfalse : (h.fills r && decide (place.rid.pageNo = p)) = false := by
      simpa using hr
    simp [nextAfter, hplace, hr, hfalse]

/-- Record `k` leaves the other pages alone, whatever their images are. -/
theorem Inv.page_other (hi : h.Inv tab recordSize) {r : LogRecord} (hr : h.log[k]? = some r)
    {q : PageNo} (hq : ∀ place, r.body.place = some place → q ≠ place.rid.pageNo) :
    (h.before (max (t q) (k + 1))).pages q = (h.before (max (t q) k)).pages q := by
  have hfwd := hi.forward k r hr
  have hsame : (h.before (k + 1)).pages q = (h.before k).pages q := by
    cases hplace : r.body.place with
    | none => rw [hfwd.mark hplace]
    | some place => exact (hfwd.data place hplace).2.2.2.2.1 q (hq place hplace)
  rcases le_or_gt (t q) k with hle | hlt
  · rw [max_eq_right hle, max_eq_right (by omega), hsame]
  · rw [max_eq_left hlt, max_eq_left hlt.le]

theorem filter_take_succ {r : LogRecord} (hr : h.log[k]? = some r) :
    (h.log.take (k + 1)).filter (lacks t) =
      (h.log.take k).filter (lacks t) ++ if lacks t r then [r] else [] := by
  rw [List.take_add_one, hr, List.filter_append]
  rcases hb : lacks t r with _ | _ <;> simp [hb]

/-- A record that is not redone. -/
theorem Sim.skip (hi : h.Inv tab recordSize) (hs : h.Sim t k f) {r : LogRecord}
    (hr : h.log[k]? = some r) (hlacks : lacks t r = false) : h.Sim t (k + 1) f := by
  have hfilter : (h.log.take (k + 1)).filter (lacks t) = (h.log.take k).filter (lacks t) := by
    rw [filter_take_succ hr, hlacks]
    simp
  refine ⟨hs.size, hs.there, fun p page hp => ?_, ?_, ?_⟩
  · obtain ⟨hpage, hnext⟩ := hs.pages p page hp
    refine ⟨?_, by rw [hfilter, hnext]⟩
    rw [hpage]
    by_cases hq : ∀ place, r.body.place = some place → p ≠ place.rid.pageNo
    · rw [hi.page_other hr hq]
    · push Not at hq
      obtain ⟨place, hplace, rfl⟩ := hq
      have hlt : k < t place.rid.pageNo := by
        have := hi.numbered k r hr
        simp only [lacks, hplace, Option.any_some, decide_eq_false_iff_not] at hlacks
        lia
      rw [max_eq_left hlt.le, max_eq_left hlt]
  · rw [hfilter]
    exact hs.untouched
  · rw [hfilter]
    exact hs.header

theorem Inv.page_there (hi : h.Inv tab recordSize) {r : LogRecord} {place : LogPlace}
    (hr : h.log[k]? = some r) (hplace : r.body.place = some place) (hs : h.Sim t k f) :
    ∃ page, f.pages place.rid.pageNo = some page := by
  obtain ⟨page, hpage, -⟩ := hi.lsn_after hr hplace
  have hlt : k < h.log.length := (List.getElem?_eq_some_iff.mp hr).1
  have hlast := @Inv.pages_mono tab recordSize h place.rid.pageNo hi _ _ hlt (by rw [hpage]; rfl)
  rw [hi.before_of_ge le_rfl, ← hs.there] at hlast
  exact Option.isSome_iff_exists.mp hlast

/-- A page whose image has the record already. -/
theorem Sim.le_lsn (hi : h.Inv tab recordSize) (hs : h.Sim t k f) {r : LogRecord}
    {place : LogPlace} {page : RmPage} (hr : h.log[k]? = some r)
    (hplace : r.body.place = some place) (hlt : k < t place.rid.pageNo)
    (hp : f.pages place.rid.pageNo = some page) : (k : Int) ≤ page.lsn := by
  obtain ⟨first, hfirst, -⟩ := hi.lsn_after hr hplace
  obtain ⟨last, hlast⟩ := Option.isSome_iff_exists.mp
    (@Inv.pages_mono tab recordSize h place.rid.pageNo hi _ _ hlt (by rw [hfirst]; rfl))
  have hsame := (hs.pages _ _ hp).1
  rw [max_eq_left hlt.le, hlast, Option.getD_some] at hsame
  have hlsn := congrArg RmPage.lsn hsame
  have heq : page.lsn = last.lsn := hlsn
  rw [heq]
  exact hi.le_lsn hr hplace hlt hlast

/-- A page that lacks the record. -/
theorem Sim.lsn_lt (hi : h.Inv tab recordSize) (hs : h.Sim t k f) {p : PageNo} {page : RmPage}
    (hk : 1 ≤ k) (hle : t p ≤ k) (hp : f.pages p = some page) : page.lsn < k := by
  have hsame := (hs.pages _ _ hp).1
  rw [max_eq_right hle] at hsame
  have hlsn := congrArg RmPage.lsn hsame
  cases hlast : (h.before k).pages p with
  | none =>
    rw [hlast] at hlsn
    have hzero : page.lsn = 0 := hlsn
    lia
  | some last =>
    rw [hlast] at hlsn
    have heq : page.lsn = last.lsn := hlsn
    rw [heq]
    exact hi.lsn_lt hlast

/-- A record that is redone. -/
theorem Sim.redo (hi : h.Inv tab recordSize) (hs : h.Sim t k f) {r : LogRecord}
    {place : LogPlace} (hr : h.log[k]? = some r) (hplace : r.body.place = some place)
    (hle : t place.rid.pageNo ≤ k) : ∃ f', f.redo r = some f' ∧ h.Sim t (k + 1) f' := by
  obtain ⟨page, hp⟩ := hi.page_there hr hplace hs
  obtain ⟨hpage, hnext⟩ := hs.pages _ _ hp
  have hlsn : r.lsn = k := hi.numbered k r hr
  obtain ⟨-, -, hfree, hnum, -, page', hp', hsame, hrelease⟩ :=
    (hi.forward k r hr).data place hplace
  have hper : f.perPage = numRecordsPerPage recordSize := by
    rw [RmFile.perPage, hs.size, hi.size]
  -- the page that redo leaves and the one of the forward run agree but for the chain
  have hafter : (r.body.redoPage r.lsn page).unlinked = page'.unlinked := by
    rw [max_eq_right hle, hi.size] at hpage
    rw [hsame]
    exact redoPage_unlinked hpage _ _
  have hcount : (r.body.redoPage r.lsn page).numRecords = page'.numRecords := by
    have hnums := congrArg RmPage.numRecords hafter
    exact hnums
  have hfull : redoFull f r page = h.fills r := by
    have hrec : h.file.perPage = f.perPage := by rw [RmFile.perPage, RmFile.perPage, hs.size]
    have hnat : r.lsn.toNat + 1 = k + 1 := by rw [hlsn]; rfl
    unfold redoFull fills
    rw [hnat, hcount]
    cases hb : r.body with
    | insert value pl =>
      rw [hb] at hplace
      cases Option.some.inj hplace
      simp [LogBody.isInsert, hp', hrec]
    | _ => rfl
  have hrun := RmFile.redo_eq hplace hp (by
    intro hdel hone
    rw [hfree]
    exact hrelease hdel (by rw [← hcount, hone, hper]))
  rw [hfull] at hrun
  have hlacks : lacks t r = true := by
    simp only [lacks, hplace, Option.any_some, decide_eq_true_eq]
    lia
  have hfilter :
      (h.log.take (k + 1)).filter (lacks t) = (h.log.take k).filter (lacks t) ++ [r] := by
    rw [filter_take_succ hr, hlacks]
    rfl
  refine ⟨_, hrun, ⟨hs.size, fun q => ?_, fun q pg hq => ?_, fun hnil => ?_, ?_⟩⟩
  · by_cases hqp : q = place.rid.pageNo
    · subst hqp
      rw [← hs.there, hp]
      simp [RmFile.write]
    · simpa [RmFile.write, hqp] using hs.there q
  · rw [hfilter, nextAfter_concat h t _ hplace]
    by_cases hqp : q = place.rid.pageNo
    · subst hqp
      simp only [RmFile.write, Function.update_self, Option.some.injEq] at hq
      subst hq
      rw [max_eq_right (by omega), hp', Option.getD_some, ← hafter]
      refine ⟨rfl, ?_⟩
      simp [hnext]
    · simp only [RmFile.write, Function.update_of_ne hqp] at hq
      obtain ⟨hold, holdnext⟩ := hs.pages q pg hq
      rw [hi.page_other hr, hold, holdnext, if_neg (fun hc => hqp hc.2.symm)]
      · exact ⟨rfl, rfl⟩
      · intro place' hplace'
        cases Option.some.inj (hplace.symm.trans hplace')
        exact hqp
  · rw [hfilter] at hnil
    simp at hnil
  · intro rs r' place' heq hplace'
    rw [hfilter] at heq
    obtain ⟨rfl, hlast⟩ := List.append_inj' heq rfl
    cases (List.singleton_inj.mp hlast)
    cases Option.some.inj (hplace.symm.trans hplace')
    refine ⟨rfl, ?_⟩
    rw [← hnext]
    rfl

theorem Sim.round (hi : h.Inv tab recordSize) (hs : h.Sim t k f) {r : LogRecord}
    (hr : h.log[k]? = some r) {dpt : List (PageKey × Lsn)}
    (hdpt : ∀ place, r.body.place = some place → lookup place.pageKey dpt ≠ none) :
    ∃ f', redoRecord dpt k r (tabDb tab f) = some (tabDb tab f') ∧ h.Sim t (k + 1) f' := by
  unfold redoRecord
  split
  next hplace => exact ⟨f, rfl, hs.skip hi hr (by simp [lacks, hplace])⟩
  next place hplace =>
    obtain ⟨hlsn, htab, -⟩ := (hi.forward k r hr).data place hplace
    rw [hi.numbered k r hr] at hlsn
    obtain ⟨page, hp⟩ := hi.page_there hr hplace hs
    have hopen : tabDb tab f place.tableName = some f := by simp [tabDb, htab]
    simp only [hopen, Option.bind_some, if_neg (hdpt place hplace), hp]
    rcases le_or_gt (t place.rid.pageNo) k with hle | hlt
    · have hbelow := hs.lsn_lt hi (by lia) hle hp
      obtain ⟨f', hredo, hs'⟩ := hs.redo hi hr hplace hle
      refine ⟨f', ?_, hs'⟩
      rw [if_neg (not_le.mpr hbelow), hredo, Option.map_some, htab]
      congr 1
      funext x
      by_cases hx : x = tab
      · simp [tabDb, hx]
      · simp [tabDb, hx]
    · have hage := hs.le_lsn hi hr hplace hlt hp
      refine ⟨f, by rw [if_pos hage], hs.skip hi hr ?_⟩
      have := hi.numbered k r hr
      simp only [lacks, hplace, Option.any_some, decide_eq_false_iff_not]
      lia

theorem recordAt_numbered {log : List LogRecord} (hn : Numbered log) {r : LogRecord}
    (hr : log[k]? = some r) : recordAt log k = some r := by
  obtain ⟨hlt, hget⟩ := List.getElem?_eq_some_iff.mp hr
  have hsplit : log = log.take k ++ r :: log.drop (k + 1) := by
    rw [← hget, List.cons_getElem_drop_succ, List.take_append_drop]
  have hmid : recordOf log r.lsn = some r := by
    rw [hsplit] at hn ⊢
    exact hn.recordOf_mid
  rw [recordAt, ← hn k r hr, hmid, Option.some_or]

theorem Sim.loop (hi : h.Inv tab recordSize) (hs : h.Sim t k f) {dpt : List (PageKey × Lsn)}
    (hdpt : ∀ r ∈ h.log, ∀ place, r.body.place = some place → lookup place.pageKey dpt ≠ none)
    {n : Nat} (hn : k + n = h.log.length) :
    ∃ f', redoLoop h.log dpt n k (tabDb tab f) = some (tabDb tab f') ∧
      h.Sim t h.log.length f' := by
  induction n generalizing k f with
  | zero =>
    rw [Nat.add_zero] at hn
    exact ⟨f, rfl, hn ▸ hs⟩
  | succ n ih =>
    have hlt : k < h.log.length := by omega
    have hr : h.log[k]? = some h.log[k] := List.getElem?_eq_getElem hlt
    obtain ⟨f₁, hround, hs₁⟩ := hs.round hi hr (hdpt _ (List.getElem_mem hlt))
    obtain ⟨f', hloop, hs'⟩ := ih hs₁ (by omega)
    refine ⟨f', ?_, hs'⟩
    simp only [redoLoop, recordAt_numbered hi.numbered hr, Option.bind_some, hround]
    rw [← hloop]
    rfl

/-- Before the first data record nothing is to be done. -/
theorem Sim.marks (hi : h.Inv tab recordSize) (hk : k ≤ h.log.length)
    (hnone : ∀ i r, i < k → h.log[i]? = some r → r.body.place = none) :
    h.Sim t k (h.disk t) := by
  induction k with
  | zero => exact sim_disk h t
  | succ k ih =>
    have hr : h.log[k]? = some h.log[k] := List.getElem?_eq_getElem hk
    have hmark := hnone k _ (Nat.lt_succ_self k) hr
    have hs := ih (by omega) fun i r hlt => hnone i r (by omega)
    exact hs.skip hi hr (by simp [lacks, hmark])

/-- `redo` gets to the end of the log, wherever it starts. -/
theorem Inv.redo (hi : h.Inv tab recordSize) (t : PageNo → Nat) :
    ∃ f, Grmdb.redo (analyze h.log) h.log (tabDb tab (h.disk t)) = some (tabDb tab f) ∧
      h.Sim t h.log.length f := by
  have hck : ∀ r ∈ h.log, r.body ≠ .checkpoint := by
    intro r hr
    obtain ⟨k, hk⟩ := List.mem_iff_getElem?.mp hr
    exact (hi.forward k r hk).body
  have hdpt : ∀ r ∈ h.log, ∀ place, r.body.place = some place →
      ∃ lsn ≤ r.lsn, lookup place.pageKey (analyze h.log).dpt = some lsn :=
    fun r hr place hplace => exists_lookup_dpt hi.numbered hck hr hplace
  unfold Grmdb.redo
  cases hfirst : firstLsn (analyze h.log).dpt with
  | none =>
    refine ⟨h.disk t, rfl, Sim.marks hi le_rfl fun i r _ hr => ?_⟩
    cases hplace : r.body.place with
    | none => rfl
    | some place =>
      obtain ⟨lsn, -, hlook⟩ := hdpt r (List.mem_of_getElem? hr) place hplace
      cases hd : (analyze h.log).dpt with
      | nil =>
        rw [hd] at hlook
        simp at hlook
      | cons e dpt =>
        rw [hd] at hfirst
        simp [firstLsn] at hfirst
  | some lsn =>
    obtain ⟨e, he, rfl⟩ := exists_firstLsn hfirst
    obtain ⟨q, hq, hqe⟩ := exists_of_mem_dpt he
    obtain ⟨k, hk, hkq⟩ := List.mem_iff_getElem.mp hq
    have hqk : q.lsn = k := hi.numbered k q (by rw [List.getElem?_eq_getElem hk, hkq])
    have hmarks : h.Sim t k (h.disk t) := by
      refine Sim.marks hi hk.le fun i r hik hr => ?_
      cases hplace : r.body.place with
      | none => rfl
      | some place =>
        obtain ⟨lsn, hle, hlook⟩ := hdpt r (List.mem_of_getElem? hr) place hplace
        have hge := firstLsn_le hfirst (mem_of_lookup hlook)
        have := hi.numbered i r hr
        exfalso
        lia
    have hlast : (analyze h.log).lastLsn = h.log.length - 1 := by
      obtain ⟨pre, r, hsplit⟩ := (List.eq_nil_or_concat h.log).resolve_left (List.ne_nil_of_mem hq)
      rw [List.concat_eq_append] at hsplit
      have hr := hi.numbered pre.length r (by rw [hsplit]; simp)
      rw [hsplit, analyze_concat, analyzeRecord_lastLsn, hr]
      simp
    have hcount : ((analyze h.log).lastLsn + 1 - e.2).toNat = h.log.length - k := by
      rw [hlast, ← hqe, hqk]
      omega
    simp only [hcount]
    rw [← hqe, hqk]
    refine hmarks.loop hi (fun r hr place hplace => ?_) (by omega)
    obtain ⟨lsn, -, hlook⟩ := hdpt r hr place hplace
    simp [hlook]

/-- At the end of the log only the chain is in question. -/
theorem Sim.rebuilt_iff (hi : h.Inv tab recordSize) (hs : h.Sim t h.log.length f) :
    Rebuilt f h.file ↔ h.ChainKept t := by
  have hredone : (h.log.take h.log.length).filter (lacks t) = h.redone t := by
    rw [List.take_length]
    rfl
  have hpage : ∀ p page page', f.pages p = some page → h.file.pages p = some page' →
      page.unlinked = page'.unlinked ∧ page.nextFreePageNo = h.nextAfter t (h.redone t) p := by
    intro p page page' hp hp'
    obtain ⟨hsame, hnext⟩ := hs.pages p page hp
    rw [hi.before_of_ge (le_max_right _ _), hp', Option.getD_some] at hsame
    exact ⟨hsame, hredone ▸ hnext⟩
  constructor
  · intro hb
    refine ⟨fun p page' hp' => ?_, fun rs r place heq hplace => ?_⟩
    · obtain ⟨page, hp⟩ := Option.isSome_iff_exists.mp ((hs.there p).trans (by rw [hp']; rfl))
      rw [← (hpage p page page' hp hp').2]
      exact ((hb.pages p).2 page page' hp hp').nextFreePageNo
    · obtain ⟨hnum, hfree⟩ := hs.header rs r place (hredone.trans heq) hplace
      exact ⟨hnum.symm.trans hb.numPages, hfree.symm.trans hb.firstFreePageNo⟩
  · intro hc
    have hheader : f.numPages = h.file.numPages ∧ f.firstFreePageNo = h.file.firstFreePageNo := by
      rcases List.eq_nil_or_concat (h.redone t) with hnil | ⟨rs, r, heq⟩
      · exact hs.untouched (hredone.trans hnil)
      · rw [List.concat_eq_append] at heq
        have hlacks : lacks t r = true := by
          have hmem : r ∈ h.redone t := by simp [heq]
          exact (List.mem_filter.mp hmem).2
        obtain ⟨place, hplace, -⟩ := (Option.any_eq_true _ _).mp hlacks
        obtain ⟨hnum, hfree⟩ := hs.header rs r place (hredone.trans heq) hplace
        obtain ⟨hnum', hfree'⟩ := hc.header rs r place heq hplace
        exact ⟨hnum.trans hnum', hfree.trans hfree'⟩
    refine ⟨hheader.1, hheader.2, fun p => ⟨hs.there p, fun page page' hp hp' => ?_⟩⟩
    obtain ⟨hsame, hnext⟩ := hpage p page page' hp hp'
    have hbits := congrArg RmPage.bitmap hsame
    have hnums := congrArg RmPage.numRecords hsame
    have hslots := congrArg RmPage.slots hsame
    exact ⟨hbits, hnums, hnext.trans (hc.pages p page' hp'), fun i _ => congrFun hslots i⟩

end Redo

end Hist

/-- `analyze` and `redo` run through on every choice of flushed images, and they rebuild the file
exactly when the choice keeps the chain of free pages. -/
theorem redo_rebuilds_iff {recordSize : Nat} (hsize : recordSize ≤ RM_MAX_RECORD_SIZE)
    {tab : TabName} {tr : List HistEv} {h : Hist}
    (hrun : run (Hist.step tab) (Hist.start recordSize) tr = some h) (t : PageNo → Nat) :
    ∃ f, redo (analyze h.log) h.log (tabDb tab (h.disk t)) = some (tabDb tab f) ∧
      (Rebuilt f h.file ↔ h.ChainKept t) := by
  have hi : h.Inv tab recordSize :=
    run_invariant_all (fun _ _ _ hi hs => Hist.inv_step hi hs) (Hist.inv_start tab hsize) hrun
  obtain ⟨f, hredo, hs⟩ := hi.redo t
  exact ⟨f, hredo, hs.rebuilt_iff hi⟩

/-- Three rows are inserted, one of them is deleted and one updated. -/
def rowTrace : List HistEv :=
  [.mark 0 (-1) false, .insert 0 0 [7, 7, 7, 7], .insert 0 1 [8, 8, 8, 8], .insert 0 2 [9, 9, 9, 9],
    .delete 0 3 ⟨1, 1⟩, .update 0 4 ⟨1, 2⟩ [5, 5, 5, 5], .mark 0 5 true]

/-- Of the page of the rows the image with the first two is on disk. -/
theorem redo_rebuilds_iff_stale : ∃ h f,
    run (Hist.step "t") (Hist.start 4) rowTrace = some h ∧ (h.redone fun _ => 3).length = 3 ∧
    redo (analyze h.log) h.log (tabDb "t" (h.disk fun _ => 3)) = some (tabDb "t" f) ∧
    Rebuilt f h.file := by
  have hcheck : ((run (Hist.step "t") (Hist.start 4) rowTrace).any fun h =>
      decide ((h.redone fun _ => 3).length = 3) && decide (h.file.numPages = 2) &&
        (h.file.pages 1).all (fun page =>
          decide (h.nextAfter (fun _ => 3) (h.redone fun _ => 3) 1 = page.nextFreePageNo)) &&
        (h.redone fun _ => 3).getLast?.all fun r => r.body.place.all fun place =>
          decide (place.numPages = h.file.numPages ∧
            (if h.fills r then h.nextAfter (fun _ => 3) (h.redone fun _ => 3).dropLast
              place.rid.pageNo else place.firstFreePageNo) = h.file.firstFreePageNo)) = true := by
    decide +kernel
  obtain ⟨h, hrun, hcheck⟩ := (Option.any_eq_true _ _).mp hcheck
  simp only [Bool.and_eq_true, decide_eq_true_eq, Option.all_eq_true] at hcheck
  obtain ⟨⟨⟨hthree, htwo⟩, hpage⟩, hlast⟩ := hcheck
  obtain ⟨f, hredo, hiff⟩ := redo_rebuilds_iff (by decide) hrun fun _ => 3
  have hi : h.Inv "t" 4 :=
    run_invariant_all (fun _ _ _ hi hs => Hist.inv_step hi hs) (Hist.inv_start "t" (by decide)) hrun
  refine ⟨h, f, hrun, hthree, hredo, hiff.mpr ⟨fun p page hp => ?_, fun rs r place heq hplace => ?_⟩⟩
  · have hone : p = 1 := by
      obtain ⟨free, hfile⟩ := hi.file
      have hrange := (hfile.toChained.pages_iff p).mp ⟨page, hp⟩
      lia
    subst hone
    exact hpage page hp
  · have hr := hlast r (by simp [heq]) place hplace
    rwa [heq, List.dropLast_concat] at hr

/-- One row is inserted, and of its page only the zeros of `new_page` are on disk: the page comes
back with the header page as the next in the chain. -/
theorem not_rebuilt_unflushed : ∃ h f,
    run (Hist.step "t") (Hist.start 4) [.mark 0 (-1) false, .insert 0 0 [7, 7, 7, 7]] = some h ∧
    redo (analyze h.log) h.log (tabDb "t" (h.disk fun _ => 0)) = some (tabDb "t" f) ∧
    ¬ Rebuilt f h.file := by
  obtain ⟨h, hrun⟩ := Option.isSome_iff_exists.mp (show (run (Hist.step "t") (Hist.start 4)
    [.mark 0 (-1) false, .insert 0 0 [7, 7, 7, 7]]).isSome from by decide +kernel)
  have hi : h.Inv "t" 4 :=
    run_invariant_all (fun _ _ _ hi hs => Hist.inv_step hi hs) (Hist.inv_start "t" (by decide)) hrun
  obtain ⟨f, hredo, -⟩ := hi.redo fun _ => 0
  refine ⟨h, f, hrun, hredo, fun hb => ?_⟩
  have hnext : ((run (Hist.step "t") (Hist.start 4)
      [.mark 0 (-1) false, .insert 0 0 [7, 7, 7, 7]]).bind fun h =>
      (redo (analyze h.log) h.log (tabDb "t" (h.disk fun _ => 0))).bind fun db =>
        (db.page ("t", 1)).map RmPage.nextFreePageNo) = some 0 := by decide +kernel
  have hnext' : ((run (Hist.step "t") (Hist.start 4)
      [.mark 0 (-1) false, .insert 0 0 [7, 7, 7, 7]]).bind fun h =>
      (h.file.pages 1).map RmPage.nextFreePageNo) = some (-1) := by decide +kernel
  simp only [hrun, hredo, Option.bind_some, Db.page, tabDb, if_pos] at hnext hnext'
  obtain ⟨page, hp, hzero⟩ := Option.map_eq_some_iff.mp hnext
  obtain ⟨page', hp', hnone⟩ := Option.map_eq_some_iff.mp hnext'
  have := ((hb.pages 1).2 page page' hp hp').nextFreePageNo
  rw [hzero, hnone] at this
  exact absurd this (by decide)

end Grmdb
