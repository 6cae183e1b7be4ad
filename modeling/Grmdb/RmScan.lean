import Grmdb.RecordMap
import Grmdb.DiskManager

namespace Grmdb

/-- `Bitmap::next_bit`. -/
def nextBit (bit : Bool) (bm : Int → Bool) (maxN : Nat) (curr : Int) : Int :=
  if curr + 1 < maxN then nextBitLoop bit bm (maxN - (curr + 1)).toNat (curr + 1) else maxN

/-- `rid_` and `end_page_no_` of a scan. -/
structure RmScan where
  rid : Rid
  endPageNo : PageNo
  deriving DecidableEq

def RmScan.isEnd (c : RmScan) : Bool := c.endPageNo = INVALID_PAGE_ID ∨ c.endPageNo < c.rid.pageNo

/-- The order in which a scan goes through a file. -/
def Rid.before (r r' : Rid) : Prop :=
  r.pageNo < r'.pageNo ∨ r.pageNo = r'.pageNo ∧ r.slotNo < r'.slotNo

namespace RmFile

/-- The first loop of the constructor, with `left` pages to look at from `p` on. -/
def scanBegin (f : RmFile) : Nat → PageNo → Rid → Option Rid
  | 0, _, rid => some rid
  | left + 1, p, rid =>
    (f.pages p).bind fun page =>
      let j := nextBit true page.bitmap f.perPage (-1)
      if j ≠ f.perPage then some ⟨p, j⟩
      else
        let rid := if p = f.numPages - 1 then ⟨p, j⟩ else rid
        f.scanBegin left (p + 1) ⟨rid.pageNo + 1, -1⟩

/-- Its second loop, from the last page down. -/
def scanEndPage (f : RmFile) : Nat → Option PageNo
  | 0 => some INVALID_PAGE_ID
  | i + 1 =>
    (f.pages (i + 1 : Int)).bind fun page =>
      if nextBit true page.bitmap f.perPage (-1) ≠ f.perPage then some (i + 1 : Int)
      else f.scanEndPage i

/-- `rid₀` is what stands in `rid_` before it is set. -/
def openScan (f : RmFile) (rid₀ : Rid) : Option RmScan :=
  (f.scanBegin (f.numPages - 1).toNat 1 rid₀).bind fun rid =>
    (f.scanEndPage (f.numPages - 1).toNat).map fun endPageNo => ⟨rid, endPageNo⟩

/-- The loop of `next`, with `left` pages up to the last one. -/
def scanNextLoop (f : RmFile) : Nat → Rid → Option Rid
  | 0, rid => some rid
  | left + 1, rid =>
    (f.pages rid.pageNo).bind fun page =>
      let j := nextBit true page.bitmap f.perPage rid.slotNo
      if j ≠ f.perPage then some ⟨rid.pageNo, j⟩ else f.scanNextLoop left ⟨rid.pageNo + 1, -1⟩

def scanNext (f : RmFile) (c : RmScan) : Option RmScan :=
  (f.scanNextLoop (c.endPageNo - c.rid.pageNo + 1).toNat c.rid).map fun rid => { c with rid := rid }

/-- The records of a page in `left` slots from `i` on. -/
def pageRows (p : PageNo) (page : RmPage) : Nat → Int → List (Rid × Bytes)
  | 0, _ => []
  | left + 1, i =>
    if page.bitmap i then (⟨p, i⟩, page.slots i) :: pageRows p page left (i + 1)
    else pageRows p page left (i + 1)

/-- The records of `left` pages from `p` on. -/
def rowsFrom (f : RmFile) : Nat → PageNo → List (Rid × Bytes)
  | 0, _ => []
  | left + 1, p =>
    (match f.pages p with
      | some page => pageRows p page f.perPage 0
      | none => []) ++ f.rowsFrom left (p + 1)

/-- The records of a file with the places they have in it. -/
def rows (f : RmFile) : List (Rid × Bytes) := f.rowsFrom (f.numPages - 1).toNat 1

/-- The pages of a file are numbered from one on. -/
structure Paged (f : RmFile) : Prop where
  pages_iff : ∀ p, (∃ page, f.pages p = some page) ↔ 1 ≤ p ∧ p < f.numPages
  pages_pos : 1 ≤ f.numPages

theorem Chained.paged {f : RmFile} {free : List PageNo} (h : Chained f free) : Paged f :=
  ⟨h.pages_iff, h.pages_pos⟩

section Page

variable {p : PageNo} {page : RmPage} {left : Nat} {i : Int} {rid : Rid} {rec : Bytes}

theorem pageRows_succ (p : PageNo) (page : RmPage) (left : Nat) (i : Int) :
    pageRows p page (left + 1) i =
      if page.bitmap i = true then (⟨p, i⟩, page.slots i) :: pageRows p page left (i + 1)
      else pageRows p page left (i + 1) := rfl

theorem mem_pageRows : (rid, rec) ∈ pageRows p page left i ↔
    rid.pageNo = p ∧ i ≤ rid.slotNo ∧ rid.slotNo < i + left ∧ page.bitmap rid.slotNo = true ∧
      page.slots rid.slotNo = rec := by
  induction left generalizing i with
  | zero =>
    simp only [pageRows, List.not_mem_nil, false_iff]
    rintro ⟨-, hlo, hhi, -⟩
    simp only [Nat.cast_zero] at hhi
    omega
  | succ left ih =>
    have hsplit : (i + 1 ≤ rid.slotNo ∧ rid.slotNo < i + 1 + left) ∨ rid.slotNo = i ↔
        i ≤ rid.slotNo ∧ rid.slotNo < i + (left + 1 : Nat) := by
      push_cast
      omega
    obtain ⟨q, j⟩ := rid
    unfold pageRows
    split
    next hbit =>
      rw [List.mem_cons, ih, Prod.mk.injEq, Rid.mk.injEq]
      dsimp only at hsplit ⊢
      constructor
      · rintro (⟨⟨rfl, rfl⟩, rfl⟩ | ⟨hq, hlo, hhi, hset, hrec⟩)
        · have hin := hsplit.mp (Or.inr rfl)
          exact ⟨rfl, hin.1, hin.2, hbit, rfl⟩
        · have hin := hsplit.mp (Or.inl ⟨hlo, hhi⟩)
          exact ⟨hq, hin.1, hin.2, hset, hrec⟩
      · rintro ⟨hq, hlo, hhi, hset, hrec⟩
        rcases hsplit.mpr ⟨hlo, hhi⟩ with hin | rfl
        · exact Or.inr ⟨hq, hin.1, hin.2, hset, hrec⟩
        · exact Or.inl ⟨⟨hq, rfl⟩, hrec.symm⟩
    next hbit =>
      rw [ih]
      dsimp only at hsplit ⊢
      constructor
      · rintro ⟨hq, hlo, hhi, hset, hrec⟩
        have hin := hsplit.mp (Or.inl ⟨hlo, hhi⟩)
        exact ⟨hq, hin.1, hin.2, hset, hrec⟩
      · rintro ⟨hq, hlo, hhi, hset, hrec⟩
        rcases hsplit.mpr ⟨hlo, hhi⟩ with hin | rfl
        · exact ⟨hq, hin.1, hin.2, hset, hrec⟩
        · exact absurd hset hbit

theorem pageRows_pairwise (p : PageNo) (page : RmPage) (left : Nat) (i : Int) :
    (pageRows p page left i).Pairwise fun a b => a.1.before b.1 := by
  induction left generalizing i with
  | zero => exact List.Pairwise.nil
  | succ left ih =>
    unfold pageRows
    split
    next =>
      refine List.pairwise_cons.mpr ⟨fun row hrow => ?_, ih (i + 1)⟩
      obtain ⟨hq, hlo, -⟩ := mem_pageRows.mp hrow
      exact Or.inr ⟨hq.symm, by dsimp only; omega⟩
    next => exact ih (i + 1)

/-- The next set bit is the next record of the page. -/
theorem pageRows_nextBitLoop (p : PageNo) (page : RmPage) (left : Nat) (i : Int) :
    let j := nextBitLoop true page.bitmap left i
    pageRows p page left i =
      if j < i + left then
        (⟨p, j⟩, page.slots j) :: pageRows p page (i + left - (j + 1)).toNat (j + 1)
      else [] := by
  induction left generalizing i with
  | zero => simp [pageRows, nextBitLoop]
  | succ left ih =>
    have hih := ih (i + 1)
    dsimp only at hih ⊢
    rw [nextBitLoop, pageRows_succ]
    cases hbit : page.bitmap i with
    | true =>
      have hleft : (i + (left + 1 : Nat) - (i + 1)).toNat = left := by
        push_cast
        omega
      rw [if_pos rfl, if_pos rfl, hleft, if_pos (by push_cast; omega)]
    | false =>
      have hassoc : i + (left + 1 : Nat) = i + 1 + left := by
        push_cast
        omega
      rw [hassoc, if_neg Bool.false_ne_true, if_neg Bool.false_ne_true]
      exact hih

/-- Behind the slot `curr` of a page. -/
theorem pageRows_nextBit (p : PageNo) (page : RmPage) {n : Nat} {curr : Int}
    (hn : curr < n) :
    let j := nextBit true page.bitmap n curr
    (j = n ∧ pageRows p page (n - (curr + 1)).toNat (curr + 1) = []) ∨
      (j ≠ n ∧ curr < j ∧ j < n ∧ page.bitmap j = true ∧
        pageRows p page (n - (curr + 1)).toNat (curr + 1) =
          (⟨p, j⟩, page.slots j) :: pageRows p page (n - (j + 1)).toNat (j + 1)) := by
  unfold nextBit
  split
  next hlt =>
    have hend : curr + 1 + ((n - (curr + 1)).toNat : Int) = n := by omega
    have hrows := pageRows_nextBitLoop p page (n - (curr + 1)).toNat (curr + 1)
    obtain ⟨low, high, -, hit⟩ :=
      nextBitLoop_spec true page.bitmap (n - (curr + 1)).toNat (curr + 1)
    dsimp only at hrows ⊢
    rw [hend] at hrows high hit
    split at hrows
    next hj => exact Or.inr ⟨by omega, by omega, hj, hit hj, hrows⟩
    next hj => exact Or.inl ⟨by omega, hrows⟩
  next hge =>
    have hnone : (n - (curr + 1)).toNat = 0 := by omega
    refine Or.inl ⟨rfl, ?_⟩
    rw [hnone]
    rfl

end Page

section File

variable {f : RmFile} {left : Nat} {p : PageNo} {rid : Rid} {rec : Bytes}

theorem record_eq_some {page : RmPage} (hp : f.pages rid.pageNo = some page) :
    f.record rid = some rec ↔ page.bitmap rid.slotNo = true ∧ page.slots rid.slotNo = rec := by
  rw [record, hp, Option.bind_some]
  split
  next hbit => simp [hbit]
  next hbit => simp [hbit]

theorem mem_rowsFrom : (rid, rec) ∈ f.rowsFrom left p ↔
    p ≤ rid.pageNo ∧ rid.pageNo < p + left ∧ 0 ≤ rid.slotNo ∧ rid.slotNo < f.perPage ∧
      f.record rid = some rec := by
  induction left generalizing p with
  | zero =>
    simp only [rowsFrom, List.not_mem_nil, false_iff]
    rintro ⟨hlo, hhi, -⟩
    simp only [Nat.cast_zero] at hhi
    lia
  | succ left ih =>
    rw [rowsFrom, List.mem_append, ih]
    constructor
    · rintro (hhere | ⟨hlo, hhi, hrest⟩)
      · split at hhere
        next page hp =>
          obtain ⟨rfl, hlo, hhi, hset, hrec⟩ := mem_pageRows.mp hhere
          refine ⟨le_refl _, by push_cast; lia, hlo, by simpa using hhi, ?_⟩
          exact (record_eq_some hp).mpr ⟨hset, hrec⟩
        next => cases hhere
      · exact ⟨by lia, by push_cast; lia, hrest⟩
    · rintro ⟨hlo, hhi, hslot, hslot', hrec⟩
      by_cases hp : rid.pageNo = p
      · left
        subst hp
        obtain ⟨page, hpage, -⟩ := Option.bind_eq_some_iff.mp hrec
        rw [hpage]
        obtain ⟨hset, hbytes⟩ := (record_eq_some hpage).mp hrec
        exact mem_pageRows.mpr ⟨rfl, hslot, by simpa using hslot', hset, hbytes⟩
      · right
        push_cast at hhi
        exact ⟨by lia, by lia, hslot, hslot', hrec⟩

theorem rowsFrom_pairwise (f : RmFile) (left : Nat) (p : PageNo) :
    (f.rowsFrom left p).Pairwise fun a b => a.1.before b.1 := by
  induction left generalizing p with
  | zero => exact List.Pairwise.nil
  | succ left ih =>
    rw [rowsFrom]
    refine List.pairwise_append.mpr ⟨?_, ih (p + 1), fun row hrow row' hrow' => ?_⟩
    · split
      next page _ => exact pageRows_pairwise p page f.perPage 0
      next => exact List.Pairwise.nil
    · obtain ⟨hlo, -⟩ := mem_rowsFrom.mp hrow'
      split at hrow
      next page _ =>
        obtain ⟨hq, -⟩ := mem_pageRows.mp hrow
        exact Or.inl (by lia)
      next => cases hrow

/-- The records of the file are those that it has in its slots. -/
theorem mem_rows (h : Paged f) : (rid, rec) ∈ f.rows ↔
    0 ≤ rid.slotNo ∧ rid.slotNo < f.perPage ∧ f.record rid = some rec := by
  rw [rows, mem_rowsFrom]
  have hpos := h.pages_pos
  constructor
  · rintro ⟨-, -, hrest⟩
    exact hrest
  · rintro ⟨hlo, hhi, hrec⟩
    obtain ⟨page, hp, -⟩ := Option.bind_eq_some_iff.mp hrec
    obtain ⟨hfirst, hlast⟩ := (h.pages_iff rid.pageNo).mp ⟨page, hp⟩
    exact ⟨hfirst, by lia, hlo, hhi, hrec⟩

theorem rows_nodup (f : RmFile) : (f.rows.map Prod.fst).Nodup := by
  refine List.pairwise_map.mpr ((rowsFrom_pairwise f _ 1).imp fun {a b} hbefore heq => ?_)
  rcases hbefore with hpage | ⟨-, hslot⟩
  · rw [heq] at hpage
    exact lt_irrefl _ hpage
  · rw [heq] at hslot
    exact lt_irrefl _ hslot

/-- The records behind `rid`. -/
def restRows (f : RmFile) (rid : Rid) : List (Rid × Bytes) :=
  (match f.pages rid.pageNo with
    | some page => pageRows rid.pageNo page (f.perPage - (rid.slotNo + 1)).toNat (rid.slotNo + 1)
    | none => []) ++ f.rowsFrom (f.numPages - 1 - rid.pageNo).toNat (rid.pageNo + 1)

/-- A place in the file from which a scan goes on. -/
structure Inside (f : RmFile) (endPageNo : PageNo) (rid : Rid) : Prop where
  page : 1 ≤ rid.pageNo ∧ rid.pageNo ≤ endPageNo
  slot : -1 ≤ rid.slotNo ∧ rid.slotNo < f.perPage

theorem restRows_of_page {page : RmPage} (hp : f.pages rid.pageNo = some page) :
    f.restRows rid =
      pageRows rid.pageNo page (f.perPage - (rid.slotNo + 1)).toNat (rid.slotNo + 1) ++
        f.rowsFrom (f.numPages - 1 - rid.pageNo).toNat (rid.pageNo + 1) := by
  rw [restRows, hp]

theorem rowsFrom_of_page {page : RmPage} (hp : f.pages p = some page) :
    f.rowsFrom (left + 1) p = pageRows p page f.perPage 0 ++ f.rowsFrom left (p + 1) := by
  rw [rowsFrom, hp]

/-- The first set bit of a page is its first record. -/
theorem pageRows_firstBit (p : PageNo) (page : RmPage) (n : Nat) :
    let j := nextBit true page.bitmap n (-1)
    (j = n ∧ pageRows p page n 0 = []) ∨
      (j ≠ n ∧ 0 ≤ j ∧ j < n ∧ page.bitmap j = true ∧
        pageRows p page n 0 =
          (⟨p, j⟩, page.slots j) :: pageRows p page (n - (j + 1)).toNat (j + 1)) := by
  have hbits := @pageRows_nextBit p page n (-1) (by omega)
  have hfrom : (n - (-1 + 1) : Int).toNat = n := by omega
  dsimp only at hbits ⊢
  rw [hfrom] at hbits
  rcases hbits with ⟨hj, hrows⟩ | ⟨hj, hlt, hlt', hset, hrows⟩
  · exact Or.inl ⟨hj, hrows⟩
  · exact Or.inr ⟨hj, by omega, hlt', hset, hrows⟩

/-- A whole page before the first slot. -/
theorem restRows_first {q : PageNo} (hlast : q < f.numPages) :
    f.restRows ⟨q, -1⟩ = f.rowsFrom (f.numPages - q).toNat q := by
  have hsucc : (f.numPages - q).toNat = (f.numPages - 1 - q).toNat + 1 := by lia
  rw [hsucc, rowsFrom, restRows]
  simp

/-- `next` goes to the next record, or behind the last page with one. -/
theorem scanNextLoop_spec (h : Paged f) {endPageNo : PageNo} (hend : endPageNo < f.numPages)
    (hnone : f.rowsFrom (f.numPages - 1 - endPageNo).toNat (endPageNo + 1) = [])
    (hrid : f.Inside endPageNo rid) (hleft : (endPageNo - rid.pageNo + 1).toNat = left) :
    ∃ rid', f.scanNextLoop left rid = some rid' ∧
      ((f.restRows rid = [] ∧ endPageNo < rid'.pageNo) ∨
        ∃ rec, f.restRows rid = (rid', rec) :: f.restRows rid' ∧ f.Inside endPageNo rid' ∧
          f.getRecord rid' = some rec) := by
  induction left generalizing rid with
  | zero =>
    have hpage := hrid.page
    lia
  | succ left ih =>
    have hpage := hrid.page
    obtain ⟨page, hp⟩ := (h.pages_iff rid.pageNo).mpr ⟨hpage.1, by lia⟩
    rw [scanNextLoop, hp, Option.bind_some]
    rcases pageRows_nextBit rid.pageNo page hrid.slot.2 with
      ⟨hj, hrows⟩ | ⟨hj, hlt, hlt', hset, hrows⟩
    · rw [hj, if_neg (by simp)]
      have hrest : f.restRows rid = f.rowsFrom (f.numPages - 1 - rid.pageNo).toNat
          (rid.pageNo + 1) := by
        rw [restRows_of_page hp, hrows, List.nil_append]
      by_cases hlast : rid.pageNo = endPageNo
      · have hzero : left = 0 := by lia
        subst hzero
        refine ⟨⟨rid.pageNo + 1, -1⟩, rfl, Or.inl ⟨?_, by dsimp only; lia⟩⟩
        rw [hrest, hlast, hnone]
      · have hfirst := @restRows_first f (rid.pageNo + 1) (by lia)
        have hsame : (f.numPages - (rid.pageNo + 1)).toNat =
            (f.numPages - 1 - rid.pageNo).toNat := by lia
        rw [hrest, ← hsame, ← hfirst]
        have hslot := hrid.slot
        exact ih ⟨⟨by dsimp only; lia, by dsimp only; lia⟩, le_refl _, by dsimp only; lia⟩
          (by dsimp only; lia)
    · rw [if_pos hj]
      have hslot := hrid.slot
      refine ⟨_, rfl, Or.inr ⟨page.slots (nextBit true page.bitmap f.perPage rid.slotNo), ?_,
        ⟨hpage, by dsimp only; omega, hlt'⟩, ?_⟩⟩
      · have hnext := @restRows_of_page f
          ⟨rid.pageNo, nextBit true page.bitmap f.perPage rid.slotNo⟩ page hp
        rw [restRows_of_page hp, hrows, hnext]
        rfl
      · rw [getRecord, hp]
        rfl

/-- The first loop of the constructor comes to the first record. -/
theorem scanBegin_spec (h : Paged f) (hp : 1 ≤ p) (hleft : p + left = f.numPages) (rid₀ : Rid) :
    ∃ rid, f.scanBegin left p rid₀ = some rid ∧
      (f.rowsFrom left p = [] ∨
        ∃ rec, f.rowsFrom left p = (rid, rec) :: f.restRows rid ∧ 1 ≤ rid.pageNo ∧
          -1 ≤ rid.slotNo ∧ rid.slotNo < f.perPage ∧ f.getRecord rid = some rec) := by
  induction left generalizing p rid₀ with
  | zero => exact ⟨rid₀, rfl, Or.inl rfl⟩
  | succ left ih =>
    push_cast at hleft
    obtain ⟨page, hpage⟩ := (h.pages_iff p).mpr ⟨hp, by lia⟩
    have hleft' : (f.numPages - 1 - p).toNat = left := by lia
    rw [scanBegin, rowsFrom_of_page hpage, hpage, Option.bind_some]
    dsimp only
    rcases pageRows_firstBit p page f.perPage with ⟨hj, hrows⟩ | ⟨hj, hlt, hlt', hset, hrows⟩
    · rw [hj, if_neg (by simp), hrows, List.nil_append]
      exact ih (by lia) (by lia) _
    · rw [if_pos hj]
      refine ⟨_, rfl, Or.inr ⟨page.slots (nextBit true page.bitmap f.perPage (-1)), ?_, hp,
        by dsimp only; omega, hlt', ?_⟩⟩
      · rw [hrows, @restRows_of_page f ⟨p, _⟩ page hpage, hleft']
        rfl
      · rw [getRecord, hpage]
        rfl

/-- The second loop comes to the last page with a record. -/
theorem scanEndPage_spec (h : Paged f) {n : Nat} (hn : (n : Int) < f.numPages)
    (hnone : f.rowsFrom (f.numPages - 1 - n).toNat (n + 1 : Int) = []) :
    ∃ endPageNo, f.scanEndPage n = some endPageNo ∧
      ((endPageNo = INVALID_PAGE_ID ∧ f.rows = []) ∨
        1 ≤ endPageNo ∧ endPageNo < f.numPages ∧ f.rows ≠ [] ∧
          f.rowsFrom (f.numPages - 1 - endPageNo).toNat (endPageNo + 1) = []) := by
  induction n with
  | zero =>
    refine ⟨INVALID_PAGE_ID, rfl, Or.inl ⟨rfl, ?_⟩⟩
    rw [rows]
    simpa using hnone
  | succ n ih =>
    push_cast at hn hnone
    obtain ⟨page, hp⟩ := (h.pages_iff (n + 1 : Int)).mpr ⟨by lia, hn⟩
    rw [scanEndPage, hp, Option.bind_some]
    rcases pageRows_firstBit (n + 1 : Int) page f.perPage with
      ⟨hj, hrows⟩ | ⟨hj, hlt, hlt', hset, hrows⟩
    · rw [hj, if_neg (by simp)]
      refine ih (by lia) ?_
      have hsucc : (f.numPages - 1 - n).toNat = (f.numPages - 1 - (n + 1)).toNat + 1 := by lia
      rw [hsucc, rowsFrom_of_page hp, hrows, hnone, List.nil_append]
    · rw [if_pos hj]
      have hmem : ((⟨(n + 1 : Int), nextBit true page.bitmap f.perPage (-1)⟩ : Rid),
          page.slots (nextBit true page.bitmap f.perPage (-1))) ∈ f.rows :=
        (mem_rows h).mpr ⟨hlt, hlt', (record_eq_some hp).mpr ⟨hset, rfl⟩⟩
      exact ⟨_, rfl, Or.inr ⟨by lia, by lia, List.ne_nil_of_mem hmem, hnone⟩⟩

end File

/-- The records that a scan has not come to. -/
def ScanAhead (f : RmFile) : List (Rid × Bytes) → RmScan → Prop
  | [], c => c.isEnd = true
  | row :: rest, c => c.isEnd = false ∧ c.rid = row.1 ∧ f.getRecord row.1 = some row.2 ∧
    ∃ c', f.scanNext c = some c' ∧ f.ScanAhead rest c'

variable {f : RmFile}

theorem scanAhead_of_inside (h : Paged f) {c : RmScan} (hpos : 1 ≤ c.endPageNo)
    (hend : c.endPageNo < f.numPages)
    (hnone : f.rowsFrom (f.numPages - 1 - c.endPageNo).toNat (c.endPageNo + 1) = [])
    (hrid : f.Inside c.endPageNo c.rid) {rec : Bytes} (hrec : f.getRecord c.rid = some rec) :
    f.ScanAhead ((c.rid, rec) :: f.restRows c.rid) c := by
  obtain ⟨n, hn⟩ : ∃ n, (f.restRows c.rid).length = n := ⟨_, rfl⟩
  induction n generalizing c rec with
  | zero =>
    have hnil := List.length_eq_zero_iff.mp hn
    obtain ⟨rid', hnext, hcase⟩ := scanNextLoop_spec h hend hnone hrid rfl
    have hpage := hrid.page
    refine ⟨?_, rfl, hrec, { c with rid := rid' }, ?_, ?_⟩
    · rw [RmScan.isEnd, decide_eq_false_iff_not, INVALID_PAGE_ID]
      lia
    · rw [scanNext, hnext]
      rfl
    · rw [hnil] at hcase ⊢
      rcases hcase with ⟨-, hlt⟩ | ⟨rec', hcons, -⟩
      · exact decide_eq_true (Or.inr hlt)
      · cases hcons
  | succ n ih =>
    obtain ⟨rid', hnext, hcase⟩ := scanNextLoop_spec h hend hnone hrid rfl
    have hpage := hrid.page
    refine ⟨?_, rfl, hrec, { c with rid := rid' }, ?_, ?_⟩
    · rw [RmScan.isEnd, decide_eq_false_iff_not, INVALID_PAGE_ID]
      lia
    · rw [scanNext, hnext]
      rfl
    · rcases hcase with ⟨hnil, -⟩ | ⟨rec', hcons, hinside, hrec'⟩
      · rw [hnil] at hn
        cases hn
      · rw [hcons] at hn ⊢
        exact @ih { c with rid := rid' } hpos hend hnone hinside rec' hrec'
          (Nat.succ.inj hn)

/-- A new scan goes through the records of the file. -/
theorem openScan_ahead (h : Paged f) (rid₀ : Rid) :
    ∃ c, f.openScan rid₀ = some c ∧ f.ScanAhead f.rows c := by
  have hpos := h.pages_pos
  have hcount : ((f.numPages - 1).toNat : Int) = f.numPages - 1 := by omega
  obtain ⟨rid, hbegin, hfirst⟩ :=
    @scanBegin_spec f (f.numPages - 1).toNat 1 h le_rfl (by lia) rid₀
  obtain ⟨endPageNo, hscan, hlast⟩ := @scanEndPage_spec f h (f.numPages - 1).toNat (by omega) (by
    have hzero : (f.numPages - 1 - ((f.numPages - 1).toNat : Int)).toNat = 0 := by omega
    rw [hzero]
    rfl)
  refine ⟨⟨rid, endPageNo⟩, ?_, ?_⟩
  · rw [openScan, hbegin, Option.bind_some, hscan]
    rfl
  · rcases hfirst with hnil | ⟨rec, hcons, hpage, hlo, hhi, hrec⟩
    · have hrows : f.rows = [] := hnil
      rw [hrows]
      rcases hlast with ⟨rfl, -⟩ | ⟨-, -, hne, -⟩
      · exact decide_eq_true (Or.inl rfl)
      · exact absurd hrows hne
    · have hrows : f.rows = (rid, rec) :: f.restRows rid := hcons
      rcases hlast with ⟨-, hnil⟩ | ⟨hone, hlt, -, hnone⟩
      · rw [hnil] at hrows
        cases hrows
      · have hle : rid.pageNo ≤ endPageNo := by
          -- no record lies behind the last page
          by_contra hgt
          have hmem : (rid, rec) ∈ f.rows := hrows ▸ List.mem_cons_self
          obtain ⟨-, hupper, hslot⟩ := mem_rowsFrom.mp hmem
          have hlater : (rid, rec) ∈
              f.rowsFrom (f.numPages - 1 - endPageNo).toNat (endPageNo + 1) :=
            mem_rowsFrom.mpr ⟨by lia, by lia, hslot⟩
          rw [hnone] at hlater
          cases hlater
        rw [hrows]
        exact @scanAhead_of_inside f h ⟨rid, endPageNo⟩ hone hlt hnone ⟨⟨hpage, hle⟩, hlo, hhi⟩
          rec hrec

/-- The rids that a scan comes to until `is_end`; `none` where `fuel` rounds do not suffice or a
page is missing. -/
def visited (f : RmFile) : Nat → RmScan → Option (List Rid)
  | 0, _ => none
  | fuel + 1, c =>
    if c.isEnd then some []
    else (f.scanNext c).bind fun c' => (visited f fuel c').map fun rids => c.rid :: rids

/-- A scan comes to what is ahead of it and ends there. -/
theorem visited_of_ahead {ahead : List (Rid × Bytes)} {c : RmScan} (h : f.ScanAhead ahead c)
    {fuel : Nat} (hfuel : ahead.length < fuel) :
    f.visited fuel c = some (ahead.map Prod.fst) := by
  induction ahead generalizing c fuel with
  | nil =>
    obtain ⟨fuel, rfl⟩ := Nat.exists_eq_succ_of_ne_zero (Nat.ne_of_gt hfuel)
    have hend : c.isEnd = true := h
    rw [visited, if_pos hend]
    rfl
  | cons row ahead ih =>
    obtain ⟨fuel, rfl⟩ := Nat.exists_eq_succ_of_ne_zero (Nat.ne_of_gt (Nat.zero_lt_of_lt hfuel))
    obtain ⟨hend, hrid, -, c', hnext, hc'⟩ := h
    have hrest := ih hc' (Nat.lt_of_succ_lt_succ hfuel)
    rw [visited, if_neg (by rw [hend]; exact Bool.false_ne_true), hnext, Option.bind_some, hrest,
      Option.map_some, hrid, List.map_cons]

/-- A scan of a file ends and comes to the set slots of its pages, in order and once each. -/
theorem rmScan_enumerates (h : Paged f) (rid₀ : Rid) :
    ∃ c rids, f.openScan rid₀ = some c ∧
      (∀ fuel, rids.length < fuel → f.visited fuel c = some rids) ∧
      (∀ rid, rid ∈ rids ↔ (1 ≤ rid.pageNo ∧ rid.pageNo < f.numPages) ∧
        (0 ≤ rid.slotNo ∧ rid.slotNo < f.perPage) ∧
        ∃ page, f.pages rid.pageNo = some page ∧ page.bitmap rid.slotNo = true) ∧
      rids.Pairwise Rid.before ∧ rids.Nodup := by
  obtain ⟨c, hopen, hahead⟩ := openScan_ahead h rid₀
  refine ⟨c, f.rows.map Prod.fst, hopen, fun fuel hfuel => ?_, fun rid => ?_, ?_, rows_nodup f⟩
  · exact visited_of_ahead hahead (by rwa [List.length_map] at hfuel)
  · rw [List.mem_map]
    constructor
    · rintro ⟨⟨rid, rec⟩, hmem, rfl⟩
      obtain ⟨hlo, hhi, hrec⟩ := (mem_rows h).mp hmem
      obtain ⟨page, hp, -⟩ := Option.bind_eq_some_iff.mp hrec
      exact ⟨(h.pages_iff _).mp ⟨page, hp⟩, ⟨hlo, hhi⟩, page, hp, ((record_eq_some hp).mp hrec).1⟩
    · rintro ⟨-, ⟨hlo, hhi⟩, page, hp, hset⟩
      exact ⟨(rid, page.slots rid.slotNo),
        (mem_rows h).mpr ⟨hlo, hhi, (record_eq_some hp).mpr ⟨hset, rfl⟩⟩, rfl⟩
  · exact List.pairwise_map.mpr (rowsFrom_pairwise f _ 1)

/-- Three pages of which only the second one has records. -/
def gapFile : RmFile where
  recordSize := 8
  numPages := 4
  firstFreePageNo := 1
  fd2pageno := 4
  pages := fun p =>
    if 1 ≤ p ∧ p < 4 then
      some { RmPage.zero 8 with bitmap := fun i => p = 2 ∧ (i = 0 ∨ i = 5) }
    else none

theorem rmScan_enumerates_gapFile :
    ∃ c rids, gapFile.openScan ⟨0, 0⟩ = some c ∧
      (∀ fuel, rids.length < fuel → gapFile.visited fuel c = some rids) ∧
      (⟨2, 0⟩ : Rid) ∈ rids ∧ (⟨2, 5⟩ : Rid) ∈ rids ∧ (⟨3, 0⟩ : Rid) ∉ rids ∧
      rids.Pairwise Rid.before := by
  have hpaged : Paged gapFile := by
    refine ⟨fun p => ?_, by decide⟩
    simp only [gapFile]
    split
    next hp => exact ⟨fun _ => hp, fun _ => ⟨_, rfl⟩⟩
    next hp =>
      constructor
      · rintro ⟨page, hpage⟩
        cases hpage
      · exact fun h => absurd h hp
  obtain ⟨c, rids, hopen, hrun, hmem, hordered, -⟩ := rmScan_enumerates hpaged ⟨0, 0⟩
  refine ⟨c, rids, hopen, hrun, ?_, ?_, fun h => ?_, hordered⟩
  · exact (hmem _).mpr ⟨by decide, by decide, _, rfl, by decide⟩
  · exact (hmem _).mpr ⟨by decide, by decide, _, rfl, by decide⟩
  · obtain ⟨-, -, page, hp, hset⟩ := (hmem _).mp h
    cases hp
    exact absurd hset (by decide)

end RmFile

end Grmdb
