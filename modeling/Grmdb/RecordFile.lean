import Grmdb.LogRecord

namespace Grmdb

def RM_NO_PAGE : PageNo := -1
def RM_MAX_RECORD_SIZE : Nat := 512

/-- `sizeof(RmFileHdr)`, `sizeof(RmPageHdr)` and the offset of the page header. -/
def RM_FILE_HDR_SIZE : Nat := 20
def RM_PAGE_HDR_SIZE : Nat := 8
def OFFSET_PAGE_HDR : Nat := 4
def BITMAP_WIDTH : Nat := 8

/-- `file_hdr.num_records_per_page` as `create_file` computes it. -/
def numRecordsPerPage (recordSize : Nat) : Nat :=
  (BITMAP_WIDTH * (PAGE_SIZE - 1 - RM_FILE_HDR_SIZE) + 1) / (1 + recordSize * BITMAP_WIDTH)

def bitmapSize (recordSize : Nat) : Nat :=
  (numRecordsPerPage recordSize + BITMAP_WIDTH - 1) / BITMAP_WIDTH

/-- Where `get_slot` puts a slot in the page. -/
def slotOffset (recordSize slotNo : Nat) : Nat :=
  OFFSET_PAGE_HDR + RM_PAGE_HDR_SIZE + bitmapSize recordSize + slotNo * recordSize

/-- One page of a table file: its LSN, its header, its bitmap by position and its slots. -/
structure RmPage where
  lsn : Lsn
  nextFreePageNo : PageNo
  numRecords : Int
  bitmap : Int → Bool
  slots : Int → Bytes

/-- A page of zeros, as `new_page` writes it to disk. -/
def RmPage.zero (recordSize : Nat) : RmPage :=
  ⟨0, 0, 0, fun _ => false, fun _ => List.replicate recordSize 0⟩

/-- An open table file: the file header, the page number `allocate_page` gives out next and the
pages, as the buffer pool shows them. -/
structure RmFile where
  recordSize : Nat
  numPages : Int
  firstFreePageNo : PageNo
  fd2pageno : PageNo
  pages : PageNo → Option RmPage

/-- The file that `create_file` writes, opened. -/
def RmFile.create (recordSize : Nat) : RmFile := ⟨recordSize, 1, RM_NO_PAGE, 1, fun _ => none⟩

/-- The loop of `Bitmap::next_bit` with `fuel` positions left to look at. -/
def nextBitLoop (bit : Bool) (bm : Int → Bool) : Nat → Int → Int
  | 0, i => i
  | fuel + 1, i => if bm i = bit then i else nextBitLoop bit bm fuel (i + 1)

def firstBit (bit : Bool) (bm : Int → Bool) (maxN : Nat) : Int := nextBitLoop bit bm maxN 0

namespace RmPage

def set (page : RmPage) (pos : Int) : RmPage :=
  { page with bitmap := Function.update page.bitmap pos true }

def reset (page : RmPage) (pos : Int) : RmPage :=
  { page with bitmap := Function.update page.bitmap pos false }

/-- `memcpy` of a record into its slot. -/
def copy (page : RmPage) (pos : Int) (buf : Bytes) : RmPage :=
  { page with slots := Function.update page.slots pos buf }

/-- `set_page_lsn`, where the caller has a context. -/
def stamp (page : RmPage) : Option Lsn → RmPage
  | some lsn => { page with lsn := lsn }
  | none => page

end RmPage

namespace RmFile

def perPage (f : RmFile) : Nat := numRecordsPerPage f.recordSize

def write (f : RmFile) (p : PageNo) (page : RmPage) : RmFile :=
  { f with pages := Function.update f.pages p (some page) }

/-- The new page is page `f.fd2pageno`. -/
def createNewPageHandle (f : RmFile) : RmFile :=
  { f with
    numPages := f.numPages + 1,
    firstFreePageNo := f.fd2pageno,
    fd2pageno := f.fd2pageno + 1,
    pages := Function.update f.pages f.fd2pageno
      (some { RmPage.zero f.recordSize with nextFreePageNo := RM_NO_PAGE }) }

/-- The page that the next record goes to is then the first free page of the result. -/
def createPageHandle (f : RmFile) : RmFile :=
  if f.firstFreePageNo ≠ RM_NO_PAGE then f else f.createNewPageHandle

/-- The end of `insert_record`: a page that is now full leaves the free page chain. -/
def fill (f : RmFile) (p : PageNo) (page : RmPage) : RmFile :=
  if (f.perPage : Int) ≤ page.numRecords then
    write { f with firstFreePageNo := page.nextFreePageNo } p
      { page with nextFreePageNo := RM_NO_PAGE }
  else f.write p page

/-- `insert_record(buf, context)`, with the LSN that the context's log manager is at. -/
def insertRecord (f : RmFile) (buf : Bytes) (ctx : Option Lsn) : Option (RmFile × Rid) :=
  let f := f.createPageHandle
  let p := f.firstFreePageNo
  (f.pages p).map fun page =>
    let offset := firstBit false page.bitmap f.perPage
    let page := (page.copy offset buf).set offset
    (f.fill p ({ page with numRecords := page.numRecords + 1 }.stamp ctx), ⟨p, offset⟩)

/-- `insert_record(rid, buf)`: neither the counter nor the chain is touched. -/
def insertRecordAt (f : RmFile) (rid : Rid) (buf : Bytes) : Option RmFile :=
  (f.pages rid.pageNo).map fun page =>
    f.write rid.pageNo ((page.set rid.slotNo).copy rid.slotNo buf)

/-- `release_page_handle` for the page `page` of number `p`. -/
def releasePageHandle (f : RmFile) (p : PageNo) (page : RmPage) : RmFile :=
  if p = f.firstFreePageNo then f.write p page
  else
    write { f with firstFreePageNo := p } p { page with nextFreePageNo := f.firstFreePageNo }

/-- The counter update of `delete_record`: a page that was full enters the chain. -/
def unfill (f : RmFile) (p : PageNo) (page : RmPage) : RmFile :=
  if page.numRecords = (f.perPage : Int) - 1 then f.releasePageHandle p page
  else f.write p page

def deleteRecord (f : RmFile) (rid : Rid) (ctx : Option Lsn) : Option RmFile :=
  (f.pages rid.pageNo).map fun page =>
    let page := page.reset rid.slotNo
    f.unfill rid.pageNo ({ page with numRecords := page.numRecords - 1 }.stamp ctx)

def updateRecord (f : RmFile) (rid : Rid) (buf : Bytes) (ctx : Option Lsn) : Option RmFile :=
  (f.pages rid.pageNo).map fun page =>
    f.write rid.pageNo ((page.copy rid.slotNo buf).stamp ctx)

/-- `get_record` reads the slot whatever the bitmap says. -/
def getRecord (f : RmFile) (rid : Rid) : Option Bytes :=
  (f.pages rid.pageNo).map fun page => page.slots rid.slotNo

def isRecord (f : RmFile) (rid : Rid) : Bool :=
  (f.pages rid.pageNo).any fun page => page.bitmap rid.slotNo

/-- The record that a scan shows at `rid`. -/
def record (f : RmFile) (rid : Rid) : Option Bytes :=
  (f.pages rid.pageNo).bind fun page =>
    if page.bitmap rid.slotNo then some (page.slots rid.slotNo) else none

end RmFile

/-- How many of the first `n` positions are set. -/
def setBits (bm : Int → Bool) (n : Nat) : Nat :=
  ((Finset.range n).filter fun i : Nat => bm i = true).card

/-- The layout fits: every slot of a page ends inside the page. -/
theorem slotOffset_fits {recordSize slotNo : Nat} (h : slotNo < numRecordsPerPage recordSize) :
    slotOffset recordSize slotNo + recordSize ≤ PAGE_SIZE := by
  have hdiv := Nat.div_mul_le_self (BITMAP_WIDTH * (PAGE_SIZE - 1 - RM_FILE_HDR_SIZE) + 1)
    (1 + recordSize * BITMAP_WIDTH)
  have hslot : slotNo * recordSize + recordSize ≤ numRecordsPerPage recordSize * recordSize := by
    rw [← Nat.succ_mul]
    exact Nat.mul_le_mul_right recordSize h
  have hbytes : numRecordsPerPage recordSize * (1 + recordSize * BITMAP_WIDTH) =
      numRecordsPerPage recordSize + 8 * (numRecordsPerPage recordSize * recordSize) := by
    simp only [BITMAP_WIDTH]
    ring
  have hbitmap := Nat.div_mul_le_self (numRecordsPerPage recordSize + BITMAP_WIDTH - 1) BITMAP_WIDTH
  rw [← numRecordsPerPage, hbytes] at hdiv
  simp only [slotOffset, bitmapSize, BITMAP_WIDTH, PAGE_SIZE, RM_FILE_HDR_SIZE, RM_PAGE_HDR_SIZE,
    OFFSET_PAGE_HDR] at *
  omega

theorem numRecordsPerPage_pos {recordSize : Nat} (h : recordSize ≤ RM_MAX_RECORD_SIZE) :
    1 < numRecordsPerPage recordSize := by
  have : 7 ≤ numRecordsPerPage recordSize := by
    rw [numRecordsPerPage, Nat.le_div_iff_mul_le (by omega)]
    simp only [BITMAP_WIDTH, PAGE_SIZE, RM_FILE_HDR_SIZE, RM_MAX_RECORD_SIZE] at h ⊢
    omega
  omega

theorem nextBitLoop_spec (bit : Bool) (bm : Int → Bool) (fuel : Nat) (i : Int) :
    i ≤ nextBitLoop bit bm fuel i ∧ nextBitLoop bit bm fuel i ≤ i + fuel ∧
      (∀ j, i ≤ j → j < nextBitLoop bit bm fuel i → bm j ≠ bit) ∧
      (nextBitLoop bit bm fuel i < i + fuel → bm (nextBitLoop bit bm fuel i) = bit) := by
  induction fuel generalizing i with
  | zero =>
    refine ⟨le_rfl, by simp [nextBitLoop], fun j hj hlt => ?_, fun hlt => ?_⟩
    · simp only [nextBitLoop] at hlt
      omega
    · simp [nextBitLoop] at hlt
  | succ fuel ih =>
    simp only [nextBitLoop]
    split
    · next h => exact ⟨le_rfl, by omega, fun j hj hlt => by omega, fun _ => h⟩
    · next h =>
      obtain ⟨low, high, before, hit⟩ := ih (i + 1)
      refine ⟨by omega, by push_cast; omega, fun j hj hlt => ?_, fun hlt => ?_⟩
      · rcases eq_or_lt_of_le hj with rfl | hj
        · exact h
        · exact before j (by omega) hlt
      · exact hit (by push_cast at hlt; omega)

theorem setBits_le (bm : Int → Bool) (n : Nat) : setBits bm n ≤ n := by
  simpa [setBits] using Finset.card_filter_le (Finset.range n) fun i : Nat => bm i = true

theorem setBits_update_out {bm : Int → Bool} {n : Nat} {pos : Int} (v : Bool)
    (h : pos < 0 ∨ (n : Int) ≤ pos) : setBits (Function.update bm pos v) n = setBits bm n := by
  unfold setBits
  congr 1
  apply Finset.filter_congr
  intro i hi
  have : (i : Int) ≠ pos := by
    have := Finset.mem_range.mp hi
    omega
  rw [Function.update_of_ne this]

theorem setBits_set {bm : Int → Bool} {n i : Nat} (hi : i < n) (h : bm i = false) :
    setBits (Function.update bm i true) n = setBits bm n + 1 := by
  have grow : ((Finset.range n).filter fun j : Nat => Function.update bm i true j = true) =
      insert i ((Finset.range n).filter fun j : Nat => bm j = true) := by
    ext j
    simp only [Finset.mem_filter, Finset.mem_range, Finset.mem_insert]
    by_cases hj : j = i
    · subst hj
      simp [hi]
    · simp [hj]
  rw [setBits, grow, Finset.card_insert_of_notMem (by simp [h]), setBits]

theorem setBits_reset {bm : Int → Bool} {n i : Nat} (hi : i < n) (h : bm i = true) :
    setBits (Function.update bm i false) n + 1 = setBits bm n := by
  have back : Function.update (Function.update bm i false) i true = bm := by
    funext j
    by_cases hj : j = i
    · subst hj
      simp [h]
    · simp [hj]
  have := @setBits_set (Function.update bm i false) n i hi (by simp)
  rw [back] at this
  exact this.symm

/-- `first_bit(false, ..)` finds a free slot when fewer than `n` bits are set. -/
theorem firstBit_free {bm : Int → Bool} {n : Nat} (h : setBits bm n < n) :
    ∃ i : Nat, i < n ∧ firstBit false bm n = i ∧ bm i = false := by
  obtain ⟨low, high, before, hit⟩ := nextBitLoop_spec false bm n 0
  have short : nextBitLoop false bm n 0 < 0 + n := by
    by_contra hge
    have all : (Finset.range n).filter (fun i : Nat => bm i = true) = Finset.range n := by
      refine Finset.filter_true_of_mem fun i hi => ?_
      have hlt := Finset.mem_range.mp hi
      have := before i (by omega) (by omega)
      simpa using this
    rw [setBits, all, Finset.card_range] at h
    exact absurd h (lt_irrefl n)
  refine ⟨(nextBitLoop false bm n 0).toNat, by omega, ?_, ?_⟩
  · rw [firstBit]
    omega
  · rw [Int.toNat_of_nonneg low]
    exact hit short

/-- With all `n` bits set it answers `n`, the number of no slot. -/
theorem firstBit_full {bm : Int → Bool} {n : Nat} (h : setBits bm n = n) :
    firstBit false bm n = n := by
  obtain ⟨low, high, before, hit⟩ := nextBitLoop_spec false bm n 0
  by_contra hne
  have short : nextBitLoop false bm n 0 < 0 + n := by
    rw [firstBit] at hne
    omega
  have smaller : (Finset.range n).filter (fun i : Nat => bm i = true) ⊂ Finset.range n := by
    rw [Finset.filter_ssubset]
    refine ⟨(nextBitLoop false bm n 0).toNat, Finset.mem_range.mpr (by omega), ?_⟩
    rw [Int.toNat_of_nonneg low, hit short]
    decide
  have := Finset.card_lt_card smaller
  rw [Finset.card_range] at this
  rw [setBits] at h
  omega

end Grmdb
