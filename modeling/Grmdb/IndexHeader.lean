import Grmdb.CreateIndex
import Grmdb.IndexAllocation
import Grmdb.LogFormat

namespace Grmdb

open ByteLayout

def IX_INIT_ROOT_PAGE : PageNo := 2

def ColType.toInt : ColType → Int
  | .int => 0
  | .float => 1
  | .string => 2
  | .datetime => 3

def ColType.ofInt (x : Int) : Option ColType :=
  [int, float, string, datetime].find? (·.toInt = x)

structure IxFileHdr where
  firstFreePageNo : PageNo
  numPages : Int
  rootPage : PageNo
  colNum : Int
  colTypes : List ColType
  colLens : List Int
  colTotLen : Int
  btreeOrder : Int
  keysSize : Int
  firstLeaf : PageNo
  lastLeaf : PageNo
  totLen : Int
  deriving DecidableEq

namespace IxFileHdr

/-- The sizes are `size_t`, and the sum is an `int` again. -/
def updateTotLen (h : IxFileHdr) : IxFileHdr :=
  { h with totLen := Int.bmod (4 * 4 + 4 * 6 + (4 * h.colNum + 4 * h.colNum)) (2 ^ 32) }

/-- `memcpy` of an `int` to `dest + offset`; `none` is a write beyond the end of `dest`. -/
def putInt (s : Bytes × Nat) (x : Int) : Option (Bytes × Nat) :=
  if s.2 + 4 ≤ s.1.length then some (memcpy s.1 s.2 (intBytes x), s.2 + 4) else none

/-- The four fields before the loops, the loops and the fields behind them. `none` stands for a
failed assertion, for a column that is not there and for a write outside `dest`. -/
def serialize (h : IxFileHdr) (dest : Bytes) : Option Bytes := do
  let s ← putInt (dest, 0) h.totLen
  let s ← putInt s h.firstFreePageNo
  let s ← putInt s h.numPages
  let s ← putInt s h.rootPage
  let s ← putInt s h.colNum
  let s ← (List.range h.colNum.toNat).foldlM (fun s i => do putInt s (← h.colTypes[i]?).toInt) s
  let s ← (List.range h.colNum.toNat).foldlM (fun s i => do putInt s (← h.colLens[i]?)) s
  let s ← putInt s h.colTotLen
  let s ← putInt s h.btreeOrder
  let s ← putInt s h.keysSize
  let s ← putInt s h.firstLeaf
  let s ← putInt s h.lastLeaf
  if (s.2 : Int) = h.totLen then some s.1 else none

/-- `n` times an `int` from `src + offset` on, and the offset behind them. -/
def getInts (src : Bytes) : Nat → Nat → Option (List Int × Nat)
  | 0, offset => some ([], offset)
  | n + 1, offset => do
    let x ← readIntAt src offset
    let (xs, offset) ← getInts src n (offset + 4)
    return (x :: xs, offset)

/-- `deserialize` into a new header, whose vectors are empty. -/
def deserialize (src : Bytes) : Option IxFileHdr := do
  let totLen ← readIntAt src 0
  let firstFreePageNo ← readIntAt src 4
  let numPages ← readIntAt src 8
  let rootPage ← readIntAt src 12
  let colNum ← readIntAt src 16
  let (types, offset) ← getInts src colNum.toNat 20
  let colTypes ← types.mapM ColType.ofInt
  let (colLens, offset) ← getInts src colNum.toNat offset
  let colTotLen ← readIntAt src offset
  let btreeOrder ← readIntAt src (offset + 4)
  let keysSize ← readIntAt src (offset + 8)
  let firstLeaf ← readIntAt src (offset + 12)
  let lastLeaf ← readIntAt src (offset + 16)
  if ((offset + 20 : Nat) : Int) = totLen then
    some ⟨firstFreePageNo, numPages, rootPage, colNum, colTypes, colLens, colTotLen, btreeOrder,
      keysSize, firstLeaf, lastLeaf, totLen⟩
  else none

/-- The header that `create_index` builds and writes; `none` is its exception for a key that is too
long and its assertion on `btree_order`. -/
def create (indexCols : List ColMeta) : Option IxFileHdr :=
  let colTotLen := (indexCols.map ColMeta.len).sum
  let btreeOrder : Int := ((PAGE_SIZE - IX_PAGE_HDR_SIZE) / (colTotLen + RID_SIZE) : Nat) - 1
  if IX_MAX_COL_LEN < colTotLen ∨ btreeOrder ≤ 2 then none
  else
    let fhdr : IxFileHdr :=
      { firstFreePageNo := IX_NO_PAGE
        numPages := IX_INIT_NUM_PAGES
        rootPage := IX_INIT_ROOT_PAGE
        colNum := indexCols.length
        colTypes := indexCols.map ColMeta.type
        colLens := indexCols.map fun col => (col.len : Int)
        colTotLen := colTotLen
        btreeOrder := btreeOrder
        keysSize := (btreeOrder + 1) * colTotLen
        firstLeaf := IX_INIT_ROOT_PAGE
        lastLeaf := IX_INIT_ROOT_PAGE
        totLen := 0 }
    some { fhdr.updateTotLen with rootPage := IX_NO_PAGE }

/-- The headers that `create_index` builds and that the operations on the tree leave. -/
inductive Reached : IxFileHdr → Prop where
  | created {indexCols : List ColMeta} {h : IxFileHdr} (hcreate : create indexCols = some h) :
      Reached h
  | changed {h : IxFileHdr} (hr : Reached h) {numPages : Int} {rootPage firstLeaf lastLeaf : PageNo}
      (hpages : IsInt32 numPages) (hroot : IsInt32 rootPage) (hfirst : IsInt32 firstLeaf)
      (hlast : IsInt32 lastLeaf) :
      Reached { h with
        numPages := numPages
        rootPage := rootPage
        firstLeaf := firstLeaf
        lastLeaf := lastLeaf }
  | measured {h : IxFileHdr} (hr : Reached h) : Reached h.updateTotLen

/-- One type and one length for each column, and fields that an `int` can hold. -/
structure Valid (h : IxFileHdr) : Prop where
  types : (h.colTypes.length : Int) = h.colNum
  lens : (h.colLens.length : Int) = h.colNum
  firstFreePageNo : IsInt32 h.firstFreePageNo
  numPages : IsInt32 h.numPages
  rootPage : IsInt32 h.rootPage
  colLens : ∀ len ∈ h.colLens, IsInt32 len
  colTotLen : IsInt32 h.colTotLen
  btreeOrder : IsInt32 h.btreeOrder
  keysSize : IsInt32 h.keysSize
  firstLeaf : IsInt32 h.firstLeaf
  lastLeaf : IsInt32 h.lastLeaf

theorem valid_create {indexCols : List ColMeta} {h : IxFileHdr}
    (hcreate : create indexCols = some h) : h.Valid := by
  unfold create at hcreate
  simp only at hcreate
  split at hcreate
  · cases hcreate
  next hchecks =>
    cases hcreate
    obtain ⟨hlen, -⟩ := not_or.mp hchecks
    have hlen : (indexCols.map ColMeta.len).sum ≤ 512 := not_lt.mp hlen
    have hdiv : (PAGE_SIZE - IX_PAGE_HDR_SIZE) /
        ((indexCols.map ColMeta.len).sum + RID_SIZE) ≤ 4072 := Nat.div_le_self _ _
    generalize (PAGE_SIZE - IX_PAGE_HDR_SIZE) / ((indexCols.map ColMeta.len).sum + RID_SIZE) = slots
      at hdiv
    have hkeys : slots * (indexCols.map ColMeta.len).sum ≤ 4072 * 512 := Nat.mul_le_mul hdiv hlen
    have hnone : IsInt32 IX_NO_PAGE := by decide
    have hpages : IsInt32 IX_INIT_NUM_PAGES := by decide
    have hroot : IsInt32 IX_INIT_ROOT_PAGE := by decide
    refine ⟨by simp [updateTotLen], by simp [updateTotLen], hnone, hpages, hnone, ?_, ?_, ?_, ?_,
      hroot, hroot⟩
    · intro len hmem
      obtain ⟨col, hcol, rfl⟩ := List.mem_map.mp hmem
      have hle : col.len ≤ (indexCols.map ColMeta.len).sum :=
        List.le_sum_of_mem (List.mem_map_of_mem hcol)
      constructor <;> omega
    · simp only [updateTotLen]
      constructor <;> omega
    · simp only [updateTotLen]
      constructor <;> omega
    · have hcast : ((slots : Int) - 1 + 1) * ((indexCols.map ColMeta.len).sum : Nat) =
          ((slots * (indexCols.map ColMeta.len).sum : Nat) : Int) := by
        rw [Int.sub_add_cancel, Int.natCast_mul]
      simp only [updateTotLen, hcast]
      constructor <;> omega

theorem Reached.valid {h : IxFileHdr} (hr : h.Reached) : h.Valid := by
  induction hr with
  | created hcreate => exact valid_create hcreate
  | changed _ hpages hroot hfirst hlast ih =>
    exact { ih with numPages := hpages, rootPage := hroot, firstLeaf := hfirst, lastLeaf := hlast }
  | measured _ ih => exact { ih with }

section Put

variable {done rest : Bytes}

theorem putInt_eq (x : Int) (h : 4 ≤ rest.length) : putInt (done ++ rest, done.length) x =
    some ((done ++ intBytes x) ++ rest.drop 4, (done ++ intBytes x).length) := by
  rw [putInt, if_pos (by rw [List.length_append]; omega), memcpy_append rfl, length_intBytes,
    List.length_append, length_intBytes]

theorem putInts_eq (xs : List Int) (h : 4 * xs.length ≤ rest.length) :
    xs.foldlM putInt (done ++ rest, done.length) =
      some ((done ++ xs.flatMap intBytes) ++ rest.drop (4 * xs.length),
        (done ++ xs.flatMap intBytes).length) := by
  induction xs generalizing done rest with
  | nil => simp
  | cons x xs ih =>
    rw [List.length_cons] at h
    rw [List.foldlM_cons, putInt_eq x (by omega)]
    simp only [Option.bind_eq_bind, Option.bind_some]
    rw [ih (by rw [List.length_drop]; omega), List.drop_drop, List.flatMap_cons, List.length_cons,
      Nat.mul_succ, Nat.add_comm]
    simp only [List.append_assoc]

end Put

/-- The numbers in the order in which they are written. -/
def ints (h : IxFileHdr) : List Int :=
  [h.totLen, h.firstFreePageNo, h.numPages, h.rootPage, h.colNum] ++ h.colTypes.map ColType.toInt ++
    h.colLens ++ [h.colTotLen, h.btreeOrder, h.keysSize, h.firstLeaf, h.lastLeaf]

def image (h : IxFileHdr) : Bytes := h.ints.flatMap intBytes

theorem length_flatMap_intBytes (xs : List Int) : (xs.flatMap intBytes).length = 4 * xs.length := by
  induction xs with
  | nil => rfl
  | cons x xs ih =>
    rw [List.flatMap_cons, List.length_append, length_intBytes, ih, List.length_cons]
    omega

/-- A loop over the indices of a vector reads it from front to back. -/
theorem foldlM_getElem? {α σ : Type} (f : σ → α → Option σ) (xs : List α) (s : σ) :
    (List.range xs.length).foldlM (fun s i => do f s (← xs[i]?)) s = xs.foldlM f s := by
  induction xs generalizing s with
  | nil => rfl
  | cons x xs ih =>
    rw [List.length_cons, List.range_succ_eq_map, List.foldlM_cons, List.foldlM_cons]
    simp only [List.getElem?_cons_zero, Option.bind_eq_bind, Option.bind_some, List.foldlM_map,
      List.getElem?_cons_succ]
    congr 1
    funext s
    exact ih s

section Valid

variable {h : IxFileHdr} (hv : h.Valid)
include hv

theorem Valid.length_ints : (h.ints.length : Int) = 10 + 2 * h.colNum := by
  have htypes := hv.types
  have hlens := hv.lens
  simp only [ints, List.length_append, List.length_map, List.length_cons, List.length_nil]
  omega

theorem Valid.isInt32_ints (htot : IsInt32 h.totLen) (hcols : IsInt32 h.colNum) :
    ∀ x ∈ h.ints, IsInt32 x := by
  intro x hx
  simp only [ints, List.mem_append, List.mem_cons, List.not_mem_nil, or_false, List.mem_map] at hx
  rcases hx with (((rfl | rfl | rfl | rfl | rfl) | ⟨t, -, rfl⟩) | hlen) |
    rfl | rfl | rfl | rfl | rfl
  · exact htot
  · exact hv.firstFreePageNo
  · exact hv.numPages
  · exact hv.rootPage
  · exact hcols
  · cases t <;> decide
  · exact hv.colLens x hlen
  · exact hv.colTotLen
  · exact hv.btreeOrder
  · exact hv.keysSize
  · exact hv.firstLeaf
  · exact hv.lastLeaf

/-- The whole of `serialize` as one run of writes. -/
theorem Valid.serialize_eq (dest : Bytes) : h.serialize dest =
    (h.ints.foldlM putInt (dest, 0)).bind fun s =>
      if (s.2 : Int) = h.totLen then some s.1 else none := by
  have htypes : h.colNum.toNat = h.colTypes.length := by
    rw [← hv.types, Int.toNat_natCast]
  have hlens : h.colNum.toNat = h.colLens.length := by
    rw [← hv.lens, Int.toNat_natCast]
  have htypeLoop := foldlM_getElem? (fun s (t : ColType) => putInt s t.toInt) h.colTypes
  have hlenLoop := foldlM_getElem? putInt h.colLens
  rw [← htypes] at htypeLoop
  rw [← hlens] at hlenLoop
  simp only [serialize, ints, htypeLoop, hlenLoop, List.foldlM_append, List.foldlM_cons,
    List.foldlM_nil, List.foldlM_map, ← Option.bind_eq_bind, bind_assoc, pure_bind]

end Valid

section Read

variable {src tail : Bytes} {off : Nat}

theorem getInts_eq {xs : List Int} (hxs : ∀ x ∈ xs, IsInt32 x)
    (h : StandsAt src off (xs.flatMap intBytes ++ tail)) :
    getInts src xs.length off = some (xs, off + 4 * xs.length) := by
  induction xs generalizing off with
  | nil => rfl
  | cons x xs ih =>
    obtain ⟨hx, hxs⟩ := List.forall_mem_cons.mp hxs
    rw [List.flatMap_cons, List.append_assoc] at h
    have hread : readIntAt src off = some x := readIntAt_eq hx h
    have hnext : StandsAt src (off + 4) (xs.flatMap intBytes ++ tail) :=
      h.next (by rw [length_intBytes])
    have hrest := ih hxs hnext
    simp only [List.length_cons, getInts, hread, hrest, Option.bind_eq_bind, Option.bind_some,
      Option.pure_def]
    congr 2
    omega

theorem mapM_ofInt_toInt (types : List ColType) :
    types.mapM (ColType.ofInt ∘ ColType.toInt) = some types := by
  induction types with
  | nil => rfl
  | cons t types ih =>
    have ht : (ColType.ofInt ∘ ColType.toInt) t = some t := by cases t <;> decide
    rw [List.mapM_cons, ht, ih]
    rfl

end Read

/-- The three parts of the image, the fields before the arrays first. -/
theorem image_append (h : IxFileHdr) (tail : Bytes) : h.image ++ tail =
    intBytes h.totLen ++ (intBytes h.firstFreePageNo ++ (intBytes h.numPages ++
      (intBytes h.rootPage ++ (intBytes h.colNum ++ ((h.colTypes.map ColType.toInt).flatMap intBytes ++
        (h.colLens.flatMap intBytes ++ (intBytes h.colTotLen ++ (intBytes h.btreeOrder ++
          (intBytes h.keysSize ++ (intBytes h.firstLeaf ++ (intBytes h.lastLeaf ++ tail))))))))))) := by
  simp only [image, ints, List.flatMap_append, List.flatMap_cons, List.flatMap_nil, List.append_assoc,
    List.append_nil]

theorem Valid.deserialize_eq {h : IxFileHdr} (hv : h.Valid) (htot : IsInt32 h.totLen)
    (hcols : IsInt32 h.colNum) (hsize : h.totLen = 40 + 8 * h.colNum) (tail : Bytes) :
    deserialize (h.image ++ tail) = some h := by
  have hrange := hv.isInt32_ints htot hcols
  have htypes : h.colNum.toNat = (h.colTypes.map ColType.toInt).length := by
    rw [List.length_map, ← hv.types, Int.toNat_natCast]
  have hlens : h.colNum.toNat = h.colLens.length := by
    rw [← hv.lens, Int.toNat_natCast]
  have atTot := StandsAt.start (h.image ++ tail)
  nth_rewrite 2 [image_append] at atTot
  generalize h.image ++ tail = src at atTot ⊢
  have atFree := atTot.next (show 4 = 0 + _ by simp)
  have atNum := atFree.next (show 8 = 4 + _ by simp)
  have atRoot := atNum.next (show 12 = 8 + _ by simp)
  have atColNum := atRoot.next (show 16 = 12 + _ by simp)
  have atTypes := atColNum.next (show 20 = 16 + _ by simp)
  have atLens := atTypes.next
    (show 20 + 4 * h.colNum.toNat = 20 + _ by rw [length_flatMap_intBytes, ← htypes])
  have atTotLen := atLens.next (show 20 + 4 * h.colNum.toNat + 4 * h.colNum.toNat = _ + _ by
    rw [length_flatMap_intBytes, ← hlens])
  generalize hoff : 20 + 4 * h.colNum.toNat + 4 * h.colNum.toNat = off at atTotLen
  have atOrder := atTotLen.next (show off + 4 = _ + _ by simp)
  have atKeys := atOrder.next (show off + 8 = off + 4 + _ by simp)
  have atFirst := atKeys.next (show off + 12 = off + 8 + _ by simp)
  have atLast := atFirst.next (show off + 16 = off + 12 + _ by simp)
  have hreadTypes := getInts_eq (fun x hx => hrange x (by simp [ints, List.mem_map.mp hx])) atTypes
  have hreadLens := getInts_eq hv.colLens atLens
  rw [← htypes] at hreadTypes
  rw [← hlens, hoff] at hreadLens
  have hcolNum : (h.colNum.toNat : Int) = h.colNum := by
    rw [hlens, hv.lens]
  have hend : (off : Int) + 20 = h.totLen := by
    omega
  simp [deserialize, readIntAt_eq htot atTot, readIntAt_eq hv.firstFreePageNo atFree,
    readIntAt_eq hv.numPages atNum, readIntAt_eq hv.rootPage atRoot, readIntAt_eq hcols atColNum,
    hreadTypes, mapM_ofInt_toInt, hreadLens, readIntAt_eq hv.colTotLen atTotLen,
    readIntAt_eq hv.btreeOrder atOrder, readIntAt_eq hv.keysSize atKeys,
    readIntAt_eq hv.firstLeaf atFirst, readIntAt_eq hv.lastLeaf atLast, hend]

theorem length_image (h : IxFileHdr) : h.image.length = 4 * h.ints.length :=
  length_flatMap_intBytes h.ints

theorem Valid.serialize_image {h : IxFileHdr} (hv : h.Valid) (hsize : h.totLen = 40 + 8 * h.colNum)
    {dest : Bytes} (hdest : h.image.length ≤ dest.length) :
    h.serialize dest = some (h.image ++ dest.drop h.image.length) := by
  have hlen := hv.length_ints
  rw [length_image] at hdest
  have hput : h.ints.foldlM putInt (dest, 0) =
      some (h.image ++ dest.drop (4 * h.ints.length), h.image.length) :=
    @putInts_eq [] dest h.ints hdest
  have hend : ((h.image.length : Nat) : Int) = h.totLen := by
    rw [length_image]
    omega
  rw [hv.serialize_eq, hput, Option.bind_some, if_pos hend, length_image]

theorem Valid.updateTotLen {h : IxFileHdr} (hv : h.Valid) : h.updateTotLen.Valid := { hv with }

/-- The length as it is computed is right as long as the header fits a page. -/
theorem totLen_updateTotLen {h : IxFileHdr} (hpos : 0 ≤ h.colNum)
    (hfit : 40 + 8 * h.colNum ≤ PAGE_SIZE) : h.updateTotLen.totLen = 40 + 8 * h.colNum := by
  have hpage : 40 + 8 * h.colNum ≤ 4096 := hfit
  show Int.bmod (4 * 4 + 4 * 6 + (4 * h.colNum + 4 * h.colNum)) (2 ^ 32) = _
  rw [Int.bmod_eq_of_le (by omega) (by omega)]
  omega

end IxFileHdr

open IxFileHdr in
theorem ixFileHdr_round_trip {h : IxFileHdr} (hr : h.Reached)
    (hfit : 40 + 8 * h.colNum ≤ PAGE_SIZE) :
    ∃ bytes : Bytes, (bytes.length : Int) = h.updateTotLen.totLen ∧ bytes.length ≤ PAGE_SIZE ∧
      (∀ dest, bytes.length ≤ dest.length →
        h.updateTotLen.serialize dest = some (bytes ++ dest.drop bytes.length)) ∧
      ∀ tail, deserialize (bytes ++ tail) = some h.updateTotLen := by
  have hpage : 40 + 8 * h.colNum ≤ 4096 := hfit
  have hv := hr.valid.updateTotLen
  have hpos : 0 ≤ h.colNum := by
    rw [← hr.valid.lens]
    exact Int.natCast_nonneg _
  have hsize := totLen_updateTotLen hpos hfit
  have hcols : h.updateTotLen.colNum = h.colNum := rfl
  have hlen := hv.length_ints
  have himage := length_image h.updateTotLen
  have hcolNum : IsInt32 h.updateTotLen.colNum := by
    constructor <;> omega
  have htot : IsInt32 h.updateTotLen.totLen := by
    constructor <;> omega
  refine ⟨h.updateTotLen.image, by omega, ?_, fun dest hdest => ?_, fun tail => ?_⟩
  · show _ ≤ 4096
    omega
  · exact hv.serialize_image hsize hdest
  · exact hv.deserialize_eq htot hcolNum hsize tail

theorem ixFileHdr_round_trip_two :
    ∃ h, IxFileHdr.create [⟨"t", "a", .int, 4, 0⟩, ⟨"t", "b", .string, 20, 4⟩] = some h ∧
      ∃ bytes : Bytes, (bytes.length : Int) = h.updateTotLen.totLen ∧ bytes.length ≤ PAGE_SIZE ∧
        (∀ dest, bytes.length ≤ dest.length →
          h.updateTotLen.serialize dest = some (bytes ++ dest.drop bytes.length)) ∧
        ∀ tail, IxFileHdr.deserialize (bytes ++ tail) = some h.updateTotLen := by
  have hcreate : IxFileHdr.create [⟨"t", "a", .int, 4, 0⟩, ⟨"t", "b", .string, 20, 4⟩] = some _ :=
    rfl
  exact ⟨_, hcreate, ixFileHdr_round_trip (.created hcreate) (by decide)⟩

end Grmdb
