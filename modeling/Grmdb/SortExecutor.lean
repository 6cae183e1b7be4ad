import Grmdb.MapM
import Grmdb.ScanExecutors

namespace Grmdb

/-- The pages of the temporary file in the order of `page_ids_`. The list only grows: a page of
`new_page` comes last, and the ones of an earlier run stay in front of it with what they hold. -/
structure SortPages where
  count : Nat
  cell : Nat → Nat → Bytes

namespace SortPages

variable (tupPerPage : Nat) (pages : SortPages)

def getTuple (offset : Nat) : Bytes := pages.cell (offset / tupPerPage) (offset % tupPerPage)

def modifyTuple (offset : Nat) (data : Bytes) : SortPages :=
  { pages with
    cell := Function.update pages.cell (offset / tupPerPage)
      (Function.update (pages.cell (offset / tupPerPage)) (offset % tupPerPage) data) }

/-- `blank` is a slot of a new page. -/
def insertTuple (blank : Bytes) (offset : Nat) (data : Bytes) : SortPages :=
  if offset % tupPerPage = 0 then
    ⟨pages.count + 1, Function.update pages.cell pages.count
      (Function.update (fun _ => blank) 0 data)⟩
  else pages.modifyTuple tupPerPage offset data

/-- The tuples inserted one after the other from `offset` on. -/
def insertTuples (blank : Bytes) : Nat → List Bytes → SortPages → SortPages
  | _, [], pages => pages
  | offset, tuple :: tuples, pages =>
    insertTuples blank (offset + 1) tuples (pages.insertTuple tupPerPage blank offset tuple)

def modifyTuples : Nat → List Bytes → SortPages → SortPages
  | _, [], pages => pages
  | offset, tuple :: tuples, pages =>
    modifyTuples (offset + 1) tuples (pages.modifyTuple tupPerPage offset tuple)

def district (tupleNum d : Nat) : List Bytes :=
  (List.range tupleNum).map fun i => pages.getTuple tupPerPage (i + d * tupleNum)

end SortPages

section Order

/-- `operator <` of `RecordSort`. -/
def sortsBefore (orderBy : ColMeta) (isDesc : Bool) (r₁ r₂ : Bytes) : Bool :=
  match orderBy.read r₁, orderBy.read r₂ with
  | some v₁, some v₂ => v₁.comp v₂ (if isDesc then .gt else .lt) = some true
  | _, _ => false

/-- `std::sort` of one block. Comparing values without an order fails. -/
def sortBlock (orderBy : ColMeta) (isDesc : Bool) (records : List Bytes) : Option (List Bytes) :=
  if records.length ≤ 1 ∨ records.all fun r => (orderBy.read r).isSome then
    some (records.insertionSort fun r₁ r₂ => sortsBefore orderBy isDesc r₂ r₁ = false)
  else none

/-- Blocks of `size` records. -/
def blocks (size : Nat) : Nat → List Bytes → List (List Bytes)
  | 0, _ => []
  | fuel + 1, records =>
    if records.isEmpty then [] else records.take size :: blocks size fuel (records.drop size)

def sortBlocks (orderBy : ColMeta) (isDesc : Bool) (size : Nat) (records : List Bytes) :
    Option (List Bytes) :=
  ((blocks size records.length records).mapM (sortBlock orderBy isDesc)).map List.flatten

/-- `judge_order`, which does not look at the direction. -/
def judgeOrder (orderBy : ColMeta) (left right : Bytes) : Ordering :=
  match orderBy.read left, orderBy.read right with
  | some v, some w =>
    if v.comp w .gt = some true then .gt else if v.comp w .lt = some true then .lt else .eq
  | _, _ => .eq

/-- The merge of two blocks. Of two tuples with the same order only the right one is written. -/
def mergeBlocks (orderBy : ColMeta) : Nat → List Bytes → List Bytes → List Bytes
  | 0, _, _ => []
  | _ + 1, [], right => right
  | _ + 1, left, [] => left
  | fuel + 1, l :: left, r :: right =>
    match judgeOrder orderBy l r with
    | .lt => l :: mergeBlocks orderBy fuel left (r :: right)
    | .gt => r :: mergeBlocks orderBy fuel (l :: left) right
    | .eq => r :: mergeBlocks orderBy fuel left right

/-- What one pass over the blocks writes. The last block without a partner is copied from where
the pass has come to, not from where the block starts. -/
def mergePass (orderBy : ColMeta) (tupPerBlock tupleNum numBlock : Nat) (tuples : List Bytes) :
    Nat → Nat → List Bytes → List Bytes
  | 0, _, written => written
  | fuel + 1, bid, written =>
    if numBlock ≤ bid then written
    else
      let leftEnd := min tupleNum ((bid + 1) * tupPerBlock)
      let rightEnd := min tupleNum ((bid + 2) * tupPerBlock)
      if leftEnd = rightEnd then written ++ (tuples.take leftEnd).drop written.length
      else
        let left := (tuples.take leftEnd).drop (bid * tupPerBlock)
        let right := (tuples.take rightEnd).drop ((bid + 1) * tupPerBlock)
        mergePass orderBy tupPerBlock tupleNum numBlock tuples fuel (bid + 2)
          (written ++ mergeBlocks orderBy (left.length + right.length + 1) left right)

/-- The passes; the district with the result is the one that the last pass wrote. -/
def mergePasses (orderBy : ColMeta) (tupPerPage tupleNum numPages : Nat) :
    Nat → Nat → Nat → Nat → SortPages → SortPages × Nat
  | 0, _, prev, _, pages => (pages, prev)
  | fuel + 1, blockSize, prev, curr, pages =>
    if blockSize < numPages then
      let numBlock := (numPages + blockSize - 1) / blockSize
      let written := mergePass orderBy (blockSize * tupPerPage) tupleNum numBlock
        (pages.district tupPerPage tupleNum prev) numBlock 0 []
      mergePasses orderBy tupPerPage tupleNum numPages fuel (blockSize * 2) curr prev
        (SortPages.modifyTuples tupPerPage (curr * tupleNum) written pages)
    else (pages, prev)

end Order

/-- `block_size_min_`. -/
def BLOCK_SIZE_MIN : Nat := 100

/-- The part of `beginTuple` after the blocks are sorted. -/
def loadSorted (orderBy : ColMeta) (tupPerPage : Nat) (blank : Bytes) (sorted : List Bytes)
    (pages : SortPages) : SortPages × Nat :=
  let tupleNum := sorted.length
  let pages := SortPages.insertTuples tupPerPage blank 0 sorted pages
  let numPages := (tupleNum + tupPerPage - 1) / tupPerPage
  if numPages = 1 then (pages, 0)
  else
    mergePasses orderBy tupPerPage tupleNum numPages numPages BLOCK_SIZE_MIN 0 1
      (SortPages.insertTuples tupPerPage blank tupleNum (List.replicate tupleNum blank) pages)

/-- `prev_`, the pages, `cur_tup_`, `tuple_num_` and `curr_district_`, how often the sort has been
started, and, once a run is under a descriptor that is not the one of the first run, what it finds
for its tuples. -/
structure SortState (σ : Type) where
  prev : σ
  pages : SortPages
  curTup : Nat
  tupleNum : Nat
  currDistrict : Nat
  runs : Nat
  other : Option (Nat → Option Bytes)

def SortState.first {σ : Type} (prev : σ) : SortState σ := ⟨prev, ⟨0, fun _ _ => []⟩, 0, 0, 0, 0, none⟩

/-- `SortExecutor` over the cursor `prev`; `tmpFd n` is the descriptor of the n-th run. The numbers
in `page_ids_` are those of pages under the descriptor of the run that made them, so a run under
another one does not find them. -/
def sortCursor (fuel : Nat) (orderBy : ColMeta) (isDesc : Bool) (tupPerPage tupleLen : Nat)
    (tmpFd : Nat → Nat) (otherPages : Nat → Option (Nat → Option Bytes)) (prev : Cursor Bytes) :
    Cursor Bytes where
  State := SortState prev.State
  start s :=
    (prev.start s.prev).bind fun p =>
      (prev.collect fuel p).bind fun (records, p) =>
        (sortBlocks orderBy isDesc (BLOCK_SIZE_MIN * tupPerPage) records).bind fun sorted =>
          if ∀ n < s.runs + 1, tmpFd n = tmpFd 0 then
            let (pages, district) :=
              loadSorted orderBy tupPerPage (List.replicate tupleLen 0) sorted s.pages
            some ⟨p, pages, 0, sorted.length, district, s.runs + 1, none⟩
          else
            (otherPages s.runs).map fun found =>
              ⟨p, s.pages, 0, sorted.length, 0, s.runs + 1, some found⟩
  advance s := some { s with curTup := s.curTup + 1 }
  atEnd s := s.curTup = s.tupleNum
  read s :=
    (match s.other with
      | none => some (s.pages.getTuple tupPerPage (s.curTup + s.currDistrict * s.tupleNum))
      | some found => found s.curTup).map fun tuple => (tuple, s)

/-- `SortExecutor`. A tuple has to fit into a page. -/
def sortExecutor (fuel : Nat) (prev : Executor) (selCol : TabCol) (isDesc : Bool)
    (tmpFd : Nat → Nat) (otherPages : Nat → Option (Nat → Option Bytes)) : Option Executor :=
  (findCol prev.cols selCol).bind fun orderBy =>
    let tupPerPage := PAGE_SIZE / prev.tupleLen
    if tupPerPage = 0 then none
    else
      some ⟨prev.cols, prev.tupleLen,
        sortCursor fuel orderBy isDesc tupPerPage prev.tupleLen tmpFd otherPages prev.cursor,
        .first prev.init⟩

section Order

variable {orderBy : ColMeta} {isDesc : Bool} {size fuel : Nat} {records sorted : List Bytes}

theorem flatten_blocks (hsize : 0 < size) (hfuel : records.length ≤ fuel) :
    (blocks size fuel records).flatten = records := by
  induction fuel generalizing records with
  | zero =>
    rw [List.length_eq_zero_iff.mp (Nat.le_zero.mp hfuel)]
    rfl
  | succ fuel ih =>
    rw [blocks]
    split
    next hempty => rw [List.isEmpty_iff.mp hempty, List.flatten_nil]
    next hne =>
      have hpos : 0 < records.length := List.length_pos_of_ne_nil fun h => hne (by simp [h])
      have hrest : (records.drop size).length ≤ fuel := by
        rw [List.length_drop]
        omega
      rw [List.flatten_cons, ih hrest, List.take_append_drop]

theorem sortBlock_perm (h : sortBlock orderBy isDesc records = some sorted) :
    sorted.Perm records := by
  unfold sortBlock at h
  split at h
  next =>
    cases h
    exact List.perm_insertionSort _ records
  next => cases h

theorem sortBlocks_perm (hsize : 0 < size)
    (h : sortBlocks orderBy isDesc size records = some sorted) : sorted.Perm records := by
  obtain ⟨parts, hparts, rfl⟩ := Option.map_eq_some_iff.mp h
  have hall := (MapM.forall₂_of_mapM hparts).imp fun _ _ hblock => (sortBlock_perm hblock).symm
  have hperm := (List.Perm.flatten_congr hall).symm
  rw [flatten_blocks hsize (Nat.le_refl _)] at hperm
  exact hperm

theorem mem_of_mem_blocks (hsize : 0 < size) {part : List Bytes}
    (hpart : part ∈ blocks size records.length records) {record : Bytes} (h : record ∈ part) :
    record ∈ records := by
  rw [← flatten_blocks hsize (Nat.le_refl records.length)]
  exact List.mem_flatten.mpr ⟨part, hpart, h⟩

/-- Values with an order can be sorted. -/
theorem sortBlocks_returns (hsize : 0 < size)
    (h : ∀ record ∈ records, (orderBy.read record).isSome) :
    ∃ sorted, sortBlocks orderBy isDesc size records = some sorted := by
  have hparts : ∀ part ∈ blocks size records.length records,
      ∃ sorted, sortBlock orderBy isDesc part = some sorted := by
    intro part hpart
    refine ⟨_, if_pos (Or.inr ?_)⟩
    exact List.all_eq_true.mpr fun record hrecord => h record (mem_of_mem_blocks hsize hpart hrecord)
  obtain ⟨parts, hall⟩ := MapM.exists_forall₂ hparts
  exact ⟨parts.flatten, by rw [sortBlocks, MapM.mapM_of_forall₂ hall, Option.map_some]⟩

end Order

namespace SortPages

variable {t : Nat} {pages : SortPages} {blank data : Bytes} {offset idx : Nat}
  {tuples : List Bytes}

theorem place_inj (h : offset / t = idx / t) (h' : offset % t = idx % t) : offset = idx := by
  rw [← Nat.div_add_mod offset t, h, h', Nat.div_add_mod]

@[simp] theorem getTuple_modifyTuple_self :
    (pages.modifyTuple t offset data).getTuple t offset = data := by
  simp [modifyTuple, getTuple]

theorem getTuple_modifyTuple_of_ne (h : idx ≠ offset) :
    (pages.modifyTuple t offset data).getTuple t idx = pages.getTuple t idx := by
  unfold modifyTuple getTuple
  simp only
  by_cases hpage : idx / t = offset / t
  · have hslot : idx % t ≠ offset % t := fun hslot => h (place_inj hpage hslot)
    rw [hpage, Function.update_self, Function.update_of_ne hslot]
  · rw [Function.update_of_ne hpage]

/-- Overwriting changes just the tuples of its range. -/
theorem getTuple_modifyTuples (tuples : List Bytes) (offset : Nat) (pages : SortPages) (idx : Nat) :
    (modifyTuples t offset tuples pages).getTuple t idx =
      if offset ≤ idx then tuples.getD (idx - offset) (pages.getTuple t idx)
      else pages.getTuple t idx := by
  induction tuples generalizing offset pages with
  | nil => simp [modifyTuples]
  | cons tuple tuples ih =>
    rw [modifyTuples, ih]
    by_cases hlt : offset + 1 ≤ idx
    · have hne : idx ≠ offset := by omega
      rw [if_pos hlt, if_pos (by omega), getTuple_modifyTuple_of_ne hne]
      have hidx : idx - offset = (idx - (offset + 1)) + 1 := by omega
      rw [hidx, List.getD_cons_succ]
    · by_cases heq : idx = offset
      · subst heq
        rw [if_neg hlt, if_pos (Nat.le_refl idx), getTuple_modifyTuple_self, Nat.sub_self,
          List.getD_cons_zero]
      · rw [if_neg hlt, if_neg (by omega), getTuple_modifyTuple_of_ne heq]

theorem count_modifyTuples (tuples : List Bytes) (offset : Nat) (pages : SortPages) :
    (modifyTuples t offset tuples pages).count = pages.count := by
  induction tuples generalizing offset pages with
  | nil => rfl
  | cons tuple tuples ih =>
    rw [modifyTuples, ih]
    rfl

/-- The pages of a first run go as far as the tuples that are in. -/
def Fresh (t : Nat) (pages : SortPages) (offset : Nat) : Prop :=
  pages.count = (offset + t - 1) / t

theorem insertTuple_fresh (ht : 0 < t) (h : pages.Fresh t offset) :
    (pages.insertTuple t blank offset data).Fresh t (offset + 1) ∧
      (pages.insertTuple t blank offset data).getTuple t offset = data ∧
      ∀ idx < offset, (pages.insertTuple t blank offset data).getTuple t idx =
        pages.getTuple t idx := by
  have hdiv := Nat.div_add_mod offset t
  have hmod := Nat.mod_lt offset ht
  by_cases hslot : offset % t = 0
  · have hcount : pages.count = offset / t := by
      rw [Fresh] at h
      rw [h]
      have heq : offset + t - 1 = t * (offset / t) + (t - 1) := by omega
      have hsmall : (t - 1) / t = 0 := Nat.div_eq_of_lt (by omega)
      rw [heq, Nat.mul_add_div ht, hsmall, Nat.add_zero]
    unfold insertTuple
    rw [if_pos hslot]
    refine ⟨?_, ?_, fun idx hidx => ?_⟩
    · show pages.count + 1 = _
      have heq : offset + 1 + t - 1 = t * (offset / t + 1) := by
        rw [Nat.mul_add, Nat.mul_one]
        omega
      rw [hcount, heq, Nat.mul_div_cancel_left _ ht]
    · simp [getTuple, hcount, hslot]
    · have hpage : idx / t ≠ pages.count := by
        intro heq
        rw [hcount] at heq
        have hi := Nat.div_add_mod idx t
        rw [heq] at hi
        omega
      simp [getTuple, Function.update_of_ne hpage]
  · unfold insertTuple
    rw [if_neg hslot]
    refine ⟨?_, getTuple_modifyTuple_self, fun idx hidx => ?_⟩
    · show pages.count = _
      rw [Fresh] at h
      rw [h]
      have heq : offset + t - 1 = t * (offset / t + 1) + (offset % t - 1) := by
        rw [Nat.mul_add, Nat.mul_one]
        omega
      have heq' : offset + 1 + t - 1 = t * (offset / t + 1) + offset % t := by
        rw [Nat.mul_add, Nat.mul_one]
        omega
      have hsmall : (offset % t - 1) / t = 0 := Nat.div_eq_of_lt (by omega)
      have hsmall' : offset % t / t = 0 := Nat.div_eq_of_lt hmod
      rw [heq, heq', Nat.mul_add_div ht, Nat.mul_add_div ht, hsmall, hsmall']
    · exact getTuple_modifyTuple_of_ne (Nat.ne_of_lt hidx)

theorem insertTuples_fresh (ht : 0 < t) (h : pages.Fresh t offset) :
    (insertTuples t blank offset tuples pages).Fresh t (offset + tuples.length) ∧
      ∀ idx < offset + tuples.length, (insertTuples t blank offset tuples pages).getTuple t idx =
        if offset ≤ idx then tuples.getD (idx - offset) [] else pages.getTuple t idx := by
  induction tuples generalizing offset pages with
  | nil =>
    refine ⟨h, fun idx hidx => ?_⟩
    rw [if_neg (by simpa using hidx)]
    rfl
  | cons tuple tuples ih =>
    obtain ⟨hfresh, hself, hbefore⟩ := insertTuple_fresh ht h
    obtain ⟨hfresh', hall⟩ := ih hfresh
    have hlen : offset + (tuple :: tuples).length = offset + 1 + tuples.length := by
      rw [List.length_cons]
      omega
    rw [hlen, insertTuples]
    refine ⟨hfresh', fun idx hidx => ?_⟩
    rw [hall idx hidx]
    by_cases hlt : offset + 1 ≤ idx
    · have hidx' : idx - offset = (idx - (offset + 1)) + 1 := by omega
      rw [if_pos hlt, if_pos (by omega), hidx', List.getD_cons_succ]
    · rw [if_neg hlt]
      by_cases heq : idx = offset
      · subst heq
        rw [if_pos (Nat.le_refl idx), hself, Nat.sub_self, List.getD_cons_zero]
      · rw [if_neg (by omega), hbefore idx (by omega)]

/-- In a later run the tuples at the start of a page go to a page that is never read. -/
theorem insertTuples_stale {bound : Nat} (ht : 0 < t) (hcount : bound ≤ pages.count * t)
    (hbound : offset + tuples.length ≤ bound) :
    bound ≤ (insertTuples t blank offset tuples pages).count * t ∧
      ∀ idx < bound, (insertTuples t blank offset tuples pages).getTuple t idx =
        if offset ≤ idx ∧ idx % t ≠ 0 then tuples.getD (idx - offset) (pages.getTuple t idx)
        else pages.getTuple t idx := by
  induction tuples generalizing offset pages with
  | nil =>
    refine ⟨hcount, fun idx _ => ?_⟩
    simp [insertTuples]
  | cons tuple tuples ih =>
    rw [List.length_cons] at hbound
    have hstep : bound ≤ (pages.insertTuple t blank offset tuple).count * t ∧
        ∀ idx < bound, (pages.insertTuple t blank offset tuple).getTuple t idx =
          if idx = offset ∧ idx % t ≠ 0 then tuple else pages.getTuple t idx := by
      unfold insertTuple
      by_cases hslot : offset % t = 0
      · rw [if_pos hslot]
        refine ⟨hcount.trans (Nat.mul_le_mul_right t (Nat.le_succ _)), fun idx hidx => ?_⟩
        have hpage : idx / t ≠ pages.count := by
          have := (Nat.div_lt_iff_lt_mul ht).mpr (Nat.lt_of_lt_of_le hidx hcount)
          omega
        rw [if_neg (fun h => h.2 (h.1 ▸ hslot))]
        simp [getTuple, Function.update_of_ne hpage]
      · rw [if_neg hslot]
        refine ⟨hcount, fun idx hidx => ?_⟩
        by_cases heq : idx = offset
        · subst heq
          rw [if_pos ⟨rfl, hslot⟩, getTuple_modifyTuple_self]
        · rw [if_neg (fun h => heq h.1), getTuple_modifyTuple_of_ne heq]
    obtain ⟨hcount', hget⟩ := hstep
    have hbound' : offset + 1 + tuples.length ≤ bound := by omega
    obtain ⟨hcount'', hall⟩ := ih hcount' hbound'
    refine ⟨hcount'', fun idx hidx => ?_⟩
    rw [insertTuples, hall idx hidx, hget idx hidx]
    by_cases hslot : idx % t = 0
    · simp [hslot]
    · by_cases hlt : offset + 1 ≤ idx
      · have hidx' : idx - offset = (idx - (offset + 1)) + 1 := by omega
        have hne : idx ≠ offset := by omega
        have hle : offset ≤ idx := by omega
        rw [if_pos ⟨hlt, hslot⟩, if_neg (fun h => hne h.1), if_pos ⟨hle, hslot⟩, hidx',
          List.getD_cons_succ]
      · by_cases heq : idx = offset
        · subst heq
          rw [if_neg (fun h => hlt h.1), if_pos ⟨rfl, hslot⟩, if_pos ⟨Nat.le_refl idx, hslot⟩,
            Nat.sub_self, List.getD_cons_zero]
        · have hbefore : ¬offset ≤ idx := by omega
          rw [if_neg (fun h => hlt h.1), if_neg (fun h => heq h.1), if_neg (fun h => hbefore h.1)]

end SortPages

section Load

variable (orderBy : ColMeta) (t : Nat) (blank : Bytes) (sorted : List Bytes)

def sortNumPages : Nat := (sorted.length + t - 1) / t

/-- What the merge leaves in the second district. Up to `BLOCK_SIZE_MIN` pages are one block, and
up to twice as many take one pass. -/
def mergedOnce : List Bytes :=
  if sortNumPages t sorted ≤ BLOCK_SIZE_MIN then []
  else
    mergePass orderBy (BLOCK_SIZE_MIN * t) sorted.length
      ((sortNumPages t sorted + BLOCK_SIZE_MIN - 1) / BLOCK_SIZE_MIN) sorted
      ((sortNumPages t sorted + BLOCK_SIZE_MIN - 1) / BLOCK_SIZE_MIN) 0 []

/-- The tuples of both districts after a run. -/
def loadedTuple (idx : Nat) : Bytes :=
  if idx < sorted.length then sorted.getD idx []
  else (mergedOnce orderBy t sorted).getD (idx - sorted.length) blank

/-- How far a run writes. -/
def loadBound : Nat := if sortNumPages t sorted = 1 then sorted.length else 2 * sorted.length

/-- The pages before a run: there are none, or the first tuple of every page is in already. -/
def Loadable (pages : SortPages) : Prop :=
  pages.count = 0 ∨
    (loadBound t sorted ≤ pages.count * t ∧
      ∀ idx < loadBound t sorted, idx % t = 0 →
        pages.getTuple t idx = loadedTuple orderBy t blank sorted idx)

def Loaded (pages : SortPages) : Prop :=
  loadBound t sorted ≤ pages.count * t ∧
    ∀ idx < loadBound t sorted, pages.getTuple t idx = loadedTuple orderBy t blank sorted idx

/-- The tuples of a run as they are read. -/
def sortedRows : List Bytes :=
  if sortNumPages t sorted ≤ BLOCK_SIZE_MIN then sorted
  else
    (List.range sorted.length).map fun i => (mergedOnce orderBy t sorted).getD i blank

variable {orderBy t blank sorted} {pages : SortPages}

theorem SortPages.Fresh.room (ht : 0 < t) {offset : Nat} (h : pages.Fresh t offset) :
    offset ≤ pages.count * t := by
  rw [SortPages.Fresh] at h
  rw [h, Nat.mul_comm]
  have hdiv := Nat.div_add_mod (offset + t - 1) t
  have hmod := Nat.mod_lt (offset + t - 1) ht
  omega

theorem length_le_loadBound : sorted.length ≤ loadBound t sorted := by
  unfold loadBound
  split
  next => exact Nat.le_refl _
  next => omega

theorem loadedTuple_of_lt {idx : Nat} (h : idx < sorted.length) (d : Bytes) :
    loadedTuple orderBy t blank sorted idx = sorted.getD idx d := by
  rw [loadedTuple, if_pos h, List.getD_eq_getElem _ _ h, List.getD_eq_getElem _ _ h]

/-- The run up to where the sorted tuples are in. -/
theorem insertSorted_loadable (ht : 0 < t) (h : Loadable orderBy t blank sorted pages) :
    let pages' := SortPages.insertTuples t blank 0 sorted pages
    (pages'.Fresh t sorted.length ∨
      (loadBound t sorted ≤ pages'.count * t ∧
        ∀ idx < loadBound t sorted, idx % t = 0 →
          pages'.getTuple t idx = loadedTuple orderBy t blank sorted idx)) ∧
    ∀ idx < sorted.length, pages'.getTuple t idx = sorted.getD idx [] := by
  rcases h with hnone | ⟨hcount, hkept⟩
  · have hfresh : pages.Fresh t 0 := by
      rw [SortPages.Fresh, hnone, Nat.zero_add]
      exact (Nat.div_eq_of_lt (by omega)).symm
    obtain ⟨hfresh', hget⟩ := @SortPages.insertTuples_fresh t pages blank 0 sorted ht hfresh
    rw [Nat.zero_add] at hfresh' hget
    refine ⟨Or.inl hfresh', fun idx hidx => ?_⟩
    rw [hget idx hidx, if_pos (Nat.zero_le idx), Nat.sub_zero]
  · have hle : 0 + sorted.length ≤ loadBound t sorted := by
      rw [Nat.zero_add]
      exact length_le_loadBound
    obtain ⟨hcount', hget⟩ := @SortPages.insertTuples_stale t pages blank 0 sorted _ ht hcount hle
    refine ⟨Or.inr ⟨hcount', fun idx hidx hslot => ?_⟩, fun idx hidx => ?_⟩
    · rw [hget idx hidx, if_neg (fun h => h.2 hslot), hkept idx hidx hslot]
    · have hidx' : idx < loadBound t sorted := Nat.lt_of_lt_of_le hidx length_le_loadBound
      rw [hget idx hidx']
      by_cases hslot : idx % t = 0
      · rw [if_neg (fun h => h.2 hslot), hkept idx hidx' hslot, loadedTuple_of_lt hidx []]
      · rw [if_pos ⟨Nat.zero_le idx, hslot⟩, Nat.sub_zero, List.getD_eq_getElem _ _ hidx,
          List.getD_eq_getElem _ _ hidx]

/-- The run up to where the second district is blank. -/
theorem insertBlanks_loadable (ht : 0 < t) (h : Loadable orderBy t blank sorted pages)
    (hbound : loadBound t sorted = 2 * sorted.length) :
    let pages' := SortPages.insertTuples t blank sorted.length
      (List.replicate sorted.length blank) (SortPages.insertTuples t blank 0 sorted pages)
    2 * sorted.length ≤ pages'.count * t ∧
      (∀ idx < sorted.length, pages'.getTuple t idx = sorted.getD idx []) ∧
      ∀ idx, sorted.length ≤ idx → idx < 2 * sorted.length → pages'.getTuple t idx = blank ∨
        pages'.getTuple t idx = loadedTuple orderBy t blank sorted idx := by
  have hlen : sorted.length + (List.replicate sorted.length blank).length = 2 * sorted.length := by
    rw [List.length_replicate]
    omega
  obtain ⟨hpages, hfirst⟩ := insertSorted_loadable ht h
  have hblank : ∀ idx, sorted.length ≤ idx → idx < 2 * sorted.length → ∀ d,
      (List.replicate sorted.length blank).getD (idx - sorted.length) d = blank := by
    intro idx hge hlt d
    rw [List.getD_eq_getElem _ _ (by rw [List.length_replicate]; omega), List.getElem_replicate]
  rcases hpages with hfresh | ⟨hcount, hkept⟩
  · obtain ⟨hfresh', hget⟩ := @SortPages.insertTuples_fresh t _ blank sorted.length
      (List.replicate sorted.length blank) ht hfresh
    rw [hlen] at hfresh' hget
    refine ⟨hfresh'.room ht, fun idx hidx => ?_, fun idx hge hlt => Or.inl ?_⟩
    · rw [hget idx (by omega), if_neg (by omega), hfirst idx hidx]
    · rw [hget idx hlt, if_pos hge, hblank idx hge hlt]
  · rw [hbound] at hcount hkept
    obtain ⟨hcount', hget⟩ := @SortPages.insertTuples_stale t _ blank sorted.length _ _ ht hcount
      hlen.le
    refine ⟨hcount', fun idx hidx => ?_, fun idx hge hlt => ?_⟩
    · have hnot : ¬sorted.length ≤ idx := by omega
      rw [hget idx (by omega), if_neg (fun h => hnot h.1), hfirst idx hidx]
    · by_cases hslot : idx % t = 0
      · right
        rw [hget idx hlt, if_neg (fun h => h.2 hslot), hkept idx hlt hslot]
      · left
        rw [hget idx hlt, if_pos ⟨hge, hslot⟩, hblank idx hge hlt]

theorem SortPages.district_eq (h : ∀ idx < sorted.length, pages.getTuple t idx = sorted.getD idx []) :
    pages.district t sorted.length 0 = sorted := by
  refine List.ext_getElem (by simp [SortPages.district]) fun i hi hi' => ?_
  simp only [SortPages.district, List.getElem_map, List.getElem_range, Nat.zero_mul, Nat.add_zero]
  rw [h i hi', List.getD_eq_getElem _ _ hi']

theorem mergePasses_one_block {numPages tupleNum fuel : Nat} (h : numPages ≤ BLOCK_SIZE_MIN) :
    mergePasses orderBy t tupleNum numPages fuel BLOCK_SIZE_MIN 0 1 pages = (pages, 0) := by
  cases fuel with
  | zero => rfl
  | succ fuel => rw [mergePasses, if_neg (by omega)]

theorem mergePasses_two_blocks {numPages tupleNum : Nat} (h : BLOCK_SIZE_MIN < numPages)
    (h' : numPages ≤ 2 * BLOCK_SIZE_MIN) :
    mergePasses orderBy t tupleNum numPages numPages BLOCK_SIZE_MIN 0 1 pages =
      (SortPages.modifyTuples t tupleNum
        (mergePass orderBy (BLOCK_SIZE_MIN * t) tupleNum
          ((numPages + BLOCK_SIZE_MIN - 1) / BLOCK_SIZE_MIN) (pages.district t tupleNum 0)
          ((numPages + BLOCK_SIZE_MIN - 1) / BLOCK_SIZE_MIN) 0 []) pages, 1) := by
  obtain ⟨fuel, rfl⟩ : ∃ fuel, numPages = fuel + 2 := ⟨numPages - 2, by
    unfold BLOCK_SIZE_MIN at h
    omega⟩
  rw [mergePasses, if_pos h, mergePasses, if_neg (by omega), Nat.one_mul]

theorem loadSorted_eq : loadSorted orderBy t blank sorted pages =
    if sortNumPages t sorted = 1 then (SortPages.insertTuples t blank 0 sorted pages, 0)
    else
      mergePasses orderBy t sorted.length (sortNumPages t sorted) (sortNumPages t sorted)
        BLOCK_SIZE_MIN 0 1
        (SortPages.insertTuples t blank sorted.length (List.replicate sorted.length blank)
          (SortPages.insertTuples t blank 0 sorted pages)) := rfl

theorem loadSorted_loaded (ht : 0 < t) (hpages : sortNumPages t sorted ≤ 2 * BLOCK_SIZE_MIN)
    (h : Loadable orderBy t blank sorted pages) :
    Loaded orderBy t blank sorted (loadSorted orderBy t blank sorted pages).1 ∧
      (loadSorted orderBy t blank sorted pages).2 =
        if sortNumPages t sorted ≤ BLOCK_SIZE_MIN then 0 else 1 := by
  rw [loadSorted_eq]
  by_cases hone : sortNumPages t sorted = 1
  · -- one page, and the second district is not written
    obtain ⟨hfirst, hget⟩ := insertSorted_loadable ht h
    have hbound : loadBound t sorted = sorted.length := if_pos hone
    have hcount : loadBound t sorted ≤
        (SortPages.insertTuples t blank 0 sorted pages).count * t := by
      rcases hfirst with hfresh | ⟨hcount, -⟩
      · rw [hbound]
        exact hfresh.room ht
      · exact hcount
    rw [if_pos hone]
    refine ⟨⟨hcount, fun idx hidx => ?_⟩, ?_⟩
    · rw [hbound] at hidx
      rw [hget idx hidx, loadedTuple_of_lt hidx []]
    · rw [if_pos (by rw [hone]; decide)]
  · have hbound : loadBound t sorted = 2 * sorted.length := if_neg hone
    obtain ⟨hcount, hfirst, hsecond⟩ := insertBlanks_loadable ht h hbound
    rw [if_neg hone]
    by_cases hblock : sortNumPages t sorted ≤ BLOCK_SIZE_MIN
    · have hnone : mergedOnce orderBy t sorted = [] := if_pos hblock
      rw [if_pos hblock, mergePasses_one_block hblock]
      refine ⟨⟨hbound ▸ hcount, fun idx hidx => ?_⟩, rfl⟩
      by_cases hlt : idx < sorted.length
      · rw [hfirst idx hlt, loadedTuple_of_lt hlt []]
      · have hloaded : loadedTuple orderBy t blank sorted idx = blank := by
          rw [loadedTuple, if_neg hlt, hnone, List.getD_nil]
        rw [hloaded]
        rcases hsecond idx (by omega) (hbound ▸ hidx) with hb | hl
        · exact hb
        · exact hl.trans hloaded
    · rw [if_neg hblock]
      have hmerge := @mergePasses_two_blocks orderBy t
        (SortPages.insertTuples t blank sorted.length (List.replicate sorted.length blank)
          (SortPages.insertTuples t blank 0 sorted pages)) (sortNumPages t sorted) sorted.length
        (by omega) hpages
      rw [SortPages.district_eq hfirst] at hmerge
      have hwritten : mergedOnce orderBy t sorted = mergePass orderBy (BLOCK_SIZE_MIN * t)
          sorted.length ((sortNumPages t sorted + BLOCK_SIZE_MIN - 1) / BLOCK_SIZE_MIN) sorted
          ((sortNumPages t sorted + BLOCK_SIZE_MIN - 1) / BLOCK_SIZE_MIN) 0 [] := if_neg hblock
      rw [← hwritten] at hmerge
      rw [hmerge]
      refine ⟨⟨?_, fun idx hidx => ?_⟩, rfl⟩
      · rw [SortPages.count_modifyTuples, hbound]
        exact hcount
      · rw [SortPages.getTuple_modifyTuples]
        by_cases hlt : idx < sorted.length
        · rw [if_neg (by omega), hfirst idx hlt, loadedTuple_of_lt hlt []]
        · rw [if_pos (by omega), loadedTuple, if_neg hlt]
          by_cases hin : idx - sorted.length < (mergedOnce orderBy t sorted).length
          · rw [List.getD_eq_getElem _ _ hin, List.getD_eq_getElem _ _ hin]
          · have hout := Nat.le_of_not_lt hin
            rw [List.getD_eq_default _ _ hout, List.getD_eq_default _ _ hout]
            rcases hsecond idx (by omega) (hbound ▸ hidx) with hb | hl
            · exact hb
            · rw [hl, loadedTuple, if_neg hlt, List.getD_eq_default _ _ hout]

@[simp] theorem length_sortedRows : (sortedRows orderBy t blank sorted).length = sorted.length := by
  unfold sortedRows
  split
  next => rfl
  next => simp

theorem Loaded.getTuple_eq (h : Loaded orderBy t blank sorted pages) {i : Nat}
    (hi : i < (sortedRows orderBy t blank sorted).length) :
    pages.getTuple t (i + (if sortNumPages t sorted ≤ BLOCK_SIZE_MIN then 0 else 1) * sorted.length) =
      (sortedRows orderBy t blank sorted)[i] := by
  have hlen : i < sorted.length := by simpa using hi
  by_cases hblock : sortNumPages t sorted ≤ BLOCK_SIZE_MIN
  · have hrows : sortedRows orderBy t blank sorted = sorted := if_pos hblock
    have hidx : i < loadBound t sorted := Nat.lt_of_lt_of_le hlen length_le_loadBound
    rw [if_pos hblock, Nat.zero_mul, Nat.add_zero, h.2 i hidx, loadedTuple_of_lt hlen [],
      List.getD_eq_getElem _ _ hlen]
    simp only [hrows]
  · have hbound : loadBound t sorted = 2 * sorted.length := by
      refine if_neg fun hone => hblock ?_
      rw [hone]
      decide
    have hidx : i + 1 * sorted.length < loadBound t sorted := by omega
    have hnot : ¬i + 1 * sorted.length < sorted.length := by omega
    have hback : i + 1 * sorted.length - sorted.length = i := by omega
    rw [if_neg hblock, h.2 _ hidx, loadedTuple, if_neg hnot, hback]
    simp only [sortedRows, if_neg hblock, List.getElem_map, List.getElem_range]

end Load

section Walk

variable {prev : Cursor Bytes} {p₀ : prev.State} {rows sorted : List Bytes}
  {At : List Bytes → prev.State → Prop} {orderBy : ColMeta} {isDesc : Bool} {t tupleLen fuel : Nat}
  {tmpFd : Nat → Nat} {otherPages : Nat → Option (Nat → Option Bytes)}

/-- The first run, and every later one as long as the descriptor stays the same. -/
theorem sortCursor_start {s : SortState prev.State} {p p' : prev.State}
    (hstart : prev.start s.prev = some p) (hcollect : prev.collect fuel p = some (rows, p'))
    (hsort : sortBlocks orderBy isDesc (BLOCK_SIZE_MIN * t) rows = some sorted)
    (hfd : ∀ n < s.runs + 1, tmpFd n = tmpFd 0) :
    (sortCursor fuel orderBy isDesc t tupleLen tmpFd otherPages prev).start s =
      some ⟨p', (loadSorted orderBy t (List.replicate tupleLen 0) sorted s.pages).1, 0,
        sorted.length, (loadSorted orderBy t (List.replicate tupleLen 0) sorted s.pages).2,
        s.runs + 1, none⟩ := by
  simp only [sortCursor, hstart, Option.bind_some, hcollect, hsort, if_pos hfd]

structure SortAt (At : List Bytes → prev.State → Prop) (orderBy : ColMeta) (t : Nat) (blank : Bytes)
    (sorted rest : List Bytes) (s : SortState prev.State) : Prop where
  prev : At [] s.prev
  loaded : Loaded orderBy t blank sorted s.pages
  tupleNum : s.tupleNum = sorted.length
  district : s.currDistrict = if sortNumPages t sorted ≤ BLOCK_SIZE_MIN then 0 else 1
  own : s.other = none
  curTup : s.curTup ≤ sorted.length
  rest : (sortedRows orderBy t blank sorted).drop s.curTup = rest

/-- A sort over a walk delivers the same records in every run as long as one pass merges the
blocks and every run gets the descriptor of the first. -/
theorem sortCursor_walks (h : prev.Walks p₀ rows At) (hfuel : rows.length ≤ fuel)
    (hsort : sortBlocks orderBy isDesc (BLOCK_SIZE_MIN * t) rows = some sorted) (ht : 0 < t)
    (hpages : sortNumPages t sorted ≤ 2 * BLOCK_SIZE_MIN) (hfd : ∀ n, tmpFd n = tmpFd 0) :
    (sortCursor fuel orderBy isDesc t tupleLen tmpFd otherPages prev).Walks (.first p₀)
      (sortedRows orderBy t (List.replicate tupleLen 0) sorted)
      (SortAt At orderBy t (List.replicate tupleLen 0) sorted) := by
  constructor
  · intro s hs
    have hready : (s.prev = p₀ ∨ ∃ rest, At rest s.prev) ∧
        Loadable orderBy t (List.replicate tupleLen 0) sorted s.pages := by
      rcases hs with rfl | ⟨rest, hat⟩
      · exact ⟨Or.inl rfl, Or.inl rfl⟩
      · exact ⟨Or.inr ⟨[], hat.prev⟩, Or.inr ⟨hat.loaded.1, fun idx hidx _ => hat.loaded.2 idx hidx⟩⟩
    obtain ⟨p, hstart, hp⟩ := h.start s.prev hready.1
    obtain ⟨p', hcollect, hp'⟩ := h.collect hp hfuel
    obtain ⟨hloaded, hdistrict⟩ := loadSorted_loaded ht hpages hready.2
    exact ⟨_, sortCursor_start hstart hcollect hsort fun n _ => hfd n,
      ⟨hp', hloaded, rfl, hdistrict, rfl, Nat.zero_le _, rfl⟩⟩
  · intro rest s hat
    have hlen : rest.length = sorted.length - s.curTup := by
      rw [← hat.rest, List.length_drop, length_sortedRows]
    have hcur := hat.curTup
    simp only [sortCursor, hat.tupleNum]
    cases rest with
    | nil =>
      rw [List.length_nil] at hlen
      exact decide_eq_true (by omega)
    | cons r rest =>
      rw [List.length_cons] at hlen
      exact decide_eq_false (by omega)
  · intro r rest s hat
    refine ⟨s, ?_, hat⟩
    have hcur : s.curTup < (sortedRows orderBy t (List.replicate tupleLen 0) sorted).length := by
      by_contra hge
      have hnil := List.drop_eq_nil_of_le (Nat.le_of_not_lt hge)
      rw [hat.rest] at hnil
      cases hnil
    have hhead := hat.rest
    rw [List.drop_eq_getElem_cons hcur] at hhead
    cases hhead
    simp only [sortCursor, hat.own, hat.tupleNum, hat.district, Option.map_some]
    rw [hat.loaded.getTuple_eq hcur]
  · intro r rest s hat
    refine ⟨{ s with curTup := s.curTup + 1 }, rfl, ⟨hat.prev, hat.loaded, hat.tupleNum,
      hat.district, hat.own, ?_, ?_⟩⟩
    · have hlen := congrArg List.length hat.rest
      rw [List.length_drop, length_sortedRows, List.length_cons] at hlen
      show s.curTup + 1 ≤ sorted.length
      omega
    · show (sortedRows orderBy t _ sorted).drop (s.curTup + 1) = rest
      rw [← List.tail_drop, hat.rest]
      rfl

/-- A sort that gets through its blocks has as many records in every run as its input, of whatever
size, if every run gets the descriptor of the first. -/
theorem sortCursor_counts (h : prev.Walks p₀ rows At) (hfuel : rows.length ≤ fuel)
    (hsort : sortBlocks orderBy isDesc (BLOCK_SIZE_MIN * t) rows = some sorted) (ht : 0 < t)
    (hfd : ∀ n, tmpFd n = tmpFd 0) :
    ((sortCursor fuel orderBy isDesc t tupleLen tmpFd otherPages prev).map fun _ => ()).Walks
      (.first p₀) (List.replicate rows.length ())
      fun rest s => At [] s.prev ∧ s.other = none ∧ s.curTup + rest.length = s.tupleNum := by
  have hlen : sorted.length = rows.length :=
    (sortBlocks_perm (Nat.mul_pos (by decide) ht) hsort).length_eq
  constructor
  · intro s hs
    have hready : s.prev = p₀ ∨ ∃ rest, At rest s.prev := by
      rcases hs with rfl | ⟨rest, hat⟩
      · exact Or.inl rfl
      · exact Or.inr ⟨[], hat.1⟩
    obtain ⟨p, hstart, hp⟩ := h.start s.prev hready
    obtain ⟨p', hcollect, hp'⟩ := h.collect hp hfuel
    refine ⟨_, sortCursor_start hstart hcollect hsort fun n _ => hfd n, hp', rfl, ?_⟩
    rw [List.length_replicate, Nat.zero_add, hlen]
  · rintro rest s ⟨-, -, hcount⟩
    show decide (s.curTup = s.tupleNum) = rest.isEmpty
    cases rest with
    | nil => exact decide_eq_true hcount
    | cons r rest =>
      rw [List.length_cons] at hcount
      exact decide_eq_false (by omega)
  · rintro r rest s ⟨hp, hown, hcount⟩
    refine ⟨s, ?_, hp, hown, hcount⟩
    simp [Cursor.map, sortCursor, hown]
  · rintro r rest s ⟨hp, hown, hcount⟩
    refine ⟨{ s with curTup := s.curTup + 1 }, rfl, hp, hown, ?_⟩
    rw [List.length_cons] at hcount
    show s.curTup + 1 + rest.length = s.tupleNum
    omega

end Walk

end Grmdb
