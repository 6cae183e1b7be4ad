import Grmdb.PointLookup
import Grmdb.ValueSearch

namespace Grmdb

variable {cols : List IxCol}

/-- A comparison that orders `α`: `compare a b ≤ 0` is a total order. -/
structure TotalCompare {α : Type} (compare : α → α → Int) : Prop where
  refl : ∀ a, compare a a = 0
  swap : ∀ a b, (compare b a).sign = -(compare a b).sign
  antisymm : ∀ a b, compare a b ≤ 0 → compare b a ≤ 0 → a = b
  trans : ∀ a b c, compare a b ≤ 0 → compare b c ≤ 0 → compare a c ≤ 0
  total : ∀ a b, compare a b ≤ 0 ∨ compare b a ≤ 0

/-- A comparison that agrees with a linear order in its sign. -/
theorem TotalCompare.of_order {α : Type} [LinearOrder α] {compare : α → α → Int}
    (neg : ∀ a b, compare a b < 0 ↔ a < b) (zero : ∀ a b, compare a b = 0 ↔ a = b) :
    TotalCompare compare := by
  have hle : ∀ a b, compare a b ≤ 0 ↔ a ≤ b := fun a b => by
    rw [Int.le_iff_lt_or_eq, neg, zero, le_iff_lt_or_eq]
  refine ⟨fun a => (zero a a).mpr rfl, fun a b => ?_, ?_, ?_, ?_⟩
  · rcases lt_trichotomy a b with h | h | h
    · have hpos : 0 < compare b a := not_le.mp fun hba => absurd h (not_lt.mpr ((hle b a).mp hba))
      rw [Int.sign_eq_one_of_pos hpos, Int.sign_eq_neg_one_of_neg ((neg a b).mpr h), neg_neg]
    · subst h
      rw [(zero a a).mpr rfl]
      rfl
    · have hpos : 0 < compare a b := not_le.mp fun hab => absurd h (not_lt.mpr ((hle a b).mp hab))
      rw [Int.sign_eq_one_of_pos hpos, Int.sign_eq_neg_one_of_neg ((neg b a).mpr h)]
  · intro a b hab hba
    exact le_antisymm ((hle a b).mp hab) ((hle b a).mp hba)
  · intro a b c hab hbc
    exact (hle a c).mpr (le_trans ((hle a b).mp hab) ((hle b c).mp hbc))
  · intro a b
    rw [hle, hle]
    exact le_total a b

/-- `memcmp` over equally many bytes finds a difference where there is one. -/
theorem memcmp_eq_zero_iff {a b : Bytes} (len : a.length = b.length) :
    memcmp a b = 0 ↔ a = b := by
  rw [(IxCol.memcmp_sign len).2]
  refine ⟨fun h => ?_, fun h => by rw [h]⟩
  refine (List.map_injective_iff.mpr fun x y hxy => ?_) h
  exact UInt8.toNat_inj.mp (Int.ofNat_inj.mp hxy)

namespace IxNode

variable (L : IxLayout (IxKey cols)) (n : IxNode (IxKey cols)) (key : IxKey cols)

/-- `ix_compare` of the key in slot `i` with `key`. -/
def judge (i : Nat) : Int := ixCompare cols (n.getKey L i).1 key.1

/-- Whether `memcmp` over `col_tot_len` bytes finds no difference between slot `i` and `key`. -/
def sameBytes (i : Nat) : Bool :=
  memcmp ((n.getKey L i).1.take (colTotLen cols)) (key.1.take (colTotLen cols)) = 0

/-- `lower_bound` for a key in bytes; `none` stands for -1. -/
def lowerBoundBytes : Option Nat :=
  let l := searchLoop (fun m => n.judge L key m < 0) n.size n.firstKey (n.size - 1)
  if n.judge L key l ≥ 0 then some l else none

/-- `upper_bound` for a key in bytes. -/
def upperBoundBytes : Option Nat :=
  let l := searchLoop (fun m => n.judge L key m ≤ 0) n.size n.firstKey (n.size - 1)
  if n.judge L key l > 0 then some l else none

/-- `internal_lookup` for a key in bytes. -/
def internalLookupBytes : PageNo :=
  match n.lowerBoundBytes L key with
  | none => n.valueAt L (n.size - 1)
  | some pos => if n.sameBytes L key pos then n.valueAt L pos else n.valueAt L (pos - 1)

/-- `insert` for a key in bytes; `none` is `IndexEntryExistsError`. -/
def insertBytes (value : Rid) : Option (IxNode (IxKey cols)) :=
  if n.size = 0 then some (n.insertAt 0 key value)
  else
    match n.lowerBoundBytes L key with
    | none => some (n.insertAt n.size key value)
    | some pos => if n.sameBytes L key pos then none else some (n.insertAt pos key value)

end IxNode

namespace IxFile

variable (L : IxLayout (IxKey cols)) (s : IxFile (IxKey cols)) (key : IxKey cols)

/-- The loop of `find_leaf_page` for a key in bytes. -/
def findLeafLoopBytes : Nat → PageNo → Option PageNo
  | 0, _ => none
  | fuel + 1, p =>
    (s.pages p).bind fun node =>
      if node.isLeaf then some p else findLeafLoopBytes fuel (node.internalLookupBytes L key)

def findLeafPageBytes : Option PageNo := findLeafLoopBytes L s key s.nextPageNo.toNat s.rootPage

/-- The collecting loop of `get_value`, which tests the slots with `memcmp`. -/
def collectRidsBytes (leaf : IxNode (IxKey cols)) : Nat → Nat → Option (List Rid)
  | 0, _ => none
  | fuel + 1, index =>
    if leaf.sameBytes L key index then
      (collectRidsBytes leaf fuel (index + 1)).map fun result => leaf.getRid L index :: result
    else some []

/-- `get_value` for a key in bytes. -/
def getValueBytes : Option (Bool × List Rid) :=
  (s.findLeafPageBytes L key).bind fun p =>
    (s.pages p).bind fun leaf =>
      match leaf.lowerBoundBytes L key with
      | none => some (false, [])
      | some index =>
        (collectRidsBytes L key leaf (L.btreeOrder + 1 - index) index).map fun result =>
          (!result.isEmpty, result)

/-- `delete_entry` for a key in bytes. -/
def deleteEntryBytes : Option (IxFile (IxKey cols)) :=
  (s.findLeafPageBytes L key).bind fun p =>
    (s.pages p).bind fun leaf =>
      (leaf.lowerBoundBytes L key).bind fun pos =>
        if leaf.sameBytes L key pos then
          coalesceOrRedistribute L s.nextPageNo.toNat (s.write p (leaf.erasePair pos)) p
        else some s

end IxFile

section Bytes

variable {L : IxLayout (IxKey cols)} {n : IxNode (IxKey cols)} {s : IxFile (IxKey cols)}
  {key : IxKey cols} {value : Rid}

/-- The equality tests and the comparisons find the same keys equal. -/
theorem ixCompare_zero_iff_memcmp (a b : IxKey cols) :
    ixCompare cols a.1 b.1 = 0 ↔
      memcmp (a.1.take (colTotLen cols)) (b.1.take (colTotLen cols)) = 0 := by
  rw [ixCompare_eq_zero_iff, List.take_of_length_le a.2.le, List.take_of_length_le b.2.le,
    memcmp_eq_zero_iff (a.2.trans b.2.symm)]
  exact Subtype.ext_iff

namespace IxNode

theorem judge_neg_iff {i : Nat} : n.judge L key i < 0 ↔ n.getKey L i < key :=
  ixCompare_neg_iff _ _

theorem judge_le_iff {i : Nat} : n.judge L key i ≤ 0 ↔ n.getKey L i ≤ key := by
  rw [judge, Int.le_iff_lt_or_eq, ixCompare_neg_iff, ixCompare_eq_zero_iff, le_iff_lt_or_eq]

theorem sameBytes_iff {i : Nat} : n.sameBytes L key i = true ↔ n.getKey L i = key := by
  rw [sameBytes, decide_eq_true_eq, ← ixCompare_zero_iff_memcmp, ixCompare_eq_zero_iff]

/-- The branch on the `memcmp` test is the one on equality, however that is decided. -/
theorem ite_sameBytes {α : Type} {i : Nat} {x y : α} {dec : Decidable (n.getKey L i = key)} :
    (if n.sameBytes L key i then x else y) = if n.getKey L i = key then x else y := by
  by_cases heq : n.getKey L i = key
  · rw [if_pos heq, if_pos (sameBytes_iff.mpr heq)]
  · rw [if_neg heq, if_neg (mt sameBytes_iff.mp heq)]

theorem lowerBoundBytes_eq : n.lowerBoundBytes L key = n.lowerBound L key := by
  have hloop := @searchLoop_lower cols (n.getKey L) key (fun m => n.judge L key m < 0) n.size
    n.firstKey (n.size - 1) fun m _ _ => decide_eq_decide.mpr judge_neg_iff
  simp only [lowerBoundBytes, lowerBound, hloop]
  by_cases hlt : n.getKey L (lowerBoundLoop (n.getKey L) key n.size n.firstKey (n.size - 1)) < key
  · rw [if_pos hlt, if_neg (not_le.mpr (judge_neg_iff.mpr hlt))]
  · rw [if_neg hlt, if_pos (not_lt.mp fun h => hlt (judge_neg_iff.mp h))]

theorem upperBoundBytes_eq : n.upperBoundBytes L key = n.upperBound L key := by
  have hloop := @searchLoop_upper cols (n.getKey L) key (fun m => n.judge L key m ≤ 0) n.size
    n.firstKey (n.size - 1) fun m _ _ => decide_eq_decide.mpr judge_le_iff
  simp only [upperBoundBytes, upperBound, hloop]
  by_cases hle : n.getKey L (upperBoundLoop (n.getKey L) key n.size n.firstKey (n.size - 1)) ≤ key
  · rw [if_neg (not_lt.mpr hle), if_neg (not_lt.mpr (judge_le_iff.mpr hle))]
  · rw [if_pos (not_le.mp hle), if_pos (not_le.mp fun h => hle (judge_le_iff.mp h))]

theorem internalLookupBytes_eq : n.internalLookupBytes L key = n.internalLookup L key := by
  unfold internalLookupBytes internalLookup
  rw [lowerBoundBytes_eq]
  cases n.lowerBound L key with
  | none => rfl
  | some pos => exact ite_sameBytes

theorem insertBytes_eq : n.insertBytes L key value = n.insert L key value := by
  unfold insertBytes insert
  rw [lowerBoundBytes_eq]
  refine if_congr Iff.rfl rfl ?_
  cases n.lowerBound L key with
  | none => rfl
  | some pos => exact ite_sameBytes

end IxNode

namespace IxFile

theorem findLeafPageBytes_eq : s.findLeafPageBytes L key = findLeafPage L s key := by
  have hloop : ∀ fuel p, findLeafLoopBytes L s key fuel p = findLeafLoop L s key fuel p := by
    intro fuel
    induction fuel with
    | zero => exact fun _ => rfl
    | succ fuel ih =>
      intro p
      simp only [findLeafLoopBytes, findLeafLoop, IxNode.internalLookupBytes_eq, ih]
  exact hloop _ _

theorem collectRidsBytes_eq (fuel index : Nat) :
    collectRidsBytes L key n fuel index = collectRids L n key fuel index := by
  induction fuel generalizing index with
  | zero => rfl
  | succ fuel ih =>
    unfold collectRidsBytes collectRids
    rw [ih]
    exact IxNode.ite_sameBytes

theorem getValueBytes_eq : s.getValueBytes L key = getValue L s key := by
  unfold getValueBytes getValue
  rw [findLeafPageBytes_eq]
  refine Option.bind_congr fun p _ => Option.bind_congr fun leaf _ => ?_
  rw [IxNode.lowerBoundBytes_eq]
  cases leaf.lowerBound L key with
  | none => rfl
  | some index =>
    dsimp only
    rw [collectRidsBytes_eq]

theorem deleteEntryBytes_eq : s.deleteEntryBytes L key = deleteEntry L s key := by
  unfold deleteEntryBytes deleteEntry
  rw [findLeafPageBytes_eq]
  refine Option.bind_congr fun p _ => Option.bind_congr fun leaf _ => ?_
  rw [IxNode.lowerBoundBytes_eq]
  exact Option.bind_congr fun pos _ => IxNode.ite_sameBytes

end IxFile

end Bytes

/-- `ix_compare` orders the keys of an index and finds those equal that have the same bytes, so
that searching with it and testing with `memcmp` is searching one linear order. -/
theorem ixCompare_totalOrder (cols : List IxCol) :
    TotalCompare (fun a b : IxKey cols => ixCompare cols a.1 b.1) ∧
      (∀ a b : IxKey cols, ixCompare cols a.1 b.1 = 0 ↔
        memcmp (a.1.take (colTotLen cols)) (b.1.take (colTotLen cols)) = 0) ∧
      ∀ (L : IxLayout (IxKey cols)) (key : IxKey cols),
        (∀ (n : IxNode (IxKey cols)) value, n.insertBytes L key value = n.insert L key value) ∧
          (∀ n : IxNode (IxKey cols), n.internalLookupBytes L key = n.internalLookup L key) ∧
          (∀ s : IxFile (IxKey cols), s.getValueBytes L key = IxFile.getValue L s key) ∧
          ∀ s : IxFile (IxKey cols), s.deleteEntryBytes L key = IxFile.deleteEntry L s key := by
  refine ⟨.of_order ixCompare_neg_iff ixCompare_eq_zero_iff, ixCompare_zero_iff_memcmp, ?_⟩
  intro L key
  refine ⟨fun n value => IxNode.insertBytes_eq, fun n => IxNode.internalLookupBytes_eq, ?_, ?_⟩
  · exact fun s => IxFile.getValueBytes_eq
  · exact fun s => IxFile.deleteEntryBytes_eq

end Grmdb
