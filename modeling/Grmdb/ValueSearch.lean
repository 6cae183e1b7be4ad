import Grmdb.IndexScan
import Grmdb.IndexValues

namespace Grmdb

variable {cols : List IxCol}

namespace IxNode

/-- The `while (l < r)` loop of a search, where `before m` is what it concludes from its
comparison with slot `m`. -/
def searchLoop (before : Nat → Bool) : Nat → Nat → Nat → Nat
  | 0, l, _ => l
  | fuel + 1, l, r =>
    if l < r then
      let m := (l + r) / 2
      if before m then searchLoop before fuel (m + 1) r else searchLoop before fuel l m
    else l

variable (L : IxLayout (IxKey cols)) (n : IxNode (IxKey cols)) (vals : List Value)

/-- `lower_bound` for values; `none` stands for -1. -/
def lowerBoundValues : Option Nat :=
  let before := fun m => decide (ixCompareValues cols (n.getKey L m).1 vals < 0)
  let l := searchLoop before n.size n.firstKey (n.size - 1)
  if before l then none else some l

/-- `upper_bound` for values. -/
def upperBoundValues : Option Nat :=
  let before := fun m => decide (ixCompareValues cols (n.getKey L m).1 vals ≤ 0)
  let l := searchLoop before n.size n.firstKey (n.size - 1)
  if before l then none else some l

/-- `internal_lookup` for values. -/
def internalLookupValues : PageNo :=
  match n.lowerBoundValues L vals with
  | none => n.valueAt L (n.size - 1)
  | some pos =>
    if ixCompareValues cols (n.getKey L pos).1 vals ≠ 0 then n.valueAt L (pos - 1)
    else n.valueAt L pos

end IxNode

namespace IxFile

variable (L : IxLayout (IxKey cols)) (s : IxFile (IxKey cols)) (vals : List Value)

/-- The loop with which `lower_bound` and `upper_bound` go down for values. -/
def findLeafLoopValues : Nat → PageNo → Option PageNo
  | 0, _ => none
  | fuel + 1, p =>
    (s.pages p).bind fun node =>
      if node.isLeaf then some p else findLeafLoopValues fuel (node.internalLookupValues L vals)

def findLeafValues : Option PageNo := findLeafLoopValues L s vals s.nextPageNo.toNat s.rootPage

def lowerBoundValues : Option Iid :=
  (s.findLeafValues L vals).bind fun p =>
    (s.pages p).map fun leaf => s.boundIid p leaf (leaf.lowerBoundValues L vals)

def upperBoundValues : Option Iid :=
  (s.findLeafValues L vals).bind fun p =>
    (s.pages p).map fun leaf => s.boundIid p leaf (leaf.upperBoundValues L vals)

/-- Every key in a page is the key of a row. -/
def OfRows : Prop :=
  ∀ {p n}, s.pages p = some n → ∀ e ∈ n.entries,
    ∃ us, List.Forall₂ IxCol.Holds cols us ∧ e.1 = IxKey.ofValues cols us

end IxFile

section Agreement

variable {L : IxLayout (IxKey cols)} {n : IxNode (IxKey cols)} {vals : List Value}

namespace IxNode

/-- The slots that the loop looks at lie between its ends. -/
theorem searchLoop_between {before : Nat → Bool} {fuel l r : Nat} (hlr : l ≤ r) :
    l ≤ searchLoop before fuel l r ∧ searchLoop before fuel l r ≤ r := by
  induction fuel generalizing l r with
  | zero => exact ⟨le_refl _, hlr⟩
  | succ fuel ih =>
    unfold searchLoop
    split
    next hlt =>
      dsimp only
      split
      next =>
        have hup := @ih ((l + r) / 2 + 1) r (by omega)
        omega
      next =>
        have hdown := @ih l ((l + r) / 2) (by omega)
        omega
    next => exact ⟨le_refl _, hlr⟩

theorem searchLoop_lower {key : Nat → IxKey cols} {target : IxKey cols} {before : Nat → Bool}
    {fuel l r : Nat} (h : ∀ m, l ≤ m → m ≤ r → before m = decide (key m < target)) :
    searchLoop before fuel l r = lowerBoundLoop key target fuel l r := by
  induction fuel generalizing l r with
  | zero => rfl
  | succ fuel ih =>
    unfold searchLoop lowerBoundLoop
    split
    next hlt =>
      have hmid := h ((l + r) / 2) (by omega) (by omega)
      have hup := @ih ((l + r) / 2 + 1) r fun m hl hr => h m (by omega) hr
      have hdown := @ih l ((l + r) / 2) fun m hl hr => h m hl (by omega)
      simp only [hmid, decide_eq_true_eq, hup, hdown]
    next => rfl

theorem searchLoop_upper {key : Nat → IxKey cols} {target : IxKey cols} {before : Nat → Bool}
    {fuel l r : Nat} (h : ∀ m, l ≤ m → m ≤ r → before m = decide (key m ≤ target)) :
    searchLoop before fuel l r = upperBoundLoop key target fuel l r := by
  induction fuel generalizing l r with
  | zero => rfl
  | succ fuel ih =>
    unfold searchLoop upperBoundLoop
    split
    next hlt =>
      have hmid := h ((l + r) / 2) (by omega) (by omega)
      have hup := @ih ((l + r) / 2 + 1) r fun m hl hr => h m (by omega) hr
      have hdown := @ih l ((l + r) / 2) fun m hl hr => h m hl (by omega)
      simp only [hmid, decide_eq_true_eq, hup, hdown]
    next => rfl

/-- How values compare with the key in a slot. -/
theorem compare_slot (hrows : ∀ e ∈ n.entries,
      ∃ us, List.Forall₂ IxCol.Holds cols us ∧ e.1 = IxKey.ofValues cols us)
    (hvals : List.Forall₂ IxCol.Holds cols vals) {m : Nat} (hm : m < n.size) :
    ixCompareValues cols (n.getKey L m).1 vals =
      ixCompare cols (n.getKey L m).1 (IxKey.ofValues cols vals).1 := by
  have hslot : n.slot L m ∈ n.entries := by
    have hget : n.slot L m = n.entries.get ⟨m, hm⟩ := by
      simp [slot, List.getElem?_append_left hm, List.getElem?_eq_getElem hm]
      rfl
    rw [hget]
    exact List.get_mem n.entries ⟨m, hm⟩
  obtain ⟨us, hus, heq⟩ := hrows _ hslot
  rw [getKey, heq]
  exact ixCompareValues_ofValues hus hvals

section

variable (hrows : ∀ e ∈ n.entries,
    ∃ us, List.Forall₂ IxCol.Holds cols us ∧ e.1 = IxKey.ofValues cols us)
  (hvals : List.Forall₂ IxCol.Holds cols vals) (hsize : n.firstKey < n.size)

include hrows hvals hsize

theorem lowerBoundValues_eq :
    n.lowerBoundValues L vals = n.lowerBound L (IxKey.ofValues cols vals) := by
  have hbefore : ∀ m, m < n.size → (ixCompareValues cols (n.getKey L m).1 vals < 0 ↔
      n.getKey L m < IxKey.ofValues cols vals) := by
    intro m hm
    rw [compare_slot hrows hvals hm]
    exact ixCompare_neg_iff _ _
  have hloop := @searchLoop_lower cols (n.getKey L) (IxKey.ofValues cols vals)
    (fun m => decide (ixCompareValues cols (n.getKey L m).1 vals < 0)) n.size n.firstKey
    (n.size - 1) fun m _ hr => decide_eq_decide.mpr (hbefore m (by omega))
  have hlast := (@searchLoop_between
    (fun m => decide (ixCompareValues cols (n.getKey L m).1 vals < 0)) n.size n.firstKey
    (n.size - 1) (by omega)).2
  rw [hloop] at hlast
  have hend := hbefore _ (show lowerBoundLoop (n.getKey L) (IxKey.ofValues cols vals) n.size
    n.firstKey (n.size - 1) < n.size by omega)
  simp only [lowerBoundValues, lowerBound, hloop, hend, decide_eq_true_eq]

theorem upperBoundValues_eq :
    n.upperBoundValues L vals = n.upperBound L (IxKey.ofValues cols vals) := by
  have hbefore : ∀ m, m < n.size → (ixCompareValues cols (n.getKey L m).1 vals ≤ 0 ↔
      n.getKey L m ≤ IxKey.ofValues cols vals) := by
    intro m hm
    rw [compare_slot hrows hvals hm, Int.le_iff_lt_or_eq, ixCompare_neg_iff, ixCompare_eq_zero_iff, le_iff_lt_or_eq]
  have hloop := @searchLoop_upper cols (n.getKey L) (IxKey.ofValues cols vals)
    (fun m => decide (ixCompareValues cols (n.getKey L m).1 vals ≤ 0)) n.size n.firstKey
    (n.size - 1) fun m _ hr => decide_eq_decide.mpr (hbefore m (by omega))
  have hlast := (@searchLoop_between
    (fun m => decide (ixCompareValues cols (n.getKey L m).1 vals ≤ 0)) n.size n.firstKey
    (n.size - 1) (by omega)).2
  rw [hloop] at hlast
  have hend := hbefore _ (show upperBoundLoop (n.getKey L) (IxKey.ofValues cols vals) n.size
    n.firstKey (n.size - 1) < n.size by omega)
  simp only [upperBoundValues, upperBound, hloop, hend, decide_eq_true_eq]
  by_cases hle : n.getKey L (upperBoundLoop (n.getKey L) (IxKey.ofValues cols vals) n.size n.firstKey
      (n.size - 1)) ≤ IxKey.ofValues cols vals
  · rw [if_pos hle, if_neg (not_lt.mpr hle)]
  · rw [if_neg hle, if_pos (not_le.mp hle)]

theorem internalLookupValues_eq :
    n.internalLookupValues L vals = n.internalLookup L (IxKey.ofValues cols vals) := by
  unfold internalLookupValues internalLookup
  rw [lowerBoundValues_eq hrows hvals hsize]
  cases hpos : n.lowerBound L (IxKey.ofValues cols vals) with
  | none => rfl
  | some pos =>
    have hbetween := (@searchLoop_between
      (fun m => decide (n.getKey L m < IxKey.ofValues cols vals)) n.size n.firstKey
      (n.size - 1) (by omega)).2
    rw [@searchLoop_lower cols (n.getKey L) (IxKey.ofValues cols vals) _ n.size n.firstKey
      (n.size - 1) fun _ _ _ => rfl] at hbetween
    have hlt : pos < n.size := by
      unfold lowerBound at hpos
      dsimp only at hpos
      split at hpos
      next => cases hpos
      next =>
        cases hpos
        omega
    dsimp only
    rw [compare_slot hrows hvals hlt]
    by_cases heq : n.getKey L pos = IxKey.ofValues cols vals
    · rw [if_neg (not_not.mpr ((ixCompare_eq_zero_iff _ _).mpr heq)), if_pos heq]
    · rw [if_pos (fun hzero => heq ((ixCompare_eq_zero_iff _ _).mp hzero)), if_neg heq]

end

end IxNode

namespace BTree

open PagedTree

variable {s : IxFile (IxKey cols)} {g : Labels PageNo (IxKey cols)} {ls : List PageNo} {p : PageNo}

theorem firstKey_lt (h : BTree s g ls) (hp : s.pages p = some n) : n.firstKey < n.size := by
  cases hleaf : n.isLeaf with
  | false =>
    have hinner := h.inner hp hleaf
    simp only [IxNode.firstKey, hleaf, Bool.false_eq_true, if_false]
    omega
  | true =>
    simp only [IxNode.firstKey, hleaf, if_true]
    exact List.length_pos_iff.mpr (h.leaf hp hleaf)

theorem findLeafLoopValues_eq (h : BTree s g ls) (hrows : s.OfRows)
    (hvals : List.Forall₂ IxCol.Holds cols vals) (fuel : Nat) (p : PageNo) :
    IxFile.findLeafLoopValues L s vals fuel p =
      IxFile.findLeafLoop L s (IxKey.ofValues cols vals) fuel p := by
  induction fuel generalizing p with
  | zero => rfl
  | succ fuel ih =>
    unfold IxFile.findLeafLoopValues IxFile.findLeafLoop
    cases hp : s.pages p with
    | none => rfl
    | some node =>
      simp only [Option.bind_some,
        IxNode.internalLookupValues_eq (hrows hp) hvals (h.firstKey_lt hp), ih]

theorem lowerBoundValues_eq (h : BTree s g ls) (hrows : s.OfRows)
    (hvals : List.Forall₂ IxCol.Holds cols vals) :
    s.lowerBoundValues L vals = s.lowerBound L (IxKey.ofValues cols vals) := by
  simp only [IxFile.lowerBoundValues, IxFile.lowerBound, IxFile.findLeafValues, IxFile.findLeafPage,
    h.findLeafLoopValues_eq hrows hvals]
  refine Option.bind_congr fun q _ => ?_
  cases hq : s.pages q with
  | none => rfl
  | some leaf =>
    simp only [Option.map_some, IxNode.lowerBoundValues_eq (hrows hq) hvals (h.firstKey_lt hq)]

theorem upperBoundValues_eq (h : BTree s g ls) (hrows : s.OfRows)
    (hvals : List.Forall₂ IxCol.Holds cols vals) :
    s.upperBoundValues L vals = s.upperBound L (IxKey.ofValues cols vals) := by
  simp only [IxFile.upperBoundValues, IxFile.upperBound, IxFile.findLeafValues, IxFile.findLeafPage,
    h.findLeafLoopValues_eq hrows hvals]
  refine Option.bind_congr fun q _ => ?_
  cases hq : s.pages q with
  | none => rfl
  | some leaf =>
    simp only [Option.map_some, IxNode.upperBoundValues_eq (hrows hq) hvals (h.firstKey_lt hq)]

end BTree

end Agreement

end Grmdb
