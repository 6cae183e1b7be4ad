import Grmdb.IndexKey

namespace Grmdb

def IX_NO_PAGE : PageNo := -1
def IX_MAX_COL_LEN : Nat := 512

/-- `sizeof(IxPageHdr)`. -/
def IX_PAGE_HDR_SIZE : Nat := 24

/-- `sizeof(Rid)`. -/
def RID_SIZE : Nat := 8

/-- The part of `IxFileHdr` that `create_index` fixes. -/
structure IxLayout (κ : Type) where
  btreeOrder : Nat
  zeroKey : κ
  order_large : 6 ≤ btreeOrder

def createOrder (colTotLen : Nat) : Nat :=
  (PAGE_SIZE - IX_PAGE_HDR_SIZE) / (colTotLen + RID_SIZE) - 1

theorem createOrder_large {len : Nat} (h : len ≤ IX_MAX_COL_LEN) : 6 ≤ createOrder len := by
  have least : 7 ≤ (PAGE_SIZE - IX_PAGE_HDR_SIZE) / (len + RID_SIZE) := by
    rw [Nat.le_div_iff_mul_le (by simp [RID_SIZE])]
    simp only [PAGE_SIZE, IX_PAGE_HDR_SIZE, RID_SIZE, IX_MAX_COL_LEN] at h ⊢
    omega
  simp only [createOrder]
  omega

/-- The header, `btree_order + 1` keys and as many rids lie inside one page. -/
theorem createOrder_fits {len : Nat} (h : len ≤ IX_MAX_COL_LEN) :
    IX_PAGE_HDR_SIZE + (createOrder len + 1) * (len + RID_SIZE) ≤ PAGE_SIZE := by
  have large := createOrder_large h
  have slots : createOrder len + 1 = (PAGE_SIZE - IX_PAGE_HDR_SIZE) / (len + RID_SIZE) := by
    simp only [createOrder] at large ⊢
    omega
  have bound := Nat.div_mul_le_self (PAGE_SIZE - IX_PAGE_HDR_SIZE) (len + RID_SIZE)
  rw [slots]
  simp only [PAGE_SIZE, IX_PAGE_HDR_SIZE] at bound ⊢
  omega

/-- The layout of an index whose columns `create_index` accepts. -/
def IxLayout.ofCols (cols : List IxCol) (h : colTotLen cols ≤ IX_MAX_COL_LEN) :
    IxLayout (IxKey cols) :=
  ⟨createOrder (colTotLen cols), IxKey.zero cols, createOrder_large h⟩

/-- `max(1, (btree_order + 1) / 2 - 1)`. -/
def IxLayout.minSize {κ : Type} (L : IxLayout κ) : Nat := max ((L.btreeOrder + 1) / 2 - 1) 1

/-- One page of the tree. `entries` are the slots below `num_key`, `dead` the slots behind them
as earlier operations left them; every slot behind those is zero. -/
structure IxNode (κ : Type) where
  parent : PageNo
  isLeaf : Bool
  prevLeaf : PageNo
  nextLeaf : PageNo
  entries : List (κ × Rid)
  dead : List (κ × Rid)
  deriving DecidableEq, Repr

/-- A page as `new_page` hands it out, all bytes zero. -/
def IxNode.fresh (κ : Type) : IxNode κ := ⟨0, false, 0, 0, [], []⟩

namespace IxNode

variable {κ : Type} (L : IxLayout κ)

def size (n : IxNode κ) : Nat := n.entries.length

def slot (n : IxNode κ) (i : Nat) : κ × Rid := (n.entries ++ n.dead).getD i (L.zeroKey, ⟨0, 0⟩)

def getKey (n : IxNode κ) (i : Nat) : κ := (n.slot L i).1

def getRid (n : IxNode κ) (i : Nat) : Rid := (n.slot L i).2

def valueAt (n : IxNode κ) (i : Nat) : PageNo := (n.getRid L i).pageNo

def setKey (n : IxNode κ) (i : Nat) (key : κ) : IxNode κ :=
  { n with entries := n.entries.modify i fun e => (key, e.2) }

def setRid (n : IxNode κ) (i : Nat) (rid : Rid) : IxNode κ :=
  { n with entries := n.entries.modify i fun e => (e.1, rid) }

/-- The slot that `lower_bound` starts from: slot 0 of an internal node has no separator. -/
def firstKey (n : IxNode κ) : Nat := if n.isLeaf then 0 else 1

/-- The `while (l < r)` loop of `lower_bound`. -/
def lowerBoundLoop [LinearOrder κ] (key : Nat → κ) (target : κ) : Nat → Nat → Nat → Nat
  | 0, l, _ => l
  | fuel + 1, l, r =>
    if l < r then
      let m := (l + r) / 2
      if key m < target then lowerBoundLoop key target fuel (m + 1) r
      else lowerBoundLoop key target fuel l m
    else l

/-- The `while (l < r)` loop of `upper_bound`. -/
def upperBoundLoop [LinearOrder κ] (key : Nat → κ) (target : κ) : Nat → Nat → Nat → Nat
  | 0, l, _ => l
  | fuel + 1, l, r =>
    if l < r then
      let m := (l + r) / 2
      if key m ≤ target then upperBoundLoop key target fuel (m + 1) r
      else upperBoundLoop key target fuel l m
    else l

variable [LinearOrder κ]

/-- `none` stands for -1. The last comparison reads slot `l` even where `num_key ≤ l`. -/
def lowerBound (n : IxNode κ) (target : κ) : Option Nat :=
  let l := lowerBoundLoop (n.getKey L) target n.size n.firstKey (n.size - 1)
  if n.getKey L l < target then none else some l

def upperBound (n : IxNode κ) (target : κ) : Option Nat :=
  let l := upperBoundLoop (n.getKey L) target n.size n.firstKey (n.size - 1)
  if target < n.getKey L l then some l else none

def leafLookup (n : IxNode κ) (key : κ) : Option Rid :=
  (n.lowerBound L key).bind fun i => if n.getKey L i = key then some (n.getRid L i) else none

def internalLookup (n : IxNode κ) (key : κ) : PageNo :=
  match n.lowerBound L key with
  | none => n.valueAt L (n.size - 1)
  | some pos => if n.getKey L pos = key then n.valueAt L pos else n.valueAt L (pos - 1)

/-- The two `memmove`s and the two stores of `insert`. -/
def insertAt (n : IxNode κ) (pos : Nat) (key : κ) (value : Rid) : IxNode κ :=
  { n with entries := n.entries.insertIdx pos (key, value), dead := n.dead.tail }

/-- `none` is `IndexEntryExistsError`. -/
def insert (n : IxNode κ) (key : κ) (value : Rid) : Option (IxNode κ) :=
  if n.size = 0 then some (n.insertAt 0 key value)
  else
    match n.lowerBound L key with
    | none => some (n.insertAt n.size key value)
    | some pos => if n.getKey L pos = key then none else some (n.insertAt pos key value)

/-- The last live slot is not cleared, it becomes the first dead one. -/
def erasePair (n : IxNode κ) (pos : Nat) : IxNode κ :=
  { n with entries := n.entries.eraseIdx pos, dead := n.entries.getLast?.toList ++ n.dead }

/-- `memcpy` of `xs` to slot `pos` and up. -/
def blit (slots : List (κ × Rid)) (pos : Nat) (xs : List (κ × Rid)) : List (κ × Rid) :=
  let padded := slots ++ List.replicate (pos - slots.length) ((L.zeroKey, ⟨0, 0⟩) : κ × Rid)
  padded.take pos ++ xs ++ slots.drop (pos + xs.length)

/-- The slots from `pos` on are moved up by `pos`, whatever the number of pairs. -/
def insertPairs (n : IxNode κ) (pos : Nat) (pairs : List (κ × Rid)) : IxNode κ :=
  let moved := blit L (n.entries ++ n.dead) (pos + pos) (n.entries.drop pos)
  let slots := blit L moved pos pairs
  { n with
    entries := slots.take (n.size + pairs.length), dead := slots.drop (n.size + pairs.length) }

def findChild (n : IxNode κ) (child : PageNo) : Nat :=
  n.entries.findIdx fun e => e.2.pageNo = child

end IxNode

end Grmdb
