import Grmdb.IndexNode

namespace Grmdb

/-- An open index file: what the tree operations change of the header, the next page number that
`allocate_page` gives out and the pages of the tree. `peak` is the largest number of entries that
any page has held so far; no operation reads it. -/
structure IxFile (κ : Type) where
  rootPage : PageNo
  firstLeaf : PageNo
  lastLeaf : PageNo
  nextPageNo : PageNo
  pages : PageNo → Option (IxNode κ)
  peak : Nat

/-- The file that `create_index` writes, opened: no root, and pages are allocated from 3 on. -/
def IxFile.create (κ : Type) : IxFile κ := ⟨IX_NO_PAGE, 2, 2, 3, fun _ => none, 0⟩

/-- How `insert_entry` ends. A failed call follows a page number that names no page. -/
inductive IxResult (κ : Type) where
  | returned (s : IxFile κ)
  | existsError (s : IxFile κ)
  | failed

namespace IxFile

variable {κ : Type}

def isEmpty (s : IxFile κ) : Bool := s.rootPage = IX_NO_PAGE

def write (s : IxFile κ) (p : PageNo) (n : IxNode κ) : IxFile κ :=
  { s with pages := Function.update s.pages p (some n), peak := max s.peak n.size }

/-- `release_node_handle`: the page number is not given out again. -/
def release (s : IxFile κ) (p : PageNo) : IxFile κ :=
  { s with pages := Function.update s.pages p none }

/-- The page number of the new node is the old `nextPageNo`. -/
def createNode (s : IxFile κ) : IxFile κ :=
  { s with
    nextPageNo := s.nextPageNo + 1,
    pages := Function.update s.pages s.nextPageNo (some (IxNode.fresh κ)) }

def setParent (s : IxFile κ) (child parent : PageNo) : Option (IxFile κ) :=
  (s.pages child).map fun n => s.write child { n with parent := parent }

/-- `maintain_child` for the given children of `p`. -/
def maintainChildren (s : IxFile κ) (p : PageNo) (children : List PageNo) : Option (IxFile κ) :=
  children.foldlM (fun s child => s.setParent child p) s

def setPrevLeaf (s : IxFile κ) (p prev : PageNo) : Option (IxFile κ) :=
  (s.pages p).map fun n => s.write p { n with prevLeaf := prev }

/-- `split`, for the node of page `p`; the new node is on page `s.nextPageNo`. -/
def split (L : IxLayout κ) (s : IxFile κ) (p : PageNo) : Option (IxFile κ) := do
  let node ← s.pages p
  let right := s.nextPageNo
  let leftSize := node.size / 2
  let moved := node.entries.drop leftSize
  let zeros := List.replicate moved.length ((L.zeroKey, ⟨0, 0⟩) : κ × Rid)
  let left := { node with entries := node.entries.take leftSize, dead := zeros ++ node.dead }
  let s := s.createNode
  if node.isLeaf then
    let s := s.write p { left with nextLeaf := right }
    let s := s.write right ⟨node.parent, true, p, node.nextLeaf, moved, []⟩
    let s ← s.setPrevLeaf node.nextLeaf right
    return if p = s.lastLeaf then { s with lastLeaf := right } else s
  else
    let s := s.write p left
    let s := s.write right ⟨node.parent, false, 0, 0, moved, []⟩
    s.maintainChildren right (moved.map fun e => e.2.pageNo)

variable [LinearOrder κ]

/-- The loop of `find_leaf_page`. -/
def findLeafLoop (L : IxLayout κ) (s : IxFile κ) (key : κ) : Nat → PageNo → Option PageNo
  | 0, _ => none
  | fuel + 1, p =>
    (s.pages p).bind fun node =>
      if node.isLeaf then some p else findLeafLoop L s key fuel (node.internalLookup L key)

/-- A path from the root meets no page twice, so the number of pages bounds the loop. -/
def findLeafPage (L : IxLayout κ) (s : IxFile κ) (key : κ) : Option PageNo :=
  findLeafLoop L s key s.nextPageNo.toNat s.rootPage

/-- The node of a new root before `insert` gives it its second child. -/
def newRoot (L : IxLayout κ) (child : PageNo) : IxNode κ :=
  { IxNode.fresh κ with parent := IX_NO_PAGE, entries := [(L.zeroKey, ⟨child, 0⟩)] }

/-- The branch of `insert_into_parent` for a split root. -/
def growRoot (L : IxLayout κ) (s : IxFile κ) (old : PageNo) (key : κ) (new : PageNo) :
    IxResult κ :=
  let root := s.nextPageNo
  let s := { s.createNode with rootPage := root }
  match (s.setParent old root).bind fun s => s.setParent new root with
  | none => .failed
  | some s =>
    match (newRoot L old).insert L key ⟨new, 0⟩ with
    | none => .existsError (s.write root (newRoot L old))
    | some node => .returned (s.write root node)

def insertIntoParent (L : IxLayout κ) : Nat → IxFile κ → PageNo → κ → PageNo → IxResult κ
  | 0, _, _, _, _ => .failed
  | fuel + 1, s, old, key, new =>
    match s.pages old with
    | none => .failed
    | some oldNode =>
      if oldNode.parent = IX_NO_PAGE then growRoot L s old key new
      else
        match s.pages oldNode.parent with
        | none => .failed
        | some node =>
          match node.insert L key ⟨new, 0⟩ with
          | none => .existsError s
          | some node =>
            let s := s.write oldNode.parent node
            if L.btreeOrder < node.size then
              let right := s.nextPageNo
              match split L s oldNode.parent with
              | none => .failed
              | some s =>
                match s.pages right with
                | none => .failed
                | some rightNode =>
                  insertIntoParent L fuel s oldNode.parent (rightNode.getKey L 0) right
            else .returned s

/-- The branch of `insert_entry` for an empty tree. -/
def plantRoot (L : IxLayout κ) (s : IxFile κ) (key : κ) (value : Rid) : IxResult κ :=
  let root := s.nextPageNo
  let s := { s.createNode with rootPage := root, firstLeaf := root, lastLeaf := root }
  let node : IxNode κ :=
    { IxNode.fresh κ with
      isLeaf := true, parent := IX_NO_PAGE, nextLeaf := root, prevLeaf := root }
  match node.insert L key value with
  | none => .existsError (s.write root node)
  | some node => .returned (s.write root node)

def insertEntry (L : IxLayout κ) (s : IxFile κ) (key : κ) (value : Rid) : IxResult κ :=
  if s.isEmpty then plantRoot L s key value
  else
    match findLeafPage L s key with
    | none => .failed
    | some p =>
      match s.pages p with
      | none => .failed
      | some leaf =>
        match leaf.insert L key value with
        | none => .existsError s
        | some node =>
          let s := s.write p node
          if L.btreeOrder ≤ leaf.size then
            let right := s.nextPageNo
            match split L s p with
            | none => .failed
            | some s =>
              match s.pages right with
              | none => .failed
              | some rightNode =>
                insertIntoParent L s.nextPageNo.toNat s p (rightNode.getKey L 0) right
          else .returned s

def adjustRoot (L : IxLayout κ) (s : IxFile κ) (p : PageNo) : Option (IxFile κ) :=
  (s.pages p).bind fun node =>
    if !node.isLeaf ∧ node.size = 1 then
      let child := node.valueAt L 0
      (setParent { s with rootPage := child } child IX_NO_PAGE).map fun s => s.release p
    else if node.isLeaf ∧ node.size = 0 then
      some (release
        { s with rootPage := IX_NO_PAGE, firstLeaf := IX_NO_PAGE, lastLeaf := IX_NO_PAGE } p)
    else some s

/-- `redistribute`, for the nodes `nb`, `nd` and `pr` of the pages `neighbor`, `node` and
`parent`. The last slot of an erased pair still holds its key when the code copies it. -/
def redistribute (L : IxLayout κ) (s : IxFile κ) (neighbor node parent : PageNo)
    (nb nd pr : IxNode κ) (index : Nat) : Option (IxFile κ) :=
  if !nd.isLeaf then
    if index = 0 then
      (nd.insert L (pr.getKey L 1) (nb.getRid L 0)).bind fun nd =>
        let nb := nb.erasePair 0
        let s := ((s.write node nd).write neighbor nb).setParent (nd.valueAt L (nd.size - 1)) node
        s.map fun s => s.write parent (pr.setKey 1 (nb.getKey L 0))
    else
      let pos := nb.size - 1
      let nd := nd.insertPairs L 1 [(pr.getKey L index, nd.getRid L 0)]
      let nd := nd.setRid 0 (nb.getRid L pos)
      let nb' := nb.erasePair pos
      let s := ((s.write node nd).write neighbor nb').setParent (nd.valueAt L 0) node
      s.map fun s => s.write parent (pr.setKey index (nb'.getKey L pos))
  else
    if index = 0 then
      (nd.insert L (nb.getKey L 0) (nb.getRid L 0)).map fun nd =>
        let nb := nb.erasePair 0
        ((s.write node nd).write neighbor nb).write parent (pr.setKey 1 (nb.getKey L 0))
    else
      let pos := nb.size - 1
      let nb' := nb.erasePair pos
      (nd.insert L (nb'.getKey L pos) (nb'.getRid L pos)).map fun nd =>
        ((s.write node nd).write neighbor nb').write parent (pr.setKey index (nb'.getKey L pos))

/-- `coalesce` after the swap: `right` is merged into its left neighbour and released. -/
def coalesce (L : IxLayout κ) (s : IxFile κ) (left right parent : PageNo) (ln rn pr : IxNode κ)
    (index : Nat) : Option (IxFile κ) :=
  let moved := if rn.isLeaf then rn else rn.setKey 0 (pr.getKey L index)
  let merged := ln.insertPairs L ln.size moved.entries
  let s := (s.write left merged).write parent (pr.erasePair index)
  if rn.isLeaf then
    let s := s.write left { merged with nextLeaf := rn.nextLeaf }
    (s.setPrevLeaf rn.nextLeaf left).map fun s =>
      (if right = s.lastLeaf then { s with lastLeaf := left } else s).release right
  else
    (s.maintainChildren left (moved.entries.map fun e => e.2.pageNo)).map fun s => s.release right

def coalesceOrRedistribute (L : IxLayout κ) : Nat → IxFile κ → PageNo → Option (IxFile κ)
  | 0, _, _ => none
  | fuel + 1, s, p =>
    (s.pages p).bind fun node =>
      if node.parent = IX_NO_PAGE then adjustRoot L s p
      else if L.minSize ≤ node.size then some s
      else
        (s.pages node.parent).bind fun pr =>
          let index := pr.findChild p
          let neighbor := pr.valueAt L (if index ≠ 0 then index - 1 else 1)
          (s.pages neighbor).bind fun nb =>
            let s :=
              if L.minSize * 2 ≤ node.size + nb.size then
                redistribute L s neighbor p node.parent nb node pr index
              else if index = 0 then coalesce L s p neighbor node.parent node nb pr 1
              else coalesce L s neighbor p node.parent nb node pr index
            s.bind fun s => coalesceOrRedistribute L fuel s node.parent

/-- `none` stands for a call that follows no page or reads slot -1, the result of `lower_bound`
for a key above every key of its leaf. -/
def deleteEntry (L : IxLayout κ) (s : IxFile κ) (key : κ) : Option (IxFile κ) :=
  (findLeafPage L s key).bind fun p =>
    (s.pages p).bind fun leaf =>
      (leaf.lowerBound L key).bind fun pos =>
        if leaf.getKey L pos = key then
          coalesceOrRedistribute L s.nextPageNo.toNat (s.write p (leaf.erasePair pos)) p
        else some s

end IxFile

end Grmdb
