import Grmdb.DeleteSearches
import Grmdb.PinCounts

namespace Grmdb

open PagedTree Tiling PinCounts

variable {κ : Type}

namespace IxFile

/-- `fetch_node` or `create_node` pins, `unpin_node_page` unpins. Here a page is fetched and given
back at once. -/
def touchPins (p : PageNo) : List (Event PageNo) := [.pin p, .unpin p]

def maintainPins (children : List PageNo) : List (Event PageNo) :=
  children.flatMap fun child => [.pin child, .unpin child]

/-- The way of a search down to a leaf, which stays pinned; `lookup` is `internal_lookup`. -/
def descendPins (s : IxFile κ) (lookup : IxNode κ → PageNo) : Nat → PageNo → List (Event PageNo)
  | 0, _ => []
  | fuel + 1, p =>
    .pin p ::
      match s.pages p with
      | none => []
      | some node => if node.isLeaf then [] else .unpin p :: descendPins s lookup fuel (lookup node)

def splitPins (s : IxFile κ) (p : PageNo) : List (Event PageNo) :=
  .pin s.nextPageNo ::
    match s.pages p with
    | none => []
    | some node =>
      if node.isLeaf then touchPins node.nextLeaf
      else maintainPins ((node.entries.drop (node.size / 2)).map fun e => e.2.pageNo)

variable [LinearOrder κ]

def findLeafPins (L : IxLayout κ) (s : IxFile κ) (key : κ) : List (Event PageNo) :=
  descendPins s (fun node => node.internalLookup L key) s.nextPageNo.toNat s.rootPage

def growRootPins (L : IxLayout κ) (s : IxFile κ) (old : PageNo) (key : κ) (new : PageNo) :
    List (Event PageNo) :=
  let root := s.nextPageNo
  .pin root ::
    match (newRoot L old).insert L key ⟨new, 0⟩ with
    | none => []
    | some _ => [.unpin root, .unpin old, .unpin new]

def insertIntoParentPins (L : IxLayout κ) :
    Nat → IxFile κ → PageNo → κ → PageNo → List (Event PageNo)
  | 0, _, _, _, _ => []
  | fuel + 1, s, old, key, new =>
    match s.pages old with
    | none => []
    | some oldNode =>
      if oldNode.parent = IX_NO_PAGE then growRootPins L s old key new
      else
        .pin oldNode.parent ::
          match s.pages oldNode.parent with
          | none => []
          | some node =>
            match node.insert L key ⟨new, 0⟩ with
            | none => []
            | some node =>
              let s := s.write oldNode.parent node
              if L.btreeOrder < node.size then
                let right := s.nextPageNo
                splitPins s oldNode.parent ++
                  match split L s oldNode.parent with
                  | none => []
                  | some s =>
                    match s.pages right with
                    | none => []
                    | some rightNode =>
                      .unpin old :: .unpin new ::
                        insertIntoParentPins L fuel s oldNode.parent (rightNode.getKey L 0) right
              else [.unpin old, .unpin new, .unpin oldNode.parent]

def insertEntryPins (L : IxLayout κ) (s : IxFile κ) (key : κ) (value : Rid) :
    List (Event PageNo) :=
  if s.isEmpty then touchPins s.nextPageNo
  else
    findLeafPins L s key ++
      match findLeafPage L s key with
      | none => []
      | some p =>
        match s.pages p with
        | none => []
        | some leaf =>
          match leaf.insert L key value with
          | none => []
          | some node =>
            let s := s.write p node
            if L.btreeOrder ≤ leaf.size then
              let right := s.nextPageNo
              splitPins s p ++
                match split L s p with
                | none => []
                | some s =>
                  match s.pages right with
                  | none => []
                  | some rightNode =>
                    insertIntoParentPins L s.nextPageNo.toNat s p (rightNode.getKey L 0) right
            else []

/-- `delete_page` takes a released page only when no pin is left, so it changes no count. -/
def adjustRootPins (L : IxLayout κ) (s : IxFile κ) (p : PageNo) : List (Event PageNo) :=
  match s.pages p with
  | none => []
  | some node =>
    if !node.isLeaf ∧ node.size = 1 then [.pin (node.valueAt L 0), .unpin p] else [.unpin p]

/-- The children that `redistribute` moves to the node `nd`. -/
def redistributePins (L : IxLayout κ) (nb nd pr : IxNode κ) (index : Nat) : List (Event PageNo) :=
  if !nd.isLeaf then
    if index = 0 then
      match nd.insert L (pr.getKey L 1) (nb.getRid L 0) with
      | none => []
      | some nd => touchPins (nd.valueAt L (nd.size - 1))
    else
      let pos := nb.size - 1
      let nd := nd.insertPairs L 1 [(pr.getKey L index, nd.getRid L 0)]
      touchPins ((nd.setRid 0 (nb.getRid L pos)).valueAt L 0)
  else []

/-- `coalesce` after the swap. -/
def coalescePins (L : IxLayout κ) (left right : PageNo) (rn pr : IxNode κ) (index : Nat) :
    List (Event PageNo) :=
  let moved := if rn.isLeaf then rn else rn.setKey 0 (pr.getKey L index)
  (if rn.isLeaf then touchPins rn.nextLeaf
    else maintainPins (moved.entries.map fun e => e.2.pageNo)) ++ [.unpin left, .unpin right]

/-- One round of `coalesce_or_redistribute` with the parent and the neighbour fetched. -/
def refillPins (L : IxLayout κ) (p : PageNo) (node pr nb : IxNode κ) : List (Event PageNo) :=
  let index := pr.findChild p
  let neighbor := pr.valueAt L (if index ≠ 0 then index - 1 else 1)
  if L.minSize * 2 ≤ node.size + nb.size then
    redistributePins L nb node pr index ++ [.unpin p, .unpin neighbor]
  else if index = 0 then coalescePins L p neighbor nb pr 1
  else coalescePins L neighbor p node pr index

def coalesceUpPins (L : IxLayout κ) : Nat → IxFile κ → PageNo → List (Event PageNo)
  | 0, _, _ => []
  | fuel + 1, s, p =>
    match s.pages p with
    | none => []
    | some node =>
      if node.parent = IX_NO_PAGE then adjustRootPins L s p
      else if L.minSize ≤ node.size then [.unpin p]
      else
        .pin node.parent ::
          match s.pages node.parent with
          | none => []
          | some pr =>
            let index := pr.findChild p
            let neighbor := pr.valueAt L (if index ≠ 0 then index - 1 else 1)
            .pin neighbor ::
              match s.pages neighbor with
              | none => []
              | some nb =>
                refillPins L p node pr nb ++
                  match refill L s p node pr nb with
                  | none => []
                  | some s => coalesceUpPins L fuel s node.parent

section Balance

variable {L : IxLayout κ} {s : IxFile κ} {p old new : PageNo} {key : κ} {value : Rid} {fuel : Nat}

omit [LinearOrder κ] in
theorem maintainPins_held (children : List PageNo) (a : Multiset PageNo) :
    Held a (maintainPins children) a := Held.flatMap_touch children a

omit [LinearOrder κ] in
theorem splitPins_held (s : IxFile κ) (p : PageNo) (a : Multiset PageNo) :
    Held a (splitPins s p) (s.nextPageNo ::ₘ a) := by
  refine .pin ?_
  split
  · exact .nil _
  · split
    · exact .touch _ _
    · exact maintainPins_held _ _

omit [LinearOrder κ] in
/-- A search that comes to a leaf holds it; `find` is its loop. -/
theorem descendPins_held {lookup : IxNode κ → PageNo} {find : Nat → PageNo → Option PageNo}
    (hzero : ∀ q, find 0 q = none)
    (hsucc : ∀ fuel q, find (fuel + 1) q = (s.pages q).bind fun node =>
      if node.isLeaf then some q else find fuel (lookup node))
    {q : PageNo} (h : find fuel q = some p) : Held 0 (descendPins s lookup fuel q) {p} := by
  induction fuel generalizing q with
  | zero =>
    rw [hzero] at h
    cases h
  | succ fuel ih =>
    rw [hsucc] at h
    obtain ⟨node, hq, h⟩ := Option.bind_eq_some_iff.mp h
    refine .pin ?_
    simp only [hq]
    split at h
    next hleaf =>
      cases h
      rw [if_pos hleaf]
      exact .nil _
    next hleaf =>
      rw [if_neg hleaf]
      exact .unpin (ih h)

theorem findLeafPins_held (h : findLeafPage L s key = some p) : Held 0 (findLeafPins L s key) {p} :=
  descendPins_held (fun _ => rfl) (fun _ _ => rfl) h

theorem growRootPins_held (h : growRoot L s old key new ≠ .failed) :
    ∃ b, Held {old, new} (growRootPins L s old key new) b ∧
      (b = 0 ↔ ∃ s', growRoot L s old key new = .returned s') := by
  unfold growRoot at h ⊢
  unfold growRootPins
  dsimp only at h ⊢
  split at h
  · exact absurd rfl h
  next s₁ hs₁ =>
    cases hinsert : (newRoot L old).insert L key ⟨new, 0⟩ with
    | none => exact ⟨_, .pin (.nil _), by simp⟩
    | some node => exact ⟨0, .pin (.unpin (.unpin (.unpin (.nil 0)))), by simp⟩

/-- `insert_into_parent` gives back both nodes and all others unless it throws. -/
theorem insertIntoParentPins_held (h : insertIntoParent L fuel s old key new ≠ .failed) :
    ∃ b, Held {old, new} (insertIntoParentPins L fuel s old key new) b ∧
      (b = 0 ↔ ∃ s', insertIntoParent L fuel s old key new = .returned s') := by
  -- one round for each split
  induction fuel generalizing s old key new with
  | zero => exact absurd rfl h
  | succ fuel ih =>
    cases hold : s.pages old with
    | none => simp [insertIntoParent, hold] at h
    | some oldNode =>
      simp only [insertIntoParent, insertIntoParentPins, hold] at h ⊢
      by_cases hroot : oldNode.parent = IX_NO_PAGE
      · simp only [if_pos hroot] at h ⊢
        exact growRootPins_held h
      simp only [if_neg hroot] at h ⊢
      cases hnode : s.pages oldNode.parent with
      | none => simp [hnode] at h
      | some node =>
        simp only [hnode] at h ⊢
        cases hinsert : node.insert L key ⟨new, 0⟩ with
        | none => exact ⟨_, .pin (.nil _), by simp⟩
        | some node' =>
          simp only [hinsert] at h ⊢
          by_cases hfull : L.btreeOrder < node'.size
          · simp only [if_pos hfull] at h ⊢
            cases hsplit : split L (s.write oldNode.parent node') oldNode.parent with
            | none => simp [hsplit] at h
            | some s₁ =>
              simp only [hsplit] at h ⊢
              cases hright : s₁.pages (s.write oldNode.parent node').nextPageNo with
              | none => simp [hright] at h
              | some rightNode =>
                simp only [hright] at h ⊢
                obtain ⟨b, hb, hiff⟩ := ih h
                refine ⟨b, .pin ((splitPins_held _ _ _).append ?_), hiff⟩
                rw [Multiset.pair_comm] at hb
                exact hb.unpin_pair old new
          · simp only [if_neg hfull]
            have hparent : Held {oldNode.parent} [.unpin oldNode.parent] 0 := .unpin (.nil 0)
            exact ⟨0, .pin (hparent.unpin_pair old new), by simp⟩

theorem insertEntryPins_held (h : insertEntry L s key value ≠ .failed) :
    ∃ b, Held 0 (insertEntryPins L s key value) b ∧
      (b = 0 ↔ s.isEmpty = true ∨
        (∃ p leaf, findLeafPage L s key = some p ∧ s.pages p = some leaf ∧
          L.btreeOrder ≤ leaf.size) ∧ ∃ s', insertEntry L s key value = .returned s') := by
  by_cases hempty : s.isEmpty = true
  · simp only [insertEntryPins, if_pos hempty]
    exact ⟨0, .touch _ _, by simp [hempty]⟩
  simp only [insertEntry, insertEntryPins, if_neg hempty] at h ⊢
  cases hfind : findLeafPage L s key with
  | none => simp [hfind] at h
  | some p =>
    simp only [hfind] at h ⊢
    have hpath := findLeafPins_held hfind
    cases hleaf : s.pages p with
    | none => simp [hleaf] at h
    | some leaf =>
      simp only [hleaf] at h ⊢
      cases hinsert : leaf.insert L key value with
      | none => exact ⟨_, hpath.append (.nil _), by simp [hempty]⟩
      | some node =>
        simp only [hinsert] at h ⊢
        by_cases hfull : L.btreeOrder ≤ leaf.size
        · simp only [if_pos hfull] at h ⊢
          cases hsplit : split L (s.write p node) p with
          | none => simp [hsplit] at h
          | some s₁ =>
            simp only [hsplit] at h ⊢
            cases hright : s₁.pages (s.write p node).nextPageNo with
            | none => simp [hright] at h
            | some rightNode =>
              simp only [hright] at h ⊢
              obtain ⟨b, hb, hiff⟩ := insertIntoParentPins_held h
              rw [Multiset.pair_comm] at hb
              refine ⟨b, hpath.append ((splitPins_held _ _ _).append hb), ?_⟩
              simp [hiff, hempty, hleaf, hfull]
        · simp only [if_neg hfull]
          exact ⟨_, hpath.append (.nil _), by simp [hempty, hleaf, hfull]⟩

theorem redistributePins_held (L : IxLayout κ) (nb nd pr : IxNode κ) (index : Nat)
    (a : Multiset PageNo) : Held a (redistributePins L nb nd pr index) a := by
  unfold redistributePins
  split
  · split
    · split
      · exact .nil a
      · exact .touch _ a
    · exact .touch _ a
  · exact .nil a

omit [LinearOrder κ] in
theorem coalescePins_held (L : IxLayout κ) (left right : PageNo) (rn pr : IxNode κ) (index : Nat)
    (a : Multiset PageNo) : Held (a + {left, right}) (coalescePins L left right rn pr index) a := by
  unfold coalescePins
  refine Held.append (b := a + {left, right}) ?_ ((Held.nil a).unpin_pair left right)
  split
  · exact .touch _ _
  · exact maintainPins_held _ _

/-- A round gives back the node and its neighbour. -/
theorem refillPins_held (L : IxLayout κ) (p : PageNo) (node pr nb : IxNode κ)
    (a : Multiset PageNo) :
    Held (a + {p, pr.valueAt L (if pr.findChild p ≠ 0 then pr.findChild p - 1 else 1)})
      (refillPins L p node pr nb) a := by
  simp only [refillPins]
  by_cases hsum : L.minSize * 2 ≤ node.size + nb.size
  · rw [if_pos hsum]
    exact (redistributePins_held L nb node pr _ _).append ((Held.nil a).unpin_pair _ _)
  rw [if_neg hsum]
  by_cases hzero : pr.findChild p = 0
  · simp only [hzero, ne_eq, not_true_eq_false, if_false, if_true]
    exact coalescePins_held L p _ nb pr 1 a
  · simp only [hzero, ne_eq, not_false_eq_true, if_false, if_true]
    rw [Multiset.pair_comm]
    exact coalescePins_held L _ p node pr _ a

end Balance

end IxFile

end Grmdb
