import Grmdb.ValueSearch

namespace Grmdb

open PagedTree Tiling

variable {cols : List IxCol}

/-- `memcpy` of `src` to the key at `off`. -/
def IxKey.write (key : IxKey cols) (off : Nat) (src : Bytes) : IxKey cols :=
  ⟨key.1.mapIdx fun i b => if off ≤ i then src.getD (i - off) b else b,
    by rw [List.length_mapIdx, key.2]⟩

def IxKey.filled (cols : List IxCol) (b : UInt8) : IxKey cols :=
  ⟨List.replicate (colTotLen cols) b, List.length_replicate⟩

/-- The loops that copy the bytes of values to a key. `next` is how they move their offset. -/
def copyValues (next : Nat → Nat → Nat) : Nat → List IxCol → List Value → IxKey cols → IxKey cols
  | offset, col :: cs, v :: vals, key =>
    copyValues next (next offset col.len) cs vals (key.write offset (v.raw col.len))
  | _, _, _, key => key

/-- Such a loop writes byte `i`. -/
def written (next : Nat → Nat → Nat) : Nat → List IxCol → Nat → Bool
  | offset, col :: cs, i =>
    (offset ≤ i && i < offset + col.len) || written next (next offset col.len) cs i
  | _, [], _ => false

/-- Such a loop writes every byte of the key. -/
def Covers (next : Nat → Nat → Nat) (cols : List IxCol) : Prop :=
  ∀ i < colTotLen cols, written next 0 cols i = true

instance (next : Nat → Nat → Nat) (cols : List IxCol) : Decidable (Covers next cols) :=
  inferInstanceAs (Decidable (∀ i < colTotLen cols, written next 0 cols i = true))

/-- What `get_key` writes for the end of the leaves. Its offset is the length of the column
before, not the sum of the lengths. -/
def endKey (cols : List IxCol) (key : IxKey cols) : IxKey cols :=
  copyValues (fun _ len => len) 0 cols (cols.map IxCol.generateMax) key

namespace IxFile

/-- `get_key`; `none` is `IndexEntryNotFoundError`. -/
def getKey (L : IxLayout (IxKey cols)) (s : IxFile (IxKey cols)) (iid : Iid) (key : IxKey cols) :
    Option (IxKey cols) :=
  if s.leafEnd = some iid then some (endKey cols key)
  else
    (s.pages iid.pageNo).bind fun node =>
      if node.size ≤ iid.slotNo then none else some (node.getKey L iid.slotNo)

/-- `minus_one`, with the place that it moves to; `some none` is the result false. -/
def minusOne (s : IxFile (IxKey cols)) (iid : Iid) : Option (Option Iid) :=
  if iid = s.leafBegin then some none
  else if iid.slotNo = 0 then
    (s.pages iid.pageNo).bind fun node =>
      (s.pages node.prevLeaf).map fun prev => some ⟨node.prevLeaf, prev.size - 1⟩
  else some (some ⟨iid.pageNo, iid.slotNo - 1⟩)

end IxFile

section Copy

variable {next : Nat → Nat → Nat} {offset i : Nat} {cs : List IxCol} {vals : List Value}
  {key key' : IxKey cols} {src : Bytes}

theorem IxKey.write_get (key : IxKey cols) (off : Nat) (src : Bytes) (hi : i < colTotLen cols) :
    (key.write off src).1[i]? =
      if off ≤ i ∧ i < off + src.length then src[i - off]? else key.1[i]? := by
  have hlen : i < key.1.length := by rwa [key.2]
  show (key.1.mapIdx fun i b => if off ≤ i then src.getD (i - off) b else b)[i]? = _
  rw [List.getElem?_mapIdx, List.getElem?_eq_getElem hlen, Option.map_some]
  split
  next hoff =>
    split
    next hin =>
      rw [List.getD_eq_getElem?_getD, List.getElem?_eq_getElem (by omega), Option.getD_some]
    next hout =>
      rw [List.getD_eq_getElem?_getD, List.getElem?_eq_none (by omega), Option.getD_none]
  next hoff => rw [if_neg fun h => hoff h.1]

theorem IxKey.ext_get (h : ∀ i < colTotLen cols, key.1[i]? = key'.1[i]?) : key = key' := by
  refine Subtype.ext (List.ext_getElem? fun i => ?_)
  by_cases hi : i < colTotLen cols
  · exact h i hi
  · rw [List.getElem?_eq_none (by rw [key.2]; omega), List.getElem?_eq_none (by rw [key'.2]; omega)]

/-- A byte that the loop writes does not depend on what was there. -/
theorem copyValues_get_congr (hvals : List.Forall₂ IxCol.Holds cs vals) (hi : i < colTotLen cols)
    (h : written next offset cs i = true ∨ key.1[i]? = key'.1[i]?) :
    (copyValues next offset cs vals key).1[i]? = (copyValues next offset cs vals key').1[i]? := by
  induction hvals generalizing offset key key' with
  | nil => exact h.resolve_left Bool.false_ne_true
  | @cons col v cs vals hv hvals ih =>
    unfold copyValues
    apply ih
    rw [key.write_get _ _ hi, key'.write_get _ _ hi, hv.length_raw]
    rw [written, Bool.or_eq_true, Bool.and_eq_true, decide_eq_true_eq, decide_eq_true_eq] at h
    by_cases hin : offset ≤ i ∧ i < offset + col.len
    · exact Or.inr (by rw [if_pos hin, if_pos hin])
    · rw [if_neg hin, if_neg hin]
      exact h.imp_left fun hwritten => hwritten.resolve_left hin

theorem copyValues_get_kept (hvals : List.Forall₂ IxCol.Holds cs vals) (hi : i < colTotLen cols)
    (h : written next offset cs i = false) :
    (copyValues next offset cs vals key).1[i]? = key.1[i]? := by
  induction hvals generalizing offset key with
  | nil => rfl
  | @cons col v cs vals hv hvals ih =>
    rw [written, Bool.or_eq_false_iff] at h
    unfold copyValues
    rw [ih h.2, key.write_get _ _ hi, hv.length_raw]
    refine if_neg fun hin => ?_
    simp [hin] at h

theorem copyValues_covers (hvals : List.Forall₂ IxCol.Holds cols vals) (h : Covers next cols)
    (key key' : IxKey cols) :
    copyValues next 0 cols vals key = copyValues next 0 cols vals key' :=
  IxKey.ext_get fun i hi => copyValues_get_congr hvals hi (Or.inl (h i hi))

/-- Where a byte is left out, the result is not the same for all buffers. -/
theorem copyValues_not_covers (hvals : List.Forall₂ IxCol.Holds cols vals)
    (h : ¬Covers next cols) :
    ∃ i < colTotLen cols, ∀ b : UInt8,
      (copyValues next 0 cols vals (IxKey.filled cols b)).1[i]? = some b := by
  simp only [Covers, not_forall, Bool.not_eq_true] at h
  obtain ⟨i, hi, hleft⟩ := h
  refine ⟨i, hi, fun b => ?_⟩
  rw [copyValues_get_kept hvals hi hleft]
  exact List.getElem?_replicate_of_lt hi

theorem IxKey.write_append {front part rest : Bytes} (hkey : key.1 = front ++ (part ++ rest))
    (hlen : src.length = part.length) :
    (key.write front.length src).1 = front ++ (src ++ rest) := by
  refine List.ext_getElem? fun i => ?_
  have htot : colTotLen cols = front.length + (part.length + rest.length) := by
    rw [← key.2, hkey, List.length_append, List.length_append]
  by_cases hi : i < colTotLen cols
  · rw [key.write_get _ _ hi, hkey]
    by_cases hfront : i < front.length
    · rw [if_neg (by omega), List.getElem?_append_left hfront, List.getElem?_append_left hfront]
    · have hback : ∀ l : Bytes, (front ++ l)[i]? = l[i - front.length]? :=
        fun l => List.getElem?_append_right (by omega)
      rw [hback, hback]
      by_cases hsrc : i < front.length + src.length
      · rw [if_pos ⟨by omega, hsrc⟩, List.getElem?_append_left (by omega)]
      · rw [if_neg (by omega), List.getElem?_append_right (by omega),
          List.getElem?_append_right (by omega), hlen]
  · rw [List.getElem?_eq_none (by rw [(key.write _ _).2]; omega), List.getElem?_eq_none]
    rw [List.length_append, List.length_append]
    omega

/-- The loop that adds up the lengths leaves the key of the values. -/
theorem copyValues_add (hvals : List.Forall₂ IxCol.Holds cols vals) (key : IxKey cols) :
    copyValues (· + ·) 0 cols vals key = IxKey.ofValues cols vals := by
  have hloop : ∀ {cs : List IxCol} {vals : List Value} {key : IxKey cols} {front rest : Bytes},
      List.Forall₂ IxCol.Holds cs vals → key.1 = front ++ rest → rest.length = colTotLen cs →
      (copyValues (· + ·) front.length cs vals key).1 = front ++ keyBytes cs vals := by
    intro cs vals key front rest hvals
    induction hvals generalizing key front rest with
    | nil =>
      intro hkey hrest
      show key.1 = front ++ []
      rw [hkey, List.length_eq_zero_iff.mp hrest]
    | @cons col v cs vals hv hvals ih =>
      intro hkey hrest
      have htot : colTotLen (col :: cs) = col.len + colTotLen cs := by simp [colTotLen]
      have hsplit : rest = rest.take col.len ++ rest.drop col.len :=
        (List.take_append_drop _ _).symm
      have hwrite := IxKey.write_append (hkey.trans (congrArg (front ++ ·) hsplit))
        (show (v.raw col.len).length = (rest.take col.len).length by
          rw [hv.length_raw, List.length_take]
          omega)
      have hstep := @ih (key.write front.length (v.raw col.len)) (front ++ v.raw col.len)
        (rest.drop col.len) (by rw [hwrite, List.append_assoc])
        (by rw [List.length_drop]; omega)
      rw [List.length_append, hv.length_raw] at hstep
      rw [copyValues, hstep, keyBytes, List.append_assoc]
  refine Subtype.ext ?_
  rw [ofValues_val hvals]
  exact @hloop cols vals key [] key.1 hvals rfl key.2

end Copy

section Places

variable {s : IxFile (IxKey cols)} {g : Labels PageNo (IxKey cols)} {ls : List PageNo}
  {front rest : List (IxKey cols × Rid)} {e : IxKey cols × Rid} {iid : Iid}

theorem BTree.prevLeaf_eq {ls₁ ls₂ : List PageNo} {p q : PageNo} {n : IxNode (IxKey cols)}
    (h : BTree s g (ls₁ ++ q :: p :: ls₂)) (hp : s.pages p = some n) (hleaf : n.isLeaf = true) :
    n.prevLeaf = q := by
  obtain ⟨a, b, -, hl⟩ := h.chain.next_eq
  simp only [linksOf, IxFile.tree, hp, Option.map_some, Option.bind_some, IxNode.view_leaf hleaf,
    PNode.links, Option.some.injEq, Prod.mk.injEq] at hl
  exact hl.1

/-- The key of a place is the first one behind it. -/
theorem BTree.getKey_names (h : BTree s g ls) (L : IxLayout (IxKey cols))
    (hiid : s.Names ls front rest iid) (key : IxKey cols) :
    s.getKey L iid key = some ((rest.head?.map Prod.fst).getD (endKey cols key)) := by
  obtain ⟨last, hlast, front', rest', hnames, -, hnone⟩ := h.leafEnd
  have hrest' : rest' = [] := List.eq_nil_iff_forall_not_mem.mpr fun e he => hnone e he trivial
  subst hrest'
  have hpairs := hiid.pairs_eq.symm.trans hnames.pairs_eq
  unfold IxFile.getKey
  rw [hlast]
  cases rest with
  | nil =>
    rw [List.append_nil, List.append_nil] at hpairs
    rw [hpairs] at hiid
    rw [if_pos (congrArg some (hnames.iid_eq hiid))]
    rfl
  | cons e rest =>
    have hne : ¬some last = some iid := by
      intro heq
      rw [Option.some_inj] at heq
      have hfront := hiid.front_eq h.chain.tiles.nodup (heq ▸ hnames)
      rw [hfront] at hpairs
      simp at hpairs
    obtain ⟨ls₁, p, ls₂, es₁, es₂, rfl, hes, -, hrest, rfl, hend⟩ := hiid
    cases es₂ with
    | nil =>
      rw [hend rfl] at hrest
      simp [IxFile.pairs] at hrest
    | cons e' es₂ =>
      rw [List.cons_append] at hrest
      obtain ⟨rfl, -⟩ := List.cons.inj hrest
      obtain ⟨n, hn, hleaf⟩ := h.mem_leaves.mp (show p ∈ ls₁ ++ p :: ls₂ by simp)
      rw [entriesOf_eq hn] at hes
      have hlt : ¬n.size ≤ es₁.length := by
        rw [IxNode.size, hes, List.length_append, List.length_cons]
        omega
      rw [if_neg hne, hn, Option.bind_some, if_neg hlt]
      simp [IxNode.getKey, IxNode.slot, hes]

theorem BTree.minusOne_first (h : BTree s g ls) (hiid : s.Names ls [] rest iid) :
    s.minusOne iid = some none := by
  obtain ⟨front', rest', hnames, hnone, -⟩ := h.leafBegin
  have hfront' : front' = [] := List.eq_nil_iff_forall_not_mem.mpr fun e he => hnone e he
  subst hfront'
  exact if_pos (hiid.iid_eq hnames)

theorem BTree.minusOne_names (h : BTree s g ls) (hiid : s.Names ls (front ++ [e]) rest iid) :
    ∃ iid', s.minusOne iid = some (some iid') ∧ s.Names ls front (e :: rest) iid' := by
  have hne : ¬iid = s.leafBegin := by
    intro heq
    obtain ⟨front', rest', hnames, hnone, -⟩ := h.leafBegin
    have hsame := hiid.front_eq h.chain.tiles.nodup (heq ▸ hnames)
    exact hnone e (hsame ▸ List.mem_append_right _ List.mem_cons_self)
  obtain ⟨ls₁, p, ls₂, es₁, es₂, rfl, hes, hfront, rfl, rfl, hend⟩ := hiid
  unfold IxFile.minusOne
  rw [if_neg hne]
  rcases List.eq_nil_or_concat es₁ with rfl | ⟨es, e', rfl⟩
  · rw [List.append_nil] at hfront
    rcases List.eq_nil_or_concat ls₁ with rfl | ⟨ls₁, q, rfl⟩
    · simp [IxFile.pairs] at hfront
    · rw [List.concat_eq_append, List.append_assoc, List.singleton_append] at h ⊢
      obtain ⟨n, hn, hleaf⟩ := h.mem_leaves.mp (show p ∈ ls₁ ++ q :: p :: ls₂ by simp)
      obtain ⟨m, hm, -⟩ := h.mem_leaves.mp (show q ∈ ls₁ ++ q :: p :: ls₂ by simp)
      have hqne := h.entriesOf_ne_nil (show q ∈ ls₁ ++ q :: p :: ls₂ by simp)
      obtain ⟨es, e', hqes⟩ := (List.eq_nil_or_concat _).resolve_left hqne
      rw [List.concat_eq_append] at hqes hfront
      rw [IxFile.pairs_append, show s.pairs [q] = s.entriesOf q by simp [IxFile.pairs], hqes,
        ← List.append_assoc] at hfront
      obtain ⟨rfl, heq⟩ := List.append_inj' hfront rfl
      cases heq
      refine ⟨⟨q, es.length⟩, ?_, ls₁, q, p :: ls₂, es, [e], rfl, hqes, rfl, ?_, rfl, by simp⟩
      · have hsize : m.size = es.length + 1 := by
          rw [IxNode.size, ← entriesOf_eq hm, hqes, List.length_append, List.length_singleton]
        dsimp only [List.length_nil]
        rw [if_pos rfl, hn, Option.bind_some, h.prevLeaf_eq hn hleaf, hm, Option.map_some, hsize,
          Nat.add_sub_cancel]
      · rw [IxFile.pairs_cons, hes]
        rfl
  · rw [List.concat_eq_append] at hes hfront ⊢
    rw [← List.append_assoc] at hfront
    obtain ⟨rfl, heq⟩ := List.append_inj' hfront rfl
    cases heq
    refine ⟨⟨p, es.length⟩, ?_, ls₁, p, ls₂, es, e :: es₂, rfl, ?_, rfl, rfl, rfl, by simp⟩
    · simp
    · rw [hes, List.append_assoc, List.singleton_append]

end Places

end Grmdb
