import Grmdb.IndexNode
import Grmdb.LogFormat
import Grmdb.TupleValue

namespace Grmdb

open ByteLayout

/-- The column in a key, for INT and CHAR columns. -/
def ColMeta.ixCol (col : ColMeta) : IxCol := if col.type = .int then .int else .char col.len

def IndexMeta.ixCols (index : IndexMeta) : List IxCol := index.cols.map ColMeta.ixCol

namespace IxCol

/-- `generate_max`. The greatest character is 126. -/
def generateMax : IxCol → Value
  | .int => .int (2 ^ 31 - 1)
  | .char len => .string (List.replicate len 126)

def generateMin : IxCol → Value
  | .int => .int (-2 ^ 31)
  | .char _ => .string []

/-- The values of the column: an `int`, or a string that fits and has no zero byte. -/
def Holds : IxCol → Value → Prop
  | .int, .int i => IsInt32 i
  | .char len, .string s => s.length ≤ len ∧ (0 : UInt8) ∉ s
  | _, _ => False

/-- `ix_compare` of one column of a key with a value. The types are compatible, which the
constructor of the scan has checked. -/
def compareValue (col : IxCol) (a : Bytes) (v : Value) : Int :=
  let aVal : Value :=
    match col with
    | .int => .int (readInt a)
    | .char len => .string ((a.take len).takeWhile (· ≠ 0))
  if aVal.comp v .lt = some true then -1 else if aVal.comp v .gt = some true then 1 else 0

end IxCol

/-- `ix_compare` of a key with values. -/
def ixCompareValues : List IxCol → Bytes → List Value → Int
  | col :: cols, a, v :: vals =>
    let res := col.compareValue a v
    if res ≠ 0 then res else ixCompareValues cols (a.drop col.len) vals
  | _, _, _ => 0

/-- The raw bytes of values, one after the other. -/
def keyBytes : List IxCol → List Value → Bytes
  | col :: cols, v :: vals => v.raw col.len ++ keyBytes cols vals
  | _, _ => []

section Codes

variable {col : IxCol} {cols : List IxCol} {u v : Value} {us vals : List Value} {r r' : Bytes}

namespace IxCol

theorem Holds.int (h : IxCol.int.Holds v) : ∃ i, v = .int i ∧ IsInt32 i := by
  cases v with
  | int i => exact ⟨i, rfl, h⟩
  | float x => cases h
  | string s => cases h

theorem Holds.char {len : Nat} (h : (IxCol.char len).Holds v) :
    ∃ s, v = .string s ∧ s.length ≤ len ∧ (0 : UInt8) ∉ s := by
  cases v with
  | int i => cases h
  | float x => cases h
  | string s => exact ⟨s, rfl, h⟩

theorem Holds.length_raw (h : col.Holds v) : (v.raw col.len).length = col.len := by
  cases col with
  | int =>
    obtain ⟨i, rfl, -⟩ := h.int
    exact length_littleEndian _ _
  | char len =>
    obtain ⟨s, rfl, hle, -⟩ := h.char
    simp only [Value.raw, IxCol.len, List.length_append, List.length_replicate]
    omega

theorem Holds.drop_raw (h : col.Holds v) : (v.raw col.len ++ r).drop col.len = r := by
  rw [List.drop_append_of_le_length (Nat.le_of_eq h.length_raw.symm),
    List.drop_of_length_le (Nat.le_of_eq h.length_raw), List.nil_append]

theorem holds_generateMin (col : IxCol) : col.Holds col.generateMin := by
  cases col with
  | int =>
    show IsInt32 _
    decide
  | char len => exact ⟨Nat.zero_le _, List.not_mem_nil⟩

theorem holds_generateMax (col : IxCol) : col.Holds col.generateMax := by
  cases col with
  | int =>
    show IsInt32 _
    decide
  | char len =>
    refine ⟨by rw [List.length_replicate], fun hmem => ?_⟩
    exact absurd (List.eq_of_mem_replicate hmem) (by decide)

/-- What the column is compared by depends on its own bytes only. -/
theorem decode_append (h : (v.raw col.len).length = col.len) :
    col.decode (v.raw col.len ++ r) = col.decode (v.raw col.len) := by
  cases col with
  | int =>
    have htake : (v.raw 4 ++ r).take 4 = (v.raw 4).take 4 := by
      rw [List.take_append_of_le_length (by rw [show (v.raw 4).length = 4 from h])]
    simp only [decode, IxCol.len, readInt, htake]
    rfl
  | char len =>
    have htake : (v.raw len ++ r).take len = (v.raw len).take len := by
      rw [List.take_append_of_le_length (by rw [show (v.raw len).length = len from h])]
    simp only [decode, IxCol.len, htake]

end IxCol

/-- Zero bytes at the end do not change the order of strings without zero bytes. -/
theorem charCodes_pad_lt {n : Nat} {s t : Bytes} (hs : s.length ≤ n) (ht : t.length ≤ n)
    (hs0 : (0 : UInt8) ∉ s) (ht0 : (0 : UInt8) ∉ t) :
    charCodes (s ++ List.replicate (n - s.length) 0) <
        charCodes (t ++ List.replicate (n - t.length) 0) ↔ charCodes s < charCodes t := by
  have hpos : ∀ {b : UInt8} {l : Bytes}, (0 : UInt8) ∉ b :: l → (0 : Int) < b.toNat := by
    intro b l hmem
    have hne : b ≠ 0 := fun heq => hmem (heq ▸ List.mem_cons_self)
    have hnat : b.toNat ≠ 0 := fun hz => hne (UInt8.toNat_inj.mp hz)
    omega
  induction s generalizing t n with
  | nil =>
    cases t with
    | nil => simp
    | cons b t =>
      obtain ⟨n, rfl⟩ : ∃ m, n = m + 1 := ⟨n - 1, by simp at ht; omega⟩
      have hb := hpos ht0
      simp only [charCodes, List.replicate_succ, List.cons_lt_cons_iff, List.nil_append,
        List.length_nil, Nat.sub_zero, List.map_cons, List.map_nil, List.cons_append,
        List.nil_lt_cons, iff_true]
      exact Or.inl hb
  | cons a s ih =>
    obtain ⟨n, rfl⟩ : ∃ m, n = m + 1 := ⟨n - 1, by simp at hs; omega⟩
    have ha := hpos hs0
    cases t with
    | nil =>
      have hnot : ¬((a.toNat : Int) < 0) := by omega
      have hne : (a.toNat : Int) ≠ 0 := by omega
      simp [charCodes, List.replicate_succ, List.cons_lt_cons_iff, hnot]
      omega
    | cons b t =>
      have htail := @ih n t (by simpa using hs) (by simpa using ht)
        (fun h => hs0 (List.mem_cons_of_mem a h)) (fun h => ht0 (List.mem_cons_of_mem b h))
      have hcons : ∀ (x : UInt8) (l : Bytes),
          charCodes (x :: l) = (x.toNat : Int) :: charCodes l := fun _ _ => rfl
      rw [List.cons_append, List.cons_append, hcons, hcons, hcons, hcons, List.cons_lt_cons_iff,
        List.cons_lt_cons_iff, List.length_cons, List.length_cons, Nat.add_sub_add_right,
        Nat.add_sub_add_right]
      exact or_congr_right (and_congr_right fun _ => htail)

namespace IxCol

/-- What stands for a value in the order of the keys. -/
def codes (col : IxCol) (v : Value) : List Int := col.decode (v.raw col.len)

theorem codes_int {i : Int} (h : IsInt32 i) : IxCol.int.codes (.int i) = [i] := by
  have hread : readInt ((Value.int i).raw 4) = i := readInt_intBytes h
  simp only [codes, decode, IxCol.len, hread]

theorem codes_char {len : Nat} {s : Bytes} (hs : s.length ≤ len) :
    (IxCol.char len).codes (.string s) =
      charCodes (s ++ List.replicate (len - s.length) 0) := by
  have htake : (s ++ List.replicate (len - s.length) 0).take len =
      s ++ List.replicate (len - s.length) 0 := by
    refine List.take_of_length_le ?_
    rw [List.length_append, List.length_replicate]
    omega
  simp only [codes, decode, Value.raw, IxCol.len, htake]
  rfl

theorem op_holds_congr {α β : Type} [LT α] [DecidableEq α] [DecidableLT α] [LT β] [DecidableEq β]
    [DecidableLT β] {a b : α} {x y : β} (hlt : a < b ↔ x < y) (hgt : b < a ↔ y < x)
    (heq : a = b ↔ x = y) (op : CompOp) : op.holds a b = op.holds x y := by
  cases op <;> simp only [CompOp.holds, hlt, hgt, heq, ne_eq]

/-- Two values of the column are compared as what stands for them in a key. -/
theorem comp_codes (hu : col.Holds u) (hv : col.Holds v) (op : CompOp) :
    u.comp v op = some (op.holds (col.codes u) (col.codes v)) := by
  cases col with
  | int =>
    obtain ⟨i, rfl, hi⟩ := hu.int
    obtain ⟨j, rfl, hj⟩ := hv.int
    have hcons : ∀ i j : Int, i < j ↔ [i] < [j] := by
      intro i j
      simp [List.cons_lt_cons_iff]
    rw [codes_int hi, codes_int hj]
    exact congrArg some (op_holds_congr (hcons i j) (hcons j i) (by simp) op)
  | char len =>
    obtain ⟨s, rfl, hs, hs0⟩ := hu.char
    obtain ⟨t, rfl, ht, ht0⟩ := hv.char
    have hlt := charCodes_pad_lt hs ht hs0 ht0
    have hgt := charCodes_pad_lt ht hs ht0 hs0
    have heq : charCodes s = charCodes t ↔
        charCodes (s ++ List.replicate (len - s.length) 0) =
          charCodes (t ++ List.replicate (len - t.length) 0) := by
      rw [← not_iff_not, ← ne_eq, ← ne_eq, ne_iff_lt_or_gt, ne_iff_lt_or_gt]
      exact or_congr hlt.symm hgt.symm
    rw [codes_char hs, codes_char ht]
    exact congrArg some (op_holds_congr hlt.symm hgt.symm heq op)

/-- The value that the comparison takes out of the key. -/
theorem compareValue_raw (hu : col.Holds u) :
    col.compareValue (u.raw col.len ++ r) v =
      if u.comp v .lt = some true then -1 else if u.comp v .gt = some true then 1 else 0 := by
  have hlen := hu.length_raw
  cases col with
  | int =>
    obtain ⟨i, rfl, hi⟩ := hu.int
    have hread : readInt ((Value.int i).raw 4 ++ r) = i := by
      have hdecode := @decode_append .int (.int i) r hlen
      simp only [decode, IxCol.len, List.cons.injEq, and_true] at hdecode
      rw [hdecode]
      exact readInt_intBytes hi
    simp only [compareValue, IxCol.len, hread]
  | char len =>
    obtain ⟨s, rfl, hs, hs0⟩ := hu.char
    have hread : (((Value.string s).raw len ++ r).take len).takeWhile (· ≠ 0) = s := by
      have hclean : ∀ b ∈ s, decide (b ≠ 0) = true := by
        intro b hb
        rw [decide_eq_true_eq]
        exact fun heq => hs0 (heq ▸ hb)
      have hlen' : ((Value.string s).raw len).length = len := hlen
      have htake : ((Value.string s).raw len ++ r).take len = (Value.string s).raw len := by
        rw [List.take_append_of_le_length (Nat.le_of_eq hlen'.symm),
          List.take_of_length_le (Nat.le_of_eq hlen')]
      rw [htake, Value.raw, List.takeWhile_append_of_pos hclean]
      cases len - s.length with
      | zero => simp
      | succ n => simp [List.replicate_succ]
    simp only [compareValue, IxCol.len, hread]

theorem memcmp_unit (a b : Bytes) : memcmp a b = -1 ∨ memcmp a b = 0 ∨ memcmp a b = 1 := by
  induction a generalizing b with
  | nil => simp [memcmp]
  | cons x a ih =>
    cases b with
    | nil => simp [memcmp]
    | cons y b =>
      unfold memcmp
      split
      next => exact Or.inl rfl
      next =>
        split
        next => exact Or.inr (Or.inr rfl)
        next => exact ih b

theorem compare_unit (col : IxCol) (a b : Bytes) :
    col.compare a b = -1 ∨ col.compare a b = 0 ∨ col.compare a b = 1 := by
  cases col with
  | int =>
    simp only [compare]
    split_ifs
    · exact Or.inl rfl
    · exact Or.inr (Or.inr rfl)
    · exact Or.inr (Or.inl rfl)
  | char len => exact memcmp_unit _ _

/-- The comparison with a value is the one with its bytes. -/
theorem compareValue_eq (hu : col.Holds u) (hv : col.Holds v) (hr : r.length = r'.length) :
    col.compareValue (u.raw col.len ++ r) v =
      col.compare (u.raw col.len ++ r) (v.raw col.len ++ r') := by
  have hlen : (u.raw col.len ++ r).length = (v.raw col.len ++ r').length := by
    rw [List.length_append, List.length_append, hu.length_raw, hv.length_raw, hr]
  obtain ⟨hneg, hzero⟩ := col.compare_sign hlen
  rw [decode_append hu.length_raw, decode_append hv.length_raw] at hneg hzero
  change _ ↔ col.codes u < col.codes v at hneg
  change _ ↔ col.codes u = col.codes v at hzero
  rw [compareValue_raw hu, comp_codes hu hv, comp_codes hu hv]
  simp only [Option.some.injEq, CompOp.holds, decide_eq_true_eq]
  rcases col.compare_unit (u.raw col.len ++ r) (v.raw col.len ++ r') with hc | hc | hc
  · rw [hc, if_pos (hneg.mp (by omega))]
  · have heq := hzero.mp hc
    rw [hc, heq, if_neg (lt_irrefl _), if_neg (lt_irrefl _)]
  · have hle : ¬col.codes u < col.codes v := fun h => by
      have := hneg.mpr h
      omega
    have hne : col.codes u ≠ col.codes v := fun h => by
      have := hzero.mpr h
      omega
    rw [hc, if_neg hle, if_pos (lt_of_le_of_ne (not_lt.mp hle) hne.symm)]

end IxCol

theorem length_keyBytes (h : List.Forall₂ IxCol.Holds cols vals) :
    (keyBytes cols vals).length = colTotLen cols := by
  induction h with
  | nil => rfl
  | @cons col v cols vals hv hvals ih =>
    rw [keyBytes, List.length_append, hv.length_raw, ih]
    simp [colTotLen]

theorem holds_map {f : IxCol → Value} (h : ∀ col, IxCol.Holds col (f col)) (cs : List IxCol) :
    List.Forall₂ IxCol.Holds cs (cs.map f) :=
  List.forall₂_map_right_iff.mpr (List.forall₂_same.mpr fun col _ => h col)

/-- The key of a row with these values. -/
def IxKey.ofValues (cols : List IxCol) (vals : List Value) : IxKey cols :=
  ⟨(keyBytes cols vals).takeD (colTotLen cols) 0, List.takeD_length _ _ _⟩

theorem ofValues_val (h : List.Forall₂ IxCol.Holds cols vals) :
    (IxKey.ofValues cols vals).1 = keyBytes cols vals := by
  have hlen := length_keyBytes h
  show (keyBytes cols vals).takeD (colTotLen cols) 0 = keyBytes cols vals
  rw [List.takeD_eq_take _ (Nat.le_of_eq hlen.symm), List.take_of_length_le (Nat.le_of_eq hlen)]

theorem ixCompareValues_eq (hus : List.Forall₂ IxCol.Holds cols us)
    (hvals : List.Forall₂ IxCol.Holds cols vals) :
    ixCompareValues cols (keyBytes cols us) vals =
      ixCompare cols (keyBytes cols us) (keyBytes cols vals) := by
  induction hus generalizing vals with
  | nil => rfl
  | @cons col u cols us hu hus ih =>
    cases hvals with
    | cons hv hvals =>
      have hlen := (length_keyBytes hus).trans (length_keyBytes hvals).symm
      simp only [ixCompareValues, ixCompare, keyBytes, IxCol.compareValue_eq hu hv hlen,
        hu.drop_raw, hv.drop_raw, ih hvals]

/-- The search with values sees the order of the keys. -/
theorem ixCompareValues_ofValues (hus : List.Forall₂ IxCol.Holds cols us)
    (hvals : List.Forall₂ IxCol.Holds cols vals) :
    ixCompareValues cols (IxKey.ofValues cols us).1 vals =
      ixCompare cols (IxKey.ofValues cols us).1 (IxKey.ofValues cols vals).1 := by
  rw [ofValues_val hus, ofValues_val hvals, ixCompareValues_eq hus hvals]

/-- The order of keys, column by column. -/
theorem ofValues_lt_cons (hu : col.Holds u) (hv : col.Holds v)
    (hus : List.Forall₂ IxCol.Holds cols us) (hvals : List.Forall₂ IxCol.Holds cols vals) :
    IxKey.ofValues (col :: cols) (u :: us) < IxKey.ofValues (col :: cols) (v :: vals) ↔
      col.codes u < col.codes v ∨
        col.codes u = col.codes v ∧ IxKey.ofValues cols us < IxKey.ofValues cols vals := by
  have hcodes : ∀ {cols : List IxCol} {us vals : List Value}, List.Forall₂ IxCol.Holds cols us →
      List.Forall₂ IxCol.Holds cols vals →
      (IxKey.ofValues cols us < IxKey.ofValues cols vals ↔
        decodeKey cols (keyBytes cols us) < decodeKey cols (keyBytes cols vals)) := by
    intro cols us vals hus hvals
    rw [← ofValues_val hus, ← ofValues_val hvals]
    exact Iff.rfl
  rw [hcodes (.cons hu hus) (.cons hv hvals), hcodes hus hvals]
  simp only [decodeKey, keyBytes, hu.drop_raw, hv.drop_raw,
    IxCol.decode_append hu.length_raw, IxCol.decode_append hv.length_raw]
  exact append_lt_append_iff (col.decode_length_eq (hu.length_raw.trans hv.length_raw.symm))

end Codes

end Grmdb
