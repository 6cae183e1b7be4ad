import Grmdb.LogRecord

namespace Grmdb

/-- A column of an index key, INT or CHAR with its length. -/
inductive IxCol where
  | int
  | char (len : Nat)
  deriving DecidableEq, Repr

def IxCol.len : IxCol → Nat
  | .int => 4
  | .char len => len

def colTotLen (cols : List IxCol) : Nat := (cols.map IxCol.len).sum

/-- `*(int *)a`: four bytes, little endian, two's complement. -/
def readInt (a : Bytes) : Int :=
  let u : Nat := Nat.ofDigits 256 ((a.take 4).map UInt8.toNat)
  if u < 2 ^ 31 then u else u - 2 ^ 32

/-- `memcmp` of two equally long ranges, as the sign of its result. -/
def memcmp : Bytes → Bytes → Int
  | x :: xs, y :: ys => if x < y then -1 else if y < x then 1 else memcmp xs ys
  | _, _ => 0

def IxCol.compare : IxCol → Bytes → Bytes → Int
  | .int, a, b =>
    if readInt a < readInt b then -1 else if readInt b < readInt a then 1 else 0
  | .char len, a, b => memcmp (a.take len) (b.take len)

def ixCompare : List IxCol → Bytes → Bytes → Int
  | [], _, _ => 0
  | col :: cols, a, b =>
    let res := col.compare a b
    if res ≠ 0 then res else ixCompare cols (a.drop col.len) (b.drop col.len)

/-- The bytes of one key of an index over `cols`. -/
def IxKey (cols : List IxCol) : Type := { key : Bytes // key.length = colTotLen cols }

instance (cols : List IxCol) : DecidableEq (IxKey cols) :=
  inferInstanceAs (DecidableEq { key : Bytes // key.length = colTotLen cols })

/-- What `memset(.., 0, ..)` leaves in a key slot. -/
def IxKey.zero (cols : List IxCol) : IxKey cols := ⟨List.replicate (colTotLen cols) 0, by simp⟩

/-- The numbers `ix_compare` looks at, in the order it looks at them. -/
def IxCol.decode : IxCol → Bytes → List Int
  | .int, a => [readInt a]
  | .char len, a => (a.take len).map fun b => (b.toNat : Int)

def decodeKey : List IxCol → Bytes → List Int
  | [], _ => []
  | col :: cols, a => col.decode a ++ decodeKey cols (a.drop col.len)

theorem ofDigits_take_four_lt (a : Bytes) :
    Nat.ofDigits 256 ((a.take 4).map UInt8.toNat) < 2 ^ 32 := by
  have small : ∀ d ∈ (a.take 4).map UInt8.toNat, d < 256 := by
    intro d hd
    obtain ⟨x, -, rfl⟩ := List.mem_map.mp hd
    exact x.toNat_lt
  refine (Nat.ofDigits_lt_base_pow_length (by decide) small).trans_le ?_
  calc 256 ^ ((a.take 4).map UInt8.toNat).length
      ≤ 256 ^ 4 := Nat.pow_le_pow_right (by decide) (by simp)
    _ = 2 ^ 32 := by decide

/-- An `int` has no more than 32 bits. -/
theorem readInt_bounds (a : Bytes) : -2 ^ 31 ≤ readInt a ∧ readInt a < 2 ^ 31 := by
  have hlt := ofDigits_take_four_lt a
  simp only [readInt]
  split
  next => omega
  next => omega

theorem readInt_injOn {a b : Bytes} (ha : 4 ≤ a.length) (hb : 4 ≤ b.length)
    (h : readInt a = readInt b) : a.take 4 = b.take 4 := by
  have same : Nat.ofDigits 256 ((a.take 4).map UInt8.toNat) =
      Nat.ofDigits 256 ((b.take 4).map UInt8.toNat) := by
    have ba := ofDigits_take_four_lt a
    have bb := ofDigits_take_four_lt b
    simp only [readInt] at h
    split at h <;> split at h <;> omega
  have digits := Nat.ofDigits_inj_of_len_eq (by decide) (by simp [ha, hb])
    (fun d hd => by obtain ⟨x, -, rfl⟩ := List.mem_map.mp hd; exact x.toNat_lt)
    (fun d hd => by obtain ⟨x, -, rfl⟩ := List.mem_map.mp hd; exact x.toNat_lt) same
  exact (List.map_injective_iff.mpr fun x y hxy => UInt8.toNat_inj.mp hxy) digits

theorem append_lt_append_iff {p q x y : List Int} (len : p.length = q.length) :
    p ++ x < q ++ y ↔ p < q ∨ p = q ∧ x < y := by
  induction p generalizing q with
  | nil =>
    cases List.length_eq_zero_iff.mp len.symm
    simp
  | cons a p ih =>
    obtain ⟨b, q, rfl⟩ := List.exists_cons_of_length_eq_add_one len.symm
    have ih := ih (q := q) (by simpa using len)
    simp only [List.cons_append, List.cons_lt_cons_iff, ih, List.cons.injEq]
    tauto

namespace IxCol

theorem decode_length_eq (col : IxCol) {a b : Bytes} (len : a.length = b.length) :
    (col.decode a).length = (col.decode b).length := by
  cases col with
  | int => simp [decode]
  | char n => simp [decode, len]

theorem memcmp_sign {a b : Bytes} (len : a.length = b.length) :
    (memcmp a b < 0 ↔ a.map (fun x => (x.toNat : Int)) < b.map (fun x => (x.toNat : Int))) ∧
      (memcmp a b = 0 ↔ a.map (fun x => (x.toNat : Int)) = b.map (fun x => (x.toNat : Int))) := by
  induction a generalizing b with
  | nil =>
    cases List.length_eq_zero_iff.mp len.symm
    simp [memcmp]
  | cons x a ih =>
    obtain ⟨y, b, rfl⟩ := List.exists_cons_of_length_eq_add_one len.symm
    obtain ⟨neg, zero⟩ := ih (b := b) (by simpa using len)
    simp only [memcmp, List.map_cons, List.cons_lt_cons_iff, List.cons.injEq, Nat.cast_lt,
      Nat.cast_inj, UInt8.lt_iff_toNat_lt]
    rcases lt_trichotomy x.toNat y.toNat with h | h | h
    · simp [h, h.ne]
    · simp [h, neg, zero]
    · simp [h, h.not_gt, h.ne']

theorem compare_sign (col : IxCol) {a b : Bytes} (len : a.length = b.length) :
    (col.compare a b < 0 ↔ col.decode a < col.decode b) ∧
      (col.compare a b = 0 ↔ col.decode a = col.decode b) := by
  cases col with
  | int =>
    simp only [compare, decode, List.cons_lt_cons_iff, List.cons.injEq]
    rcases lt_trichotomy (readInt a) (readInt b) with h | h | h
    · simp [h, h.ne]
    · simp [h]
    · simp [h, h.not_gt, h.ne']
  | char n => exact memcmp_sign (by simp [len])

theorem decode_injOn (col : IxCol) {a b : Bytes} (ha : col.len ≤ a.length)
    (hb : col.len ≤ b.length) (h : col.decode a = col.decode b) :
    a.take col.len = b.take col.len := by
  cases col with
  | int => exact readInt_injOn ha hb (by simpa [decode] using h)
  | char n =>
    refine (List.map_injective_iff.mpr fun x y hxy => ?_) h
    exact UInt8.toNat_inj.mp (Int.ofNat_inj.mp hxy)

end IxCol

theorem ixCompare_sign (cols : List IxCol) {a b : Bytes} (len : a.length = b.length) :
    (ixCompare cols a b < 0 ↔ decodeKey cols a < decodeKey cols b) ∧
      (ixCompare cols a b = 0 ↔ decodeKey cols a = decodeKey cols b) := by
  induction cols generalizing a b with
  | nil => simp [ixCompare, decodeKey]
  | cons col cols ih =>
    obtain ⟨neg, zero⟩ := col.compare_sign len
    obtain ⟨negRest, zeroRest⟩ := ih (a := a.drop col.len) (b := b.drop col.len) (by simp [len])
    have same := col.decode_length_eq len
    simp only [ixCompare, decodeKey, append_lt_append_iff same]
    split
    · next hne =>
      have differ : col.decode a ≠ col.decode b := fun h => hne (zero.mpr h)
      refine ⟨by simp [neg, differ], ?_⟩
      simp only [hne, false_iff]
      exact fun h => differ (List.append_inj h same).1
    · next heq =>
      have agree : col.decode a = col.decode b := zero.mp (not_not.mp heq)
      simp [agree, negRest, zeroRest]

theorem decodeKey_injOn {cols : List IxCol} {a b : Bytes} (ha : a.length = colTotLen cols)
    (hb : b.length = colTotLen cols) (h : decodeKey cols a = decodeKey cols b) : a = b := by
  induction cols generalizing a b with
  | nil =>
    simp only [colTotLen, List.map_nil, List.sum_nil, List.length_eq_zero_iff] at ha hb
    rw [ha, hb]
  | cons col cols ih =>
    simp only [colTotLen, List.map_cons, List.sum_cons] at ha hb
    have split := List.append_inj h (col.decode_length_eq (ha.trans hb.symm))
    have front := col.decode_injOn (by omega) (by omega) split.1
    have back := ih (a := a.drop col.len) (b := b.drop col.len)
      (by simp [colTotLen, ha]) (by simp [colTotLen, hb]) split.2
    rw [← List.take_append_drop col.len a, front, back, List.take_append_drop]

/-- Keys of one index in the order of `ix_compare`. -/
instance (cols : List IxCol) : LinearOrder (IxKey cols) :=
  LinearOrder.lift' (fun key => decodeKey cols key.1)
    fun a b h => Subtype.ext (decodeKey_injOn a.2 b.2 h)

theorem ixCompare_neg_iff {cols : List IxCol} (a b : IxKey cols) :
    ixCompare cols a.1 b.1 < 0 ↔ a < b :=
  (ixCompare_sign cols (a.2.trans b.2.symm)).1

theorem ixCompare_eq_zero_iff {cols : List IxCol} (a b : IxKey cols) :
    ixCompare cols a.1 b.1 = 0 ↔ a = b := by
  rw [(ixCompare_sign cols (a.2.trans b.2.symm)).2]
  refine ⟨fun h => Subtype.ext (decodeKey_injOn a.2 b.2 h), fun h => by rw [h]⟩

end Grmdb
