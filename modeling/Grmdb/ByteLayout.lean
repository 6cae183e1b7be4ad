import Mathlib

namespace ByteLayout

/-- `memcpy` of `src` to `dest + off`. -/
def memcpy (dest : List UInt8) (off : Nat) (src : List UInt8) : List UInt8 :=
  dest.take off ++ src ++ dest.drop (off + src.length)

/-- The `len` bytes at `src + off`, when they lie inside `src`. -/
def readAt (src : List UInt8) (off len : Nat) : Option (List UInt8) :=
  if off + len ≤ src.length then some ((src.drop off).take len) else none

/-- A number in `w` bytes, the lowest one first. -/
def littleEndian : Nat → Nat → List UInt8
  | 0, _ => []
  | w + 1, n => UInt8.ofNat n :: littleEndian w (n / 256)

/-- The number that `bytes` stand for, the lowest one first. -/
def readNat (bytes : List UInt8) : Nat := Nat.ofDigits 256 (bytes.map UInt8.toNat)

@[simp] theorem length_littleEndian (w n : Nat) : (littleEndian w n).length = w := by
  induction w generalizing n with
  | zero => rfl
  | succ w ih => simp [littleEndian, ih]

theorem readNat_littleEndian (w n : Nat) : readNat (littleEndian w n) = n % 256 ^ w := by
  induction w generalizing n with
  | zero => simp [littleEndian, readNat, Nat.mod_one]
  | succ w ih =>
    have hlow : (UInt8.ofNat n).toNat = n % 256 := by simp
    have hrest := ih (n / 256)
    simp only [readNat] at hrest
    simp only [readNat, littleEndian, List.map_cons, Nat.ofDigits_cons, hlow, hrest]
    rw [pow_succ', Nat.mod_mul]

theorem memcpy_zero (dest src : List UInt8) : memcpy dest 0 src = src ++ dest.drop src.length := by
  simp [memcpy]

/-- A write right behind what is already written. -/
theorem memcpy_append {done : List UInt8} {off : Nat} (h : off = done.length)
    (rest src : List UInt8) :
    memcpy (done ++ rest) off src = done ++ src ++ rest.drop src.length := by
  subst h
  simp [memcpy]

/-- A write inside `dest` keeps its length. -/
theorem length_memcpy {dest src : List UInt8} {off : Nat} (h : off + src.length ≤ dest.length) :
    (memcpy dest off src).length = dest.length := by
  simp only [memcpy, List.length_append, List.length_take, List.length_drop]
  omega

theorem take_memcpy {dest src : List UInt8} {off : Nat} (h : off + src.length ≤ dest.length) :
    (memcpy dest off src).take (off + src.length) = dest.take off ++ src := by
  have hlen : (dest.take off ++ src).length = off + src.length := by
    simp only [List.length_append, List.length_take]
    omega
  rw [memcpy, ← hlen, List.take_left']
  rfl

section Read

variable {dest src tail raw : List UInt8} {off off' len : Nat}

theorem readAt_append_left (h : readAt src off len = some raw) :
    readAt (src ++ tail) off len = some raw := by
  unfold readAt at h ⊢
  split at h
  next hle =>
    cases h
    rw [if_pos (by rw [List.length_append]; omega), List.drop_append_of_le_length (by omega),
      List.take_append_of_le_length (by rw [List.length_drop]; omega)]
  next => cases h

theorem readAt_append_right (src tail : List UInt8) (off len : Nat) :
    readAt (src ++ tail) (off + src.length) len = readAt tail off len := by
  unfold readAt
  have hnil : src.drop (src.length + off) = [] := List.drop_eq_nil_of_le (by omega)
  rw [List.length_append, Nat.add_comm off, List.drop_append, Nat.add_assoc, hnil]
  simp

theorem readAt_memcpy (h : off + src.length ≤ dest.length) :
    readAt (memcpy dest off src) off src.length = some src := by
  have hlen : (dest.take off).length = off := by
    rw [List.length_take]
    omega
  rw [readAt, if_pos (by rw [length_memcpy h]; exact h), memcpy, List.append_assoc,
    List.drop_left' hlen, List.take_left' rfl]

/-- A write behind a range leaves it. -/
theorem readAt_memcpy_behind (h : off + src.length ≤ dest.length) (hbehind : off' + len ≤ off) :
    readAt (memcpy dest off src) off' len = readAt dest off' len := by
  have htake : (memcpy dest off src).take (off' + len) = dest.take (off' + len) := by
    have hlen : (dest.take off).length = off := by
      rw [List.length_take]
      omega
    rw [memcpy, List.append_assoc, List.take_append_of_le_length (by omega), List.take_take,
      min_eq_left hbehind]
  have hread : ∀ bytes : List UInt8, (bytes.drop off').take len =
      (bytes.take (off' + len)).drop off' := by
    intro bytes
    rw [List.drop_take]
    congr 1
    omega
  simp only [readAt, length_memcpy h, hread, htake]

end Read

/-- The bytes of `src` from `off` on are `tail`. -/
def StandsAt (src : List UInt8) (off : Nat) (tail : List UInt8) : Prop :=
  ∃ before, src = before ++ tail ∧ off = before.length

theorem StandsAt.start (src : List UInt8) : StandsAt src 0 src := ⟨[], rfl, rfl⟩

theorem StandsAt.next {src part tail : List UInt8} {off off' : Nat}
    (h : StandsAt src off (part ++ tail)) (hoff : off' = off + part.length) :
    StandsAt src off' tail := by
  obtain ⟨before, rfl, rfl⟩ := h
  exact ⟨before ++ part, by simp, by simp [hoff]⟩

theorem StandsAt.readAt {src part tail : List UInt8} {off len : Nat}
    (h : StandsAt src off (part ++ tail)) (hlen : len = part.length) :
    readAt src off len = some part := by
  obtain ⟨before, rfl, rfl⟩ := h
  subst hlen
  simp [ByteLayout.readAt]

end ByteLayout
