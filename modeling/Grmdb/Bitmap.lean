import Grmdb.RmScan

namespace Grmdb

def BITMAP_HIGHEST_BIT : UInt32 := 0x80

namespace Bitmap

def getBucket (pos : Nat) : Nat := pos / BITMAP_WIDTH

/-- The mask is returned as a `char`: the highest bit is -128. -/
def getBit (pos : Nat) : Int8 :=
  (BITMAP_HIGHEST_BIT >>> UInt32.ofNat (pos % BITMAP_WIDTH)).toUInt8.toInt8

/-- The bytes are combined as `int` and cut to a `char` again. -/
def set (bm : List Int8) (pos : Nat) : List Int8 :=
  bm.modify (getBucket pos) fun b => (b.toInt32 ||| (getBit pos).toInt32).toInt8

def reset (bm : List Int8) (pos : Nat) : List Int8 :=
  bm.modify (getBucket pos) fun b => (b.toInt32 &&& (~~~(getBit pos).toInt32).toInt8.toInt32).toInt8

def isSet (bm : List Int8) (pos : Nat) : Bool :=
  (bm.getD (getBucket pos) 0).toInt32 &&& (getBit pos).toInt32 != 0

/-- The bitmap by position, as a page of a table file shows it. -/
def bits (bm : List Int8) (pos : Int) : Bool := if 0 ≤ pos then isSet bm pos.toNat else false

/-- `next_bit` on the bytes of a bitmap. -/
def nextBit (bit : Bool) (bm : List Int8) (maxN : Nat) (curr : Int) : Int :=
  Grmdb.nextBit bit (bits bm) maxN curr

variable {bm : List Int8} {p q : Nat}

/-- Position `p` stands for the bits of its byte from the highest one down. -/
theorem toBitVec_getBit (p : Nat) : (getBit p).toBitVec = BitVec.twoPow 8 (7 - p % 8) := by
  have hlt : p % 8 < 8 := Nat.mod_lt _ (by decide)
  simp only [getBit, BITMAP_WIDTH]
  generalize p % 8 = k at hlt ⊢
  interval_cases k
  all_goals rfl

theorem toInt32_ne_zero_iff {b : Int8} : b.toInt32 ≠ 0 ↔ b ≠ 0 := by
  refine not_congr ⟨fun h => ?_, fun h => by rw [h]; rfl⟩
  rw [← Int8.toInt8_toInt32 b, h]
  rfl

/-- The test against a mask, in `int`, is the bit of the byte. -/
theorem isSet_eq (bm : List Int8) (p : Nat) :
    isSet bm p = (bm.getD (p / 8) 0).toBitVec.getLsbD (7 - p % 8) := by
  have hmask : (bm.getD (p / 8) 0 &&& getBit p).toBitVec =
      if (bm.getD (p / 8) 0).toBitVec.getLsbD (7 - p % 8) then BitVec.twoPow 8 (7 - p % 8)
      else 0#8 := by
    rw [Int8.toBitVec_and, toBitVec_getBit, BitVec.and_twoPow]
  have hone : BitVec.twoPow 8 (7 - p % 8) ≠ 0#8 := by
    intro hzero
    have hbit := congrArg (fun v => BitVec.getLsbD v (7 - p % 8)) hzero
    simp only [BitVec.getLsbD_twoPow, BitVec.getLsbD_zero] at hbit
    simp at hbit
    omega
  rw [Bool.eq_iff_iff]
  simp only [isSet, getBucket, BITMAP_WIDTH, bne_iff_ne, ← Int8.toInt32_and]
  rw [toInt32_ne_zero_iff, ne_eq, ← Int8.toBitVec_inj, hmask]
  split
  next hset => exact ⟨fun _ => hset, fun _ => hone⟩
  next hset => exact ⟨fun h => absurd rfl h, fun h => absurd h hset⟩

/-- The byte of a position of the bitmap after a change to the byte of another one. -/
theorem getD_modify {f : Int8 → Int8} (hp : p < 8 * bm.length) :
    (bm.modify (p / 8) f).getD (q / 8) 0 =
      if q / 8 = p / 8 then f (bm.getD (q / 8) 0) else bm.getD (q / 8) 0 := by
  have hlt : p / 8 < bm.length := by omega
  simp only [List.getD_eq_getElem?_getD, List.getElem?_modify]
  split
  next heq =>
    rw [if_pos heq.symm, ← heq, List.getElem?_eq_getElem hlt]
    rfl
  next hne =>
    rw [if_neg (Ne.symm hne)]
    simp

theorem isSet_set (hp : p < 8 * bm.length) :
    isSet (set bm p) q = if q = p then true else isSet bm q := by
  have hq : q % 8 < 8 := Nat.mod_lt _ (by decide)
  have hbyte : ∀ b : Int8, (b.toInt32 ||| (getBit p).toInt32).toInt8 = b ||| getBit p := by
    intro b
    rw [Int32.toInt8_or, Int8.toInt8_toInt32, Int8.toInt8_toInt32]
  rw [isSet_eq, isSet_eq, set, show getBucket p = p / 8 from rfl, getD_modify hp]
  by_cases hbucket : q / 8 = p / 8
  · rw [if_pos hbucket, hbyte, Int8.toBitVec_or, BitVec.getLsbD_or, toBitVec_getBit,
      BitVec.getLsbD_twoPow]
    by_cases heq : q = p
    · subst heq
      simp
      omega
    · have hne : 7 - p % 8 ≠ 7 - q % 8 := by omega
      simp [heq, hne]
  · have hne : q ≠ p := fun heq => hbucket (by rw [heq])
    rw [if_neg hbucket, if_neg hne]

theorem isSet_reset (hp : p < 8 * bm.length) :
    isSet (reset bm p) q = if q = p then false else isSet bm q := by
  have hq : q % 8 < 8 := Nat.mod_lt _ (by decide)
  have hbyte : ∀ b : Int8, (b.toInt32 &&& (~~~(getBit p).toInt32).toInt8.toInt32).toInt8 =
      b &&& ~~~getBit p := by
    intro b
    rw [Int32.toInt8_and, Int8.toInt8_toInt32, Int8.toInt8_toInt32, Int32.toInt8_not,
      Int8.toInt8_toInt32]
  rw [isSet_eq, isSet_eq, reset, show getBucket p = p / 8 from rfl, getD_modify hp]
  by_cases hbucket : q / 8 = p / 8
  · rw [if_pos hbucket, hbyte, Int8.toBitVec_and, Int8.toBitVec_not, BitVec.getLsbD_and,
      BitVec.getLsbD_not, toBitVec_getBit, BitVec.getLsbD_twoPow]
    by_cases heq : q = p
    · subst heq
      simp
    · have hne : 7 - p % 8 ≠ 7 - q % 8 := by omega
      simp [heq, hne]
      omega
  · have hne : q ≠ p := fun heq => hbucket (by rw [heq])
    rw [if_neg hbucket, if_neg hne]

end Bitmap

section NextBit

variable {bit : Bool} {bm : Int → Bool} {maxN : Nat} {curr i : Int}

theorem nextBit_least (hlo : curr < i) (hhi : i < maxN) (hit : bm i = bit)
    (hfirst : ∀ j, curr < j → j < i → bm j ≠ bit) : nextBit bit bm maxN curr = i := by
  have hlen : ((maxN - (curr + 1)).toNat : Int) = maxN - (curr + 1) := by omega
  obtain ⟨low, high, before, found⟩ :=
    nextBitLoop_spec bit bm (maxN - (curr + 1)).toNat (curr + 1)
  rw [nextBit, if_pos (by omega)]
  rcases lt_trichotomy (nextBitLoop bit bm (maxN - (curr + 1)).toNat (curr + 1)) i with
    hlt | heq | hgt
  · exact absurd (found (by omega)) (hfirst _ (by omega) hlt)
  · exact heq
  · exact absurd hit (before i (by omega) hgt)

theorem nextBit_none (hnone : ∀ j, curr < j → j < maxN → bm j ≠ bit) :
    nextBit bit bm maxN curr = maxN := by
  rw [nextBit]
  split
  next hlt =>
    have hlen : ((maxN - (curr + 1)).toNat : Int) = maxN - (curr + 1) := by omega
    obtain ⟨low, high, -, found⟩ :=
      nextBitLoop_spec bit bm (maxN - (curr + 1)).toNat (curr + 1)
    by_contra hne
    exact hnone _ (by omega) (by omega) (found (by omega))
  next => rfl

end NextBit

/-- `set` and `reset` change the bit of their position and no other one, and `next_bit` goes to
the next position that has the bit. -/
theorem bitmap_laws (bm : List Int8) :
    (∀ p q : Nat, p < 8 * bm.length → q < 8 * bm.length →
      Bitmap.isSet (Bitmap.set bm p) p = true ∧ Bitmap.isSet (Bitmap.reset bm p) p = false ∧
        (q ≠ p → Bitmap.isSet (Bitmap.set bm p) q = Bitmap.isSet bm q ∧
          Bitmap.isSet (Bitmap.reset bm p) q = Bitmap.isSet bm q)) ∧
      ∀ (bit : Bool) (maxN : Nat) (curr : Int), maxN ≤ 8 * bm.length → -1 ≤ curr →
        (∀ i : Nat, IsLeast {i : Nat | curr < i ∧ i < maxN ∧ Bitmap.isSet bm i = bit} i →
          Bitmap.nextBit bit bm maxN curr = i) ∧
        ((∀ i : Nat, curr < i → i < maxN → Bitmap.isSet bm i ≠ bit) →
          Bitmap.nextBit bit bm maxN curr = maxN) := by
  have hbits : ∀ j : Nat, Bitmap.bits bm j = Bitmap.isSet bm j := fun j => by
    rw [Bitmap.bits, if_pos (Int.natCast_nonneg j), Int.toNat_natCast]
  constructor
  · intro p q hp _
    refine ⟨?_, ?_, fun hne => ⟨?_, ?_⟩⟩
    · rw [Bitmap.isSet_set hp, if_pos rfl]
    · rw [Bitmap.isSet_reset hp, if_pos rfl]
    · rw [Bitmap.isSet_set hp, if_neg hne]
    · rw [Bitmap.isSet_reset hp, if_neg hne]
  · intro bit maxN curr _ hcurr
    constructor
    · intro i hi
      obtain ⟨⟨hlo, hhi, hit⟩, hleast⟩ := hi
      refine nextBit_least hlo (by omega) ((hbits i).trans hit) fun j hj hlt heq => ?_
      obtain ⟨j, rfl⟩ := Int.eq_ofNat_of_zero_le (show 0 ≤ j by omega)
      have := hleast ⟨hj, by omega, (hbits j).symm.trans heq⟩
      omega
    · intro hnone
      refine nextBit_none fun j hj hlt heq => ?_
      obtain ⟨j, rfl⟩ := Int.eq_ofNat_of_zero_le (show 0 ≤ j by omega)
      exact hnone j hj (by omega) ((hbits j).symm.trans heq)

end Grmdb
