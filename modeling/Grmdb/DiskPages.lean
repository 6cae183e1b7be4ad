import Grmdb.ByteLayout
import Grmdb.LogRecord

namespace Grmdb

open ByteLayout

/-- `page_no * PAGE_SIZE`: both are `int`, and the product is widened afterwards. An overflow wraps
around. -/
def pageOffset (pageNo : PageNo) : Int := Int.bmod (pageNo * PAGE_SIZE) (2 ^ 32)

/-- `write` at the position `off`, with zeros between the end of the file and `off`. -/
def writeAtOffset (file : Bytes) (off : Nat) (data : Bytes) : Bytes :=
  if data = [] then file
  else memcpy (file ++ List.replicate (off - file.length) 0) off data

/-- `write_page` of `num_bytes` bytes on the file; `none` is the exception of `lseek`. -/
def writePageBytes (file : Bytes) (pageNo : PageNo) (data : Bytes) : Option Bytes :=
  if pageOffset pageNo < 0 then none
  else some (writeAtOffset file (pageOffset pageNo).toNat data)

/-- `read_page`; `none` is the exception of `lseek` and that of a `read` which brings too little. -/
def readPageBytes (file : Bytes) (pageNo : PageNo) (numBytes : Nat) : Option Bytes :=
  if pageOffset pageNo < 0 then none
  else
    let got := (file.drop (pageOffset pageNo).toNat).take numBytes
    if got.length = numBytes then some got else none

inductive DiskCall where
  | write (pageNo : PageNo) (data : Bytes)
  | read (pageNo : PageNo) (numBytes : Nat)
  deriving DecidableEq

namespace DiskCall

def pageNo : DiskCall → PageNo
  | write p _ => p
  | read p _ => p

def numBytes : DiskCall → Nat
  | write _ data => data.length
  | read _ n => n

/-- A `page_id_t` that is not negative, and at most one page of bytes. -/
structure Valid (c : DiskCall) : Prop where
  pageNo : 0 ≤ c.pageNo ∧ c.pageNo < 2 ^ 31
  numBytes : c.numBytes ≤ PAGE_SIZE

/-- The file after the call, which stays as it was when the call throws. -/
def after (file : Bytes) : DiskCall → Bytes
  | write p data => (writePageBytes file p data).getD file
  | read _ _ => file

end DiskCall

def fileAfter (file : Bytes) (calls : List DiskCall) : Bytes := calls.foldl DiskCall.after file

/-- The byte most recently written at the place `i` of the page. -/
def lastWritten (p : PageNo) (i : Nat) (calls : List DiskCall) : Option UInt8 :=
  calls.foldl (fun last c => match c with
    | .write q data => if q = p ∧ i < data.length then data[i]? else last
    | .read _ _ => last) none

/-- The pages of the calls do not overlap. -/
structure PagesApart (file : Bytes) (calls : List DiskCall) : Prop where
  offset : ∀ c ∈ calls, pageOffset c.pageNo = c.pageNo * PAGE_SIZE
  disjoint : ∀ c ∈ calls, ∀ c' ∈ calls, c.pageNo ≠ c'.pageNo →
    pageOffset c.pageNo + c.numBytes ≤ pageOffset c'.pageNo ∨
      pageOffset c'.pageNo + c'.numBytes ≤ pageOffset c.pageNo
  written : ∀ pre p data post, calls = pre ++ .write p data :: post →
    (writePageBytes (fileAfter file pre) p data).isSome = true
  bytes : ∀ pre p n post, calls = pre ++ .read p n :: post →
    ∀ got, readPageBytes (fileAfter file pre) p n = some got →
    ∀ i b, i < n → lastWritten p i pre = some b → got[i]? = some b
  returns : ∀ pre p n post, calls = pre ++ .read p n :: post →
    (∀ i < n, (lastWritten p i pre).isSome = true) →
    (readPageBytes (fileAfter file pre) p n).isSome = true

/-- The product fits exactly for the pages below 2 GiB. -/
theorem pageOffset_eq_iff (p : PageNo) (h : 0 ≤ p) : pageOffset p = p * PAGE_SIZE ↔ p < 2 ^ 19 := by
  unfold pageOffset PAGE_SIZE
  constructor
  · intro heq
    have hlt := @Int.bmod_lt (p * (4096 : Nat)) (2 ^ 32) (by norm_num)
    rw [heq] at hlt
    lia
  · intro hp
    exact Int.bmod_eq_of_le (by lia) (by lia)

section Write

variable {file data : Bytes} {off i j : Nat} {b : UInt8}

theorem writeAtOffset_inside (h : i < data.length) :
    (writeAtOffset file off data)[off + i]? = data[i]? := by
  have hne : data ≠ [] := by
    rintro rfl
    cases h
  have hlen : ((file ++ List.replicate (off - file.length) 0).take off).length = off := by
    rw [List.length_take, List.length_append, List.length_replicate]
    omega
  rw [writeAtOffset, if_neg hne, memcpy, List.append_assoc,
    List.getElem?_append_right (by omega), hlen, Nat.add_sub_cancel_left,
    List.getElem?_append_left h]

/-- A byte outside what is written stays. -/
theorem writeAtOffset_outside (h : file[j]? = some b) (hout : j < off ∨ off + data.length ≤ j) :
    (writeAtOffset file off data)[j]? = some b := by
  unfold writeAtOffset
  split
  · exact h
  · obtain ⟨hj, -⟩ := List.getElem?_eq_some_iff.mp h
    have hpadded : (file ++ List.replicate (off - file.length) 0)[j]? = some b := by
      rw [List.getElem?_append_left hj, h]
    have hlen : ((file ++ List.replicate (off - file.length) 0).take off).length = off := by
      rw [List.length_take, List.length_append, List.length_replicate]
      omega
    rw [memcpy, List.append_assoc]
    rcases hout with hlow | hhigh
    · rw [List.getElem?_append_left (by omega), List.getElem?_take_of_lt hlow, hpadded]
    · rw [List.getElem?_append_right (by omega), hlen, List.getElem?_append_right (by omega),
        List.getElem?_drop, ← hpadded]
      congr 1
      omega

end Write

section Run

variable {file : Bytes} {calls : List DiskCall} {p : PageNo}

theorem lastWritten_concat (q : PageNo) (i : Nat) (calls : List DiskCall) (c : DiskCall) :
    lastWritten q i (calls ++ [c]) = match c with
      | .write p data => if p = q ∧ i < data.length then data[i]? else lastWritten q i calls
      | .read _ _ => lastWritten q i calls := by
  rw [lastWritten, List.foldl_append]
  cases c <;> rfl

theorem writePageBytes_eq (file data : Bytes) (hp : 0 ≤ p) (hsmall : p < 2 ^ 19) :
    writePageBytes file p data = some (writeAtOffset file (p.toNat * PAGE_SIZE) data) := by
  have hoff : pageOffset p = ((p.toNat * PAGE_SIZE : Nat) : Int) := by
    rw [(pageOffset_eq_iff p hp).mpr hsmall, Nat.cast_mul, Int.toNat_of_nonneg hp]
  rw [writePageBytes, hoff, if_neg (by omega), Int.toNat_natCast]

theorem readPageBytes_eq (file : Bytes) (n : Nat) (hp : 0 ≤ p) (hsmall : p < 2 ^ 19) :
    readPageBytes file p n =
      let got := (file.drop (p.toNat * PAGE_SIZE)).take n
      if got.length = n then some got else none := by
  have hoff : pageOffset p = ((p.toNat * PAGE_SIZE : Nat) : Int) := by
    rw [(pageOffset_eq_iff p hp).mpr hsmall, Nat.cast_mul, Int.toNat_of_nonneg hp]
  rw [readPageBytes, hoff, if_neg (by omega), Int.toNat_natCast]

/-- A call leaves the bytes of the other pages, and of its own page those it does not write. -/
theorem after_agrees {c : DiskCall} (hc : c.Valid) (hsmall : c.pageNo < 2 ^ 19) {q : PageNo}
    (hq : 0 ≤ q) {i : Nat} (hi : i < PAGE_SIZE) {last : Option UInt8} {b : UInt8}
    (hold : ∀ b, last = some b → file[q.toNat * PAGE_SIZE + i]? = some b)
    (hlast : (match c with
      | .write p data => if p = q ∧ i < data.length then data[i]? else last
      | .read _ _ => last) = some b) :
    (c.after file)[q.toNat * PAGE_SIZE + i]? = some b := by
  cases c with
  | read p n => exact hold b hlast
  | write p data =>
    have hsize : data.length ≤ PAGE_SIZE := hc.numBytes
    have hp : 0 ≤ p := hc.pageNo.1
    rw [DiskCall.after, writePageBytes_eq file data hp hsmall, Option.getD_some]
    dsimp only at hlast
    by_cases hin : p = q ∧ i < data.length
    · obtain ⟨rfl, hlt⟩ := hin
      rw [writeAtOffset_inside hlt]
      simpa [hlt] using hlast
    · rw [if_neg hin] at hlast
      refine writeAtOffset_outside (hold b hlast) ?_
      by_cases hpq : p = q
      · subst hpq
        have hlt : ¬ i < data.length := fun hlt => hin ⟨rfl, hlt⟩
        omega
      · have hne : p.toNat ≠ q.toNat := by lia
        rcases Nat.lt_or_gt_of_ne hne with hlt | hlt
        · have := Nat.mul_le_mul_right PAGE_SIZE (Nat.succ_le_of_lt hlt)
          rw [Nat.succ_mul] at this
          omega
        · have := Nat.mul_le_mul_right PAGE_SIZE (Nat.succ_le_of_lt hlt)
          rw [Nat.succ_mul] at this
          omega

theorem lastWritten_lt (hvalid : ∀ c ∈ calls, c.Valid) {q : PageNo} {i : Nat} {b : UInt8}
    (h : lastWritten q i calls = some b) : i < PAGE_SIZE := by
  induction calls using List.reverseRecOn with
  | nil => cases h
  | append_singleton calls c ih =>
    have hcalls : ∀ x ∈ calls, x.Valid := fun x hx => hvalid x (List.mem_append_left _ hx)
    rw [lastWritten_concat] at h
    cases c with
    | read p n => exact ih hcalls h
    | write p data =>
      dsimp only at h
      split at h
      next hin => exact lt_of_lt_of_le hin.2 (hvalid (.write p data) (by simp)).numBytes
      next => exact ih hcalls h

/-- The file has the bytes most recently written to each page. -/
theorem fileAfter_agrees (hvalid : ∀ c ∈ calls, c.Valid) (hsmall : ∀ c ∈ calls, c.pageNo < 2 ^ 19)
    {q : PageNo} (hq : 0 ≤ q) {i : Nat} {b : UInt8} (h : lastWritten q i calls = some b) :
    (fileAfter file calls)[q.toNat * PAGE_SIZE + i]? = some b := by
  have hi := lastWritten_lt hvalid h
  induction calls using List.reverseRecOn generalizing b with
  | nil => cases h
  | append_singleton calls c ih =>
    have hcalls : ∀ x ∈ calls, x.Valid := fun x hx => hvalid x (List.mem_append_left _ hx)
    have hpages : ∀ x ∈ calls, x.pageNo < 2 ^ 19 := fun x hx => hsmall x (List.mem_append_left _ hx)
    rw [lastWritten_concat] at h
    rw [fileAfter, List.foldl_append]
    exact after_agrees (hvalid c (by simp)) (hsmall c (by simp)) hq hi
      (fun b hb => ih hcalls hpages hb) h

end Run

/-- The pages of a file lie apart exactly when no call goes beyond the first 2 GiB. -/
theorem pagesApart_iff (file : Bytes) (calls : List DiskCall) (hvalid : ∀ c ∈ calls, c.Valid) :
    PagesApart file calls ↔ ∀ c ∈ calls, c.pageNo < 2 ^ 19 := by
  constructor
  · intro h c hc
    exact (pageOffset_eq_iff _ (hvalid c hc).pageNo.1).mp (h.offset c hc)
  · intro hsmall
    have hfront : ∀ {pre c post}, calls = pre ++ c :: post →
        (c.Valid ∧ c.pageNo < 2 ^ 19) ∧ ∀ q i b, 0 ≤ q → lastWritten q i pre = some b →
          (fileAfter file pre)[q.toNat * PAGE_SIZE + i]? = some b := by
      intro pre c post hsplit
      have hin : c ∈ calls := by simp [hsplit]
      have hpre : ∀ x ∈ pre, x ∈ calls := fun x hx => by simp [hsplit, hx]
      exact ⟨⟨hvalid c hin, hsmall c hin⟩, fun q i b hq hb =>
        fileAfter_agrees (fun x hx => hvalid x (hpre x hx)) (fun x hx => hsmall x (hpre x hx)) hq hb⟩
    constructor
    · intro c hc
      exact (pageOffset_eq_iff _ (hvalid c hc).pageNo.1).mpr (hsmall c hc)
    · intro c hc c' hc' hne
      have hsize := (hvalid c hc).numBytes
      have hsize' := (hvalid c' hc').numBytes
      rw [(pageOffset_eq_iff _ (hvalid c hc).pageNo.1).mpr (hsmall c hc),
        (pageOffset_eq_iff _ (hvalid c' hc').pageNo.1).mpr (hsmall c' hc')]
      unfold PAGE_SIZE at hsize hsize' ⊢
      rcases lt_or_gt_of_ne hne with hlt | hlt
      · left
        lia
      · right
        lia
    · intro pre p data post hsplit
      obtain ⟨⟨hc, hp⟩, -⟩ := hfront hsplit
      have hpos : 0 ≤ p := hc.pageNo.1
      rw [writePageBytes_eq _ _ hpos hp]
      rfl
    · intro pre p n post hsplit got hgot i b hi hb
      obtain ⟨⟨hc, hp⟩, hagrees⟩ := hfront hsplit
      have hpos : 0 ≤ p := hc.pageNo.1
      rw [readPageBytes_eq _ _ hpos hp] at hgot
      dsimp only at hgot
      split at hgot
      · cases hgot
        rw [List.getElem?_take_of_lt hi, List.getElem?_drop]
        exact hagrees p i b hpos hb
      · cases hgot
    · intro pre p n post hsplit hall
      obtain ⟨⟨hc, hp⟩, hagrees⟩ := hfront hsplit
      have hpos : 0 ≤ p := hc.pageNo.1
      have hlong : n = 0 ∨ p.toNat * PAGE_SIZE + n ≤ (fileAfter file pre).length := by
        rcases Nat.eq_zero_or_pos n with hn | hn
        · exact .inl hn
        · obtain ⟨b, hb⟩ := Option.isSome_iff_exists.mp (hall (n - 1) (by omega))
          obtain ⟨hlt, -⟩ := List.getElem?_eq_some_iff.mp (hagrees p (n - 1) b hpos hb)
          right
          omega
      have hlen : (((fileAfter file pre).drop (p.toNat * PAGE_SIZE)).take n).length = n := by
        rw [List.length_take, List.length_drop]
        omega
      rw [readPageBytes_eq _ _ hpos hp]
      dsimp only
      rw [if_pos hlen]
      rfl

/-- Page 2^20 lies on page 0: what is read from the one is what was written to the other. -/
theorem not_pagesApart_wrapped : ¬ PagesApart []
    [.write 0 [1], .write (2 ^ 20) [2], .read 0 1] := by
  intro h
  have hread := h.bytes [.write 0 [1], .write (2 ^ 20) [2]] 0 1 [] rfl [2] (by decide) 0 1
    (by decide) (by decide)
  exact absurd hread (by decide)

theorem pagesApart_two : PagesApart [] [.write 0 [1], .write 1 [2], .read 0 1] := by
  refine (pagesApart_iff _ _ fun c hc => ?_).mpr fun c hc => ?_
  · fin_cases hc <;> exact ⟨by decide, by decide⟩
  · fin_cases hc <;> decide

end Grmdb
