import Grmdb.LogFormat

namespace Grmdb

open ByteLayout

/-- The conversion of an unsigned value to `int`. -/
def toInt32 (n : Nat) : Int :=
  if n % 2 ^ 32 < 2 ^ 31 then (n % 2 ^ 32 : Nat) else (n % 2 ^ 32 : Nat) - 2 ^ 32

/-- `read_log`: what the file still has of the `size` bytes at `offset` goes to the front of
`dest`. -/
def readLog (file dest : Bytes) (size offset : Int) : Bytes :=
  memcpy dest 0 ((file.drop offset.toNat).take size.toNat)

/-- The loop of `analyze` as far as it cuts the file: every record with the offset that
`log_offsets_` keeps for it. `none` stands for a loop that has not come to its end within
`fuel` rounds and for a read outside the two buffers. -/
def cutLog (file : Bytes) : Nat → Int → Bytes → Bytes → Option (List (Int × DiskRecord))
  | 0, _, _, _ => none
  | fuel + 1, offset, logHeader, logData =>
    if offset < toInt32 file.length then do
      let logHeader := readLog file logHeader LOG_HEADER_SIZE offset
      let logTotLen := toInt32 (← readUInt32At logHeader OFFSET_LOG_TOT_LEN)
      match LogType.ofInt (← readIntAt logHeader 0) with
      | none => cutLog file fuel (offset + logTotLen) logHeader logData
      | some logType =>
        let logData := readLog file logData logTotLen offset
        let record ← DiskRecord.deserialize logType logData
        let rest ← cutLog file fuel (offset + logTotLen) logHeader logData
        return (offset, record) :: rest
    else some []

/-- The records with their offsets when they are laid down one behind the other from `offset`
on. -/
def placedFrom (offset : Nat) : List DiskRecord → List (Int × DiskRecord)
  | [] => []
  | r :: rs => ((offset : Int), r) :: placedFrom (offset + r.header.logTotLen) rs

theorem toInt32_of_lt {n : Nat} (h : n < 2 ^ 31) : toInt32 n = n := by
  have hmod : n % 2 ^ 32 = n := Nat.mod_eq_of_lt (by omega)
  rw [toInt32, hmod, if_pos h]

theorem DiskRecord.WellBuilt.logTotLen_eq {r : DiskRecord} (h : r.WellBuilt)
    (hsize : r.image.length < 2 ^ 31) : r.header.logTotLen = r.image.length := by
  rw [h.logTotLen, Nat.mod_eq_of_lt (by omega)]

theorem DiskRecord.bytes_eq {r : DiskRecord} (h : r.header.logTotLen = r.image.length) :
    r.bytes = r.image := by
  rw [bytes, serialize_eq, h]
  simp

theorem DiskRecord.length_image_pos (r : DiskRecord) : 0 < r.image.length := by
  simp [image, LOG_HEADER_SIZE]

/-- What `read_log` brings to the front of a buffer where the file goes on with `part`. -/
theorem readLog_eq {file part rest : Bytes} {offset : Nat} (h : StandsAt file offset (part ++ rest))
    (dest : Bytes) :
    readLog file dest part.length offset = part ++ dest.drop part.length := by
  obtain ⟨before, rfl, rfl⟩ := h
  simp [readLog, memcpy_zero]

theorem DiskRecord.standsAt_payload {file rest : Bytes} {offset : Nat} {r : DiskRecord}
    (hat : StandsAt file offset (r.image ++ rest)) :
    StandsAt file offset (r.header.image ++ (r.payload.image ++ rest)) := by
  simpa [image] using hat

/-- One round of the loop: it takes exactly the record at `offset` and moves behind it. -/
theorem cutLog_step {file rest : Bytes} {offset : Nat} {r : DiskRecord} (h : r.WellBuilt)
    (hsize : file.length < 2 ^ 31) (hat : StandsAt file offset (r.image ++ rest)) (fuel : Nat)
    (logHeader logData : Bytes) :
    ∃ logHeader' logData', cutLog file (fuel + 1) offset logHeader logData =
      (cutLog file fuel (offset + r.header.logTotLen : Nat) logHeader' logData').map
        (((offset : Int), r) :: ·) := by
  have hlength : file.length = offset + r.image.length + rest.length := by
    obtain ⟨before, rfl, rfl⟩ := hat
    simp [Nat.add_assoc]
  have hpos := r.length_image_pos
  have htot := h.logTotLen_eq (by omega)
  have hmore : (offset : Int) < toInt32 file.length := by
    rw [toInt32_of_lt hsize]
    omega
  have hheader := readLog_eq (DiskRecord.standsAt_payload hat) logHeader
  rw [LogHeader.length_image] at hheader
  have hdata : readLog file logData (toInt32 r.header.logTotLen) offset =
      r.image ++ logData.drop r.image.length := by
    rw [toInt32_of_lt (by omega), htot]
    exact readLog_eq hat logData
  have atHeader := StandsAt.start (r.header.image ++ logHeader.drop LOG_HEADER_SIZE)
  have hrecord := h.deserialize_eq (by omega) (logData.drop r.image.length)
  refine ⟨r.header.image ++ logHeader.drop LOG_HEADER_SIZE,
    r.image ++ logData.drop r.image.length, ?_⟩
  have hnext : (offset : Int) + toInt32 r.header.logTotLen = (offset + r.header.logTotLen : Nat) := by
    rw [toInt32_of_lt (by omega)]
    push_cast
    rfl
  simp only [cutLog, hmore, if_true, hheader, LogHeader.read_logTotLen h.header.logTotLen atHeader,
    LogHeader.read_logType atHeader, LogType.ofInt_toInt, Option.bind_some, Option.bind_eq_bind,
    hdata, hrecord, hnext]
  cases cutLog file fuel _ _ _ <;> rfl

theorem cutLog_end {file : Bytes} (hsize : file.length < 2 ^ 31) (fuel : Nat)
    (logHeader logData : Bytes) : cutLog file (fuel + 1) file.length logHeader logData = some [] := by
  simp [cutLog, toInt32_of_lt hsize]

/-- The loop from any record boundary on. -/
theorem cutLog_from {file : Bytes} (hsize : file.length < 2 ^ 31) {rs : List DiskRecord}
    (hrs : ∀ r ∈ rs, r.WellBuilt) {offset fuel : Nat} (hfuel : rs.length < fuel)
    (hat : StandsAt file offset (rs.flatMap DiskRecord.image)) (logHeader logData : Bytes) :
    cutLog file fuel offset logHeader logData = some (placedFrom offset rs) := by
  induction rs generalizing offset fuel logHeader logData with
  | nil =>
    obtain ⟨fuel, rfl⟩ := Nat.exists_eq_add_one_of_ne_zero (Nat.ne_of_gt hfuel)
    obtain ⟨before, rfl, rfl⟩ := hat
    simp only [List.flatMap_nil, List.append_nil] at hsize ⊢
    exact cutLog_end hsize fuel logHeader logData
  | cons r rs ih =>
    obtain ⟨fuel, rfl⟩ := Nat.exists_eq_add_one_of_ne_zero (Nat.ne_of_gt (Nat.zero_lt_of_lt hfuel))
    simp only [List.flatMap_cons] at hat
    have hr := hrs r List.mem_cons_self
    have htot : r.header.logTotLen = r.image.length := by
      refine hr.logTotLen_eq ?_
      obtain ⟨before, rfl, rfl⟩ := hat
      simp only [List.length_append] at hsize
      omega
    obtain ⟨logHeader', logData', hstep⟩ := cutLog_step hr hsize hat fuel logHeader logData
    rw [hstep, ih (fun q hq => hrs q (List.mem_cons_of_mem r hq)) (by simpa using hfuel)
      (hat.next (by rw [htot]))]
    rfl

/-- Round trip of the log format: every record comes back from what `serialize` wrote, which
is `log_tot_len_` bytes long, and the loop of `analyze` finds the records at their offsets. -/
theorem log_format_round_trip (rs : List DiskRecord) (hbuilt : ∀ r ∈ rs, r.Built)
    (hsize : (rs.map fun r => r.image.length).sum < 2 ^ 31) :
    (∀ r ∈ rs, r.bytes.length = r.header.logTotLen ∧ ∀ dest : Bytes,
      r.serialize dest = r.bytes ++ dest.drop r.header.logTotLen ∧
      DiskRecord.deserialize r.header.logType (r.serialize dest) = some r) ∧
    ∀ fuel logHeader logData, rs.length < fuel →
      cutLog (rs.flatMap DiskRecord.bytes) fuel 0 logHeader logData = some (placedFrom 0 rs) := by
  have hwell : ∀ r ∈ rs, r.WellBuilt := fun r hr => (hbuilt r hr).wellBuilt
  have hshort : ∀ r ∈ rs, r.image.length < 2 ^ 31 := by
    intro r hr
    have hle := List.single_le_sum (fun _ _ => Nat.zero_le _) _
      (List.mem_map_of_mem (f := fun r : DiskRecord => r.image.length) hr)
    omega
  have htot : ∀ r ∈ rs, r.header.logTotLen = r.image.length := fun r hr =>
    (hwell r hr).logTotLen_eq (hshort r hr)
  constructor
  · intro r hr
    have hbytes := r.bytes_eq (htot r hr)
    refine ⟨by rw [hbytes, htot r hr], fun dest => ?_⟩
    rw [hbytes, htot r hr, r.serialize_eq]
    exact ⟨rfl, (hwell r hr).deserialize_eq (hshort r hr) _⟩
  · intro fuel logHeader logData hfuel
    have hfile : rs.flatMap DiskRecord.bytes = rs.flatMap DiskRecord.image :=
      List.flatMap_congr fun r hr => r.bytes_eq (htot r hr)
    rw [hfile]
    refine cutLog_from ?_ hwell hfuel (StandsAt.start _) logHeader logData
    simpa [List.length_flatMap] using hsize

/-- Three records of one transaction, the middle one with a two-byte record of table `t`. -/
def shortLog : List DiskRecord :=
  [beginLogRecord 7, insertLogRecord 7 0 [1, 2] ⟨⟨1, 0⟩, [116], -1, 2⟩, commitLogRecord 7]

theorem built_shortLog : ∀ r ∈ shortLog, r.Built := by
  simp only [shortLog, List.forall_mem_cons, List.not_mem_nil, false_imp_iff, implies_true, and_true]
  exact ⟨.begin (by decide), .insert (by decide) (by decide)
    ⟨by decide, by decide, by decide, by decide⟩, .commit (by decide)⟩

theorem log_format_round_trip_shortLog :
    cutLog (shortLog.flatMap DiskRecord.bytes) 4 0 [] [] = some (placedFrom 0 shortLog) :=
  (log_format_round_trip shortLog built_shortLog (by decide)).2 4 [] [] (by decide)

end Grmdb
