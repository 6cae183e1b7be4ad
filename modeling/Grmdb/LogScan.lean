import Grmdb.LogCut

namespace Grmdb

open ByteLayout

/-- `read_log` on the open file, which stands at `pos`: the buffer and the position afterwards.
`lseek` to a negative offset leaves the position, `read` of a negative size brings nothing and
answers -1. `none` is the assertion on the size, and a read beyond the end of the buffer. -/
def readLogAt (file : Bytes) (pos : Nat) (dest : Bytes) (size offset : Int) :
    Option (Bytes × Nat) :=
  let fileSize := toInt32 file.length
  if fileSize < offset then some (dest, pos)
  else
    let size := min size (fileSize - offset)
    if size = 0 then some (dest, pos)
    else
      let pos := if 0 ≤ offset then offset.toNat else pos
      if size < 0 then if size = -1 then some (dest, pos) else none
      else
        let got := (file.drop pos).take size.toNat
        if (got.length : Int) = size ∧ got.length ≤ dest.length then
          some (memcpy dest 0 got, pos + got.length)
        else none

def LogPayload.target : LogPayload → Option LogTarget
  | .none => Option.none
  | .one _ target => some target
  | .two _ _ target => some target

/-- `fhs_.at` finds the table of a data record. -/
def DiskRecord.tableOpen (isOpen : Bytes → Bool) (r : DiskRecord) : Bool :=
  r.payload.target.all fun target => isOpen target.tableName

/-- What a round of the `analyze` loop takes as a record; there is none for a type that the loop
does not know. -/
structure TakenRecord where
  offset : Int
  lsn : Lsn
  logTotLen : Int
  record : Option DiskRecord
  deriving DecidableEq, Repr

/-- The loop of `analyze` over any contents of the log file, with the buffers as they are. `none`
stands for a loop that has not come to its end within `fuel` rounds, for a failed assertion, for a
read or write outside the buffers and for the exception of `fhs_.at`. -/
def analyzeLoop (isOpen : Bytes → Bool) (file : Bytes) :
    Nat → Int → Nat → Bytes → Bytes → Option (List TakenRecord)
  | 0, _, _, _, _ => none
  | fuel + 1, offset, pos, logHeader, logData =>
    if offset < toInt32 file.length then do
      let (logHeader, pos) ← readLogAt file pos logHeader LOG_HEADER_SIZE offset
      let logTotLen := toInt32 (← readUInt32At logHeader OFFSET_LOG_TOT_LEN)
      let next := Int.bmod (offset + logTotLen) (2 ^ 32)
      let lsn ← readIntAt logHeader OFFSET_LSN
      match LogType.ofInt (← readIntAt logHeader 0) with
      | none =>
        let rest ← analyzeLoop isOpen file fuel next pos logHeader logData
        return ⟨offset, lsn, logTotLen, none⟩ :: rest
      | some logType =>
        let (logData, pos) ← readLogAt file pos logData logTotLen offset
        let record ← DiskRecord.deserialize logType logData
        if record.tableOpen isOpen then
          let rest ← analyzeLoop isOpen file fuel next pos logHeader logData
          return ⟨offset, lsn, logTotLen, some record⟩ :: rest
        else none
    else some []

/-- The bytes say by themselves which record they are: the header is there with the length of all of
them, and the contents that `deserialize` reads. -/
structure LogChunk (isOpen : Bytes → Bool) (chunk : Bytes) (lsn : Lsn)
    (record : Option DiskRecord) : Prop where
  header : LOG_HEADER_SIZE ≤ chunk.length
  lsn : readIntAt chunk OFFSET_LSN = some lsn
  logTotLen : ∃ n, readUInt32At chunk OFFSET_LOG_TOT_LEN = some n ∧ toInt32 n = chunk.length
  contents : ∃ x, readIntAt chunk 0 = some x ∧
    match LogType.ofInt x with
    | none => record = none
    | some t => chunk.length ≤ LOG_BUFFER_SIZE ∧
        ∃ r, record = some r ∧ DiskRecord.deserialize t chunk = some r ∧ r.tableOpen isOpen = true

/-- The bytes of the file that a round takes. -/
def TakenRecord.chunk (file : Bytes) (x : TakenRecord) : Bytes :=
  (file.drop x.offset.toNat).take x.logTotLen.toNat

/-- The record is what the bytes of the file at its offset are. -/
structure TakenRecord.Whole (isOpen : Bytes → Bool) (file : Bytes) (x : TakenRecord) : Prop where
  offset : 0 ≤ x.offset
  length : (x.chunk file).length = x.logTotLen
  chunk : LogChunk isOpen (x.chunk file) x.lsn x.record

/-- The records that lie in the first `n` bytes of the log. -/
def completeIn : Nat → List DiskRecord → List DiskRecord
  | _, [] => []
  | n, r :: rs => if r.image.length ≤ n then r :: completeIn (n - r.image.length) rs else []

/-- What a round takes at the offset of a record. -/
def takenRecord (x : Int × DiskRecord) : TakenRecord :=
  ⟨x.1, x.2.header.lsn, x.2.header.logTotLen, some x.2⟩

/-- How `analyze` should read a log file, whatever its buffers hold at first: the loop comes to the
end of the file and takes nothing as a record but whole records of the file, and where the file is
the front of a log, it takes exactly the records that are complete. -/
structure AnalyzesLog (isOpen : Bytes → Bool) (file : Bytes) : Prop where
  ends : ∀ pos logHeader logData, logHeader.length = LOG_HEADER_SIZE →
    logData.length = LOG_BUFFER_SIZE →
    ∃ fuel taken, analyzeLoop isOpen file fuel 0 pos logHeader logData = some taken ∧
      (taken.map TakenRecord.logTotLen).sum = file.length ∧ ∀ x ∈ taken, x.Whole isOpen file
  exact : ∀ rs, (∀ r ∈ rs, r.Built ∧ r.image.length ≤ LOG_BUFFER_SIZE) →
    file <+: rs.flatMap DiskRecord.bytes → ∀ pos logHeader logData,
    logHeader.length = LOG_HEADER_SIZE → logData.length = LOG_BUFFER_SIZE →
    ∀ fuel, file.length < fuel → analyzeLoop isOpen file fuel 0 pos logHeader logData =
      some ((placedFrom 0 (completeIn file.length rs)).map takenRecord)

/-- The file is a sequence of whole records. -/
def WholeRecords (isOpen : Bytes → Bool) (file : Bytes) : Prop :=
  ∃ chunks : List Bytes, file = chunks.flatten ∧
    ∀ c ∈ chunks, ∃ lsn record, LogChunk isOpen c lsn record

section Extend

variable {src tail : Bytes} {off : Nat}

theorem readIntAt_append {x : Int} (h : readIntAt src off = some x) :
    readIntAt (src ++ tail) off = some x := by
  obtain ⟨raw, hraw, rfl⟩ := Option.map_eq_some_iff.mp h
  rw [readIntAt, readAt_append_left hraw]
  rfl

theorem readUInt32At_append {n : Nat} (h : readUInt32At src off = some n) :
    readUInt32At (src ++ tail) off = some n := by
  obtain ⟨raw, hraw, rfl⟩ := Option.map_eq_some_iff.mp h
  rw [readUInt32At, readAt_append_left hraw]
  rfl

theorem readSizeAt_append {n : Nat} (h : readSizeAt src off = some n) :
    readSizeAt (src ++ tail) off = some n := by
  obtain ⟨raw, hraw, rfl⟩ := Option.map_eq_some_iff.mp h
  rw [readSizeAt, readAt_append_left hraw]
  rfl

theorem readRecordAt_append {value : Bytes} (h : readRecordAt src off = some value) :
    readRecordAt (src ++ tail) off = some value := by
  obtain ⟨size, hsize, h⟩ := Option.bind_eq_some_iff.mp h
  rw [readRecordAt, readIntAt_append hsize]
  by_cases hneg : size < 0
  · rw [if_pos hneg] at h
    cases h
  · rw [if_neg hneg] at h
    simp only [Option.bind_eq_bind, Option.bind_some, if_neg hneg]
    exact readAt_append_left h

theorem LogHeader.deserialize_append {h : LogHeader} (hread : LogHeader.deserialize src = some h) :
    LogHeader.deserialize (src ++ tail) = some h := by
  simp only [deserialize, Option.bind_eq_bind, Option.bind_eq_some_iff] at hread ⊢
  obtain ⟨x, hx, t, ht, lsn, hlsn, len, hlen, tid, htid, prev, hprev, heq⟩ := hread
  exact ⟨x, readIntAt_append hx, t, ht, lsn, readIntAt_append hlsn, len, readUInt32At_append hlen,
    tid, readIntAt_append htid, prev, readIntAt_append hprev, heq⟩

theorem LogTarget.deserialize_append {target : LogTarget}
    (h : LogTarget.deserialize src off = some target) :
    LogTarget.deserialize (src ++ tail) off = some target := by
  simp only [deserialize, Option.bind_eq_bind, Option.bind_eq_some_iff] at h ⊢
  obtain ⟨page, hpage, slot, hslot, size, hsize, name, hname, free, hfree, num, hnum, heq⟩ := h
  exact ⟨page, readIntAt_append hpage, slot, readIntAt_append hslot, size, readSizeAt_append hsize,
    name, readAt_append_left hname, free, readIntAt_append hfree, num, readIntAt_append hnum, heq⟩

/-- A record that is read from some bytes is read from more as well. -/
theorem DiskRecord.deserialize_append {t : LogType} {r : DiskRecord}
    (h : DiskRecord.deserialize t src = some r) :
    DiskRecord.deserialize t (src ++ tail) = some r := by
  unfold deserialize at h ⊢
  simp only [Option.bind_eq_bind, Option.bind_eq_some_iff] at h ⊢
  obtain ⟨header, hheader, h⟩ := h
  refine ⟨header, LogHeader.deserialize_append hheader, ?_⟩
  cases t with
  | begin => exact h
  | commit => exact h
  | abort => exact h
  | checkpoint => exact h
  | insert =>
    simp only [Option.bind_eq_some_iff] at h ⊢
    obtain ⟨value, hvalue, target, htarget, heq⟩ := h
    exact ⟨value, readRecordAt_append hvalue, target, LogTarget.deserialize_append htarget, heq⟩
  | delete =>
    simp only [Option.bind_eq_some_iff] at h ⊢
    obtain ⟨value, hvalue, target, htarget, heq⟩ := h
    exact ⟨value, readRecordAt_append hvalue, target, LogTarget.deserialize_append htarget, heq⟩
  | update =>
    simp only [Option.bind_eq_some_iff] at h ⊢
    obtain ⟨old, hold, new, hnew, target, htarget, heq⟩ := h
    exact ⟨old, readRecordAt_append hold, new, readRecordAt_append hnew, target,
      LogTarget.deserialize_append htarget, heq⟩

end Extend

section Round

variable {isOpen : Bytes → Bool} {file chunk rest logHeader logData : Bytes} {offset : Nat}
  {lsn : Lsn} {record : Option DiskRecord}

/-- `read_log` where the file goes on with `part`. -/
theorem readLogAt_part {part dest : Bytes} (pos : Nat) (hsize : file.length < 2 ^ 31)
    (hat : StandsAt file offset (part ++ rest)) (hpos : 0 < part.length)
    (hdest : part.length ≤ dest.length) :
    readLogAt file pos dest part.length offset =
      some (part ++ dest.drop part.length, offset + part.length) := by
  have hlength : file.length = offset + part.length + rest.length := by
    obtain ⟨before, rfl, rfl⟩ := hat
    simp [Nat.add_assoc]
  have hgot : (file.drop offset).take part.length = part := by
    obtain ⟨before, rfl, rfl⟩ := hat
    simp
  have hmin : min (part.length : Int) (file.length - offset) = part.length := by omega
  have hbefore : ¬ (file.length : Int) < offset := by omega
  have hne : (part.length : Int) ≠ 0 := by omega
  have hnonneg : ¬ (part.length : Int) < 0 := by omega
  simp only [readLogAt, toInt32_of_lt hsize, if_neg hbefore, hmin, if_neg hne, if_neg hnonneg,
    Int.natCast_nonneg, if_true, Int.toNat_natCast, hgot, true_and, if_pos hdest, memcpy_zero]

theorem readAt_front {front back : Bytes} {off len : Nat} (h : off + len ≤ front.length) :
    readAt (front ++ back) off len = readAt front off len := by
  have hfront : readAt front off len = some ((front.drop off).take len) := if_pos h
  rw [hfront, readAt_append_left hfront]

theorem chunk_cut (h : LogChunk isOpen chunk lsn record) :
    ∃ front back, chunk = front ++ back ∧ front.length = LOG_HEADER_SIZE := by
  refine ⟨chunk.take LOG_HEADER_SIZE, chunk.drop LOG_HEADER_SIZE, by simp, ?_⟩
  rw [List.length_take]
  exact min_eq_left h.header

theorem bmod_offset {n : Nat} (h : n < 2 ^ 31) : Int.bmod n (2 ^ 32) = n :=
  Int.bmod_eq_of_le (by omega) (by omega)

/-- One round takes the whole record at `offset` and moves behind it. -/
theorem analyzeLoop_chunk (pos : Nat) (h : LogChunk isOpen chunk lsn record)
    (hsize : file.length < 2 ^ 31) (hat : StandsAt file offset (chunk ++ rest))
    (hheader : logHeader.length = LOG_HEADER_SIZE)
    (hdata : logData.length = LOG_BUFFER_SIZE) :
    ∃ pos' logHeader' logData', logHeader'.length = LOG_HEADER_SIZE ∧
      logData'.length = LOG_BUFFER_SIZE ∧ ∀ fuel,
        analyzeLoop isOpen file (fuel + 1) offset pos logHeader logData =
          (analyzeLoop isOpen file fuel (offset + chunk.length : Nat) pos' logHeader' logData').map
            (⟨offset, lsn, chunk.length, record⟩ :: ·) := by
  have hlength : file.length = offset + chunk.length + rest.length := by
    obtain ⟨before, rfl, rfl⟩ := hat
    simp [Nat.add_assoc]
  have hpos : 0 < chunk.length := lt_of_lt_of_le (by decide) h.header
  have hmore : (offset : Int) < toInt32 file.length := by
    rw [toInt32_of_lt hsize]
    omega
  obtain ⟨front, back, hchunk, hfront⟩ := chunk_cut h
  have hathead : StandsAt file offset (front ++ (back ++ rest)) := by
    rw [← List.append_assoc, ← hchunk]
    exact hat
  have hread := @readLogAt_part file (back ++ rest) offset front logHeader pos hsize hathead
    (by rw [hfront]; decide) (by rw [hfront, hheader])
  rw [hfront, List.drop_of_length_le (by rw [hheader]), List.append_nil] at hread
  obtain ⟨n, hn, hlen⟩ := h.logTotLen
  obtain ⟨x, hx, hcontents⟩ := h.contents
  have hn' : readUInt32At front OFFSET_LOG_TOT_LEN = some n := by
    rwa [readUInt32At, hchunk, readAt_front (by rw [hfront]; decide)] at hn
  have hlsn' : readIntAt front OFFSET_LSN = some lsn := by
    have hlsn := h.lsn
    rwa [readIntAt, hchunk, readAt_front (by rw [hfront]; decide)] at hlsn
  have hx' : readIntAt front 0 = some x := by
    rwa [readIntAt, hchunk, readAt_front (by rw [hfront]; decide)] at hx
  have hnext : Int.bmod ((offset : Int) + (chunk.length : Int)) (2 ^ 32) =
      (offset + chunk.length : Nat) := bmod_offset (n := offset + chunk.length) (by omega)
  cases ht : LogType.ofInt x with
  | none =>
    rw [ht] at hcontents
    refine ⟨offset + LOG_HEADER_SIZE, front, logData, hfront, hdata, fun fuel => ?_⟩
    simp only [analyzeLoop, hmore, if_true, hread, Option.bind_eq_bind, Option.bind_some, hn', hx',
      hlsn', ht, hlen, hnext, hcontents]
    cases analyzeLoop isOpen file fuel _ _ _ _ <;> rfl
  | some t =>
    rw [ht] at hcontents
    obtain ⟨hbuffer, r, hr, hdes, hopen⟩ := hcontents
    have hbody := @readLogAt_part file rest offset chunk logData (offset + LOG_HEADER_SIZE) hsize
      hat hpos (by rw [hdata]; exact hbuffer)
    refine ⟨offset + chunk.length, front, chunk ++ logData.drop chunk.length, hfront, ?_,
      fun fuel => ?_⟩
    · rw [List.length_append, List.length_drop, hdata]
      omega
    · simp only [analyzeLoop, hmore, if_true, hread, Option.bind_eq_bind, Option.bind_some, hn',
        hx', hlsn', ht, hlen, hnext, hbody, DiskRecord.deserialize_append hdes, hopen, hr]
      cases analyzeLoop isOpen file fuel _ _ _ _ <;> rfl

theorem analyzeLoop_end (pos : Nat) (hsize : file.length < 2 ^ 31) (fuel : Nat) :
    analyzeLoop isOpen file (fuel + 1) file.length pos logHeader logData = some [] := by
  simp [analyzeLoop, toInt32_of_lt hsize]

end Round

/-- The rounds that take the chunks one behind the other from `offset` on. -/
def takenFrom (offset : Nat) : List (Bytes × Lsn × Option DiskRecord) → List TakenRecord
  | [] => []
  | c :: cs => ⟨offset, c.2.1, c.1.length, c.2.2⟩ :: takenFrom (offset + c.1.length) cs

section Run

variable {isOpen : Bytes → Bool} {file rest logHeader logData : Bytes} {offset pos : Nat}
  {cs : List (Bytes × Lsn × Option DiskRecord)}

/-- The rounds over whole records, whatever follows them. -/
theorem analyzeLoop_chunks (pos : Nat) (hcs : ∀ c ∈ cs, LogChunk isOpen c.1 c.2.1 c.2.2)
    (hsize : file.length < 2 ^ 31)
    (hat : StandsAt file offset ((cs.map Prod.fst).flatten ++ rest))
    (hheader : logHeader.length = LOG_HEADER_SIZE) (hdata : logData.length = LOG_BUFFER_SIZE) :
    ∃ pos' logHeader' logData', logHeader'.length = LOG_HEADER_SIZE ∧
      logData'.length = LOG_BUFFER_SIZE ∧ ∀ fuel,
        analyzeLoop isOpen file (fuel + cs.length) offset pos logHeader logData =
          (analyzeLoop isOpen file fuel (offset + (cs.map Prod.fst).flatten.length : Nat) pos'
            logHeader' logData').map (takenFrom offset cs ++ ·) := by
  induction cs generalizing offset pos logHeader logData with
  | nil =>
    refine ⟨pos, logHeader, logData, hheader, hdata, fun fuel => ?_⟩
    simp [takenFrom]
  | cons c cs ih =>
    have hc := hcs c List.mem_cons_self
    simp only [List.map_cons, List.flatten_cons, List.append_assoc] at hat
    obtain ⟨pos₁, header₁, data₁, hheader₁, hdata₁, hround⟩ :=
      analyzeLoop_chunk pos hc hsize hat hheader hdata
    obtain ⟨pos', header', data', hheader', hdata', hrun⟩ :=
      ih pos₁ (fun x hx => hcs x (List.mem_cons_of_mem _ hx)) (hat.next rfl) hheader₁
        hdata₁
    refine ⟨pos', header', data', hheader', hdata', fun fuel => ?_⟩
    rw [List.length_cons, ← Nat.add_assoc, hround, hrun, Option.map_map]
    simp only [List.map_cons, List.flatten_cons, List.length_append, Nat.add_assoc]
    rfl

/-- The loop over a file of whole records. -/
theorem analyzeLoop_whole (hcs : ∀ c ∈ cs, LogChunk isOpen c.1 c.2.1 c.2.2)
    (hsize : file.length < 2 ^ 31) (hfile : file = (cs.map Prod.fst).flatten)
    (hheader : logHeader.length = LOG_HEADER_SIZE)
    (hdata : logData.length = LOG_BUFFER_SIZE) {fuel : Nat} (hfuel : cs.length < fuel) :
    analyzeLoop isOpen file fuel 0 pos logHeader logData = some (takenFrom 0 cs) := by
  have hat : StandsAt file 0 ((cs.map Prod.fst).flatten ++ []) := by
    rw [List.append_nil, ← hfile]
    exact StandsAt.start file
  obtain ⟨pos', header', data', -, -, hrun⟩ :=
    analyzeLoop_chunks pos hcs hsize hat hheader hdata
  obtain ⟨fuel, rfl⟩ : ∃ f, fuel = f + 1 + cs.length := ⟨fuel - 1 - cs.length, by omega⟩
  have hrun := hrun (fuel + 1)
  rw [Nat.zero_add, ← hfile, analyzeLoop_end pos' hsize, Option.map_some, List.append_nil] at hrun
  exact hrun

theorem takenFrom_sum (cs : List (Bytes × Lsn × Option DiskRecord)) (offset : Nat) :
    ((takenFrom offset cs).map TakenRecord.logTotLen).sum = (cs.map Prod.fst).flatten.length := by
  induction cs generalizing offset with
  | nil => rfl
  | cons c cs ih =>
    simp only [takenFrom, List.map_cons, List.sum_cons, ih, List.flatten_cons, List.length_append]
    push_cast
    rfl

/-- What is taken from whole records is whole. -/
theorem takenFrom_whole (hcs : ∀ c ∈ cs, LogChunk isOpen c.1 c.2.1 c.2.2)
    (hat : StandsAt file offset ((cs.map Prod.fst).flatten ++ rest)) :
    ∀ x ∈ takenFrom offset cs, x.Whole isOpen file := by
  induction cs generalizing offset with
  | nil => intro x hx; cases hx
  | cons c cs ih =>
    simp only [List.map_cons, List.flatten_cons, List.append_assoc] at hat
    intro x hx
    rcases List.mem_cons.mp hx with rfl | hx
    · have hchunk : TakenRecord.chunk file ⟨offset, c.2.1, c.1.length, c.2.2⟩ = c.1 := by
        obtain ⟨before, rfl, rfl⟩ := hat
        simp [TakenRecord.chunk]
      exact ⟨Int.natCast_nonneg _, by rw [hchunk], by rw [hchunk]; exact hcs c List.mem_cons_self⟩
    · exact ih (fun y hy => hcs y (List.mem_cons_of_mem _ hy)) (hat.next rfl) x hx

end Run

section Inversion

variable {isOpen : Bytes → Bool} {file logHeader logData : Bytes} {offset : Int} {fuel pos : Nat}
  {taken : List TakenRecord}

/-- A round that does not fail takes a record at its offset and goes on by its length. -/
theorem analyzeLoop_cons_inv (hmore : offset < toInt32 file.length)
    (h : analyzeLoop isOpen file (fuel + 1) offset pos logHeader logData = some taken) :
    ∃ x rest pos' logHeader' logData', taken = x :: rest ∧ x.offset = offset ∧
      analyzeLoop isOpen file fuel (Int.bmod (offset + x.logTotLen) (2 ^ 32)) pos' logHeader'
        logData' = some rest := by
  simp only [analyzeLoop, hmore, if_true, Option.bind_eq_bind, Option.bind_eq_some_iff] at h
  obtain ⟨header, -, n, -, lsn, -, x, -, h⟩ := h
  split at h
  · obtain ⟨rest, hrest, heq⟩ := Option.bind_eq_some_iff.mp h
    cases heq
    exact ⟨_, rest, _, _, _, rfl, rfl, hrest⟩
  · obtain ⟨data, -, h⟩ := Option.bind_eq_some_iff.mp h
    obtain ⟨record, -, h⟩ := Option.bind_eq_some_iff.mp h
    split at h
    · obtain ⟨rest, hrest, heq⟩ := Option.bind_eq_some_iff.mp h
      cases heq
      exact ⟨_, rest, _, _, _, rfl, rfl, hrest⟩
    · cases h

/-- Whole records taken one behind the other up to the end are the file. -/
theorem wholeRecords_of_taken {start : Nat} (hsize : file.length < 2 ^ 31)
    (h : analyzeLoop isOpen file fuel start pos logHeader logData = some taken)
    (hwhole : ∀ x ∈ taken, x.Whole isOpen file) : WholeRecords isOpen (file.drop start) := by
  induction fuel generalizing start pos logHeader logData taken with
  | zero => cases h
  | succ fuel ih =>
    by_cases hmore : (start : Int) < toInt32 file.length
    · obtain ⟨x, rest, pos', header', data', rfl, hoffset, hrun⟩ := analyzeLoop_cons_inv hmore h
      have hx := hwhole x List.mem_cons_self
      have hlen := hx.length
      have hchunk : x.chunk file = (file.drop start).take x.logTotLen.toNat := by
        rw [TakenRecord.chunk, hoffset, Int.toNat_natCast]
      have hfit : start + (x.chunk file).length ≤ file.length := by
        rw [toInt32_of_lt hsize] at hmore
        rw [hchunk, List.length_take, List.length_drop]
        omega
      rw [← hlen, show (start : Int) + ((x.chunk file).length : Int) =
        ((start + (x.chunk file).length : Nat) : Int) by push_cast; rfl,
        bmod_offset (by omega)] at hrun
      obtain ⟨chunks, hchunks, hall⟩ := ih hrun fun y hy => hwhole y (List.mem_cons_of_mem _ hy)
      refine ⟨x.chunk file :: chunks, ?_,
        List.forall_mem_cons.mpr ⟨⟨x.lsn, x.record, hx.chunk⟩, hall⟩⟩
      rw [List.flatten_cons, ← hchunks, ← List.drop_drop]
      have htake : (file.drop start).take (x.chunk file).length = x.chunk file := by
        conv_lhs => rw [hchunk, List.length_take]
        rw [hchunk]
        simp
      nth_rewrite 1 [← htake]
      exact (List.take_append_drop _ _).symm
    · rw [toInt32_of_lt hsize] at hmore
      refine ⟨[], ?_, by simp⟩
      rw [List.flatten_nil, List.drop_eq_nil_iff]
      omega

end Inversion

theorem LogHeader.read_lsn {h : LogHeader} {src rest : Bytes} (range : h.InRange)
    (atType : StandsAt src 0 (h.image ++ rest)) : readIntAt src OFFSET_LSN = some h.lsn := by
  simp only [image, List.append_assoc] at atType
  exact readIntAt_eq range.lsn (atType.next (show OFFSET_LSN = 0 + _ by simp [OFFSET_LSN]))

/-- What some bytes say about the record in them. -/
theorem LogChunk.eq_image {isOpen : Bytes → Bool} {chunk tail rest : Bytes} {r : DiskRecord}
    {lsn : Lsn} {record : Option DiskRecord} (h : LogChunk isOpen chunk lsn record)
    (hbuilt : r.Built) (hfits : r.image.length ≤ LOG_BUFFER_SIZE)
    (hpre : chunk ++ tail <+: r.image ++ rest) :
    chunk = r.image ∧ lsn = r.header.lsn ∧ record = some r := by
  have hwell := hbuilt.wellBuilt
  have hshort : r.image.length < 2 ^ 31 := lt_of_le_of_lt hfits (by decide)
  have htot := hwell.logTotLen_eq hshort
  have hlen : chunk.length = r.image.length := by
    obtain ⟨n, hn, heq⟩ := h.logTotLen
    obtain ⟨more, hmore⟩ := hpre
    have hread := LogHeader.read_logTotLen hwell.header.logTotLen
      (StandsAt.start (r.header.image ++ (r.payload.image ++ rest)))
    rw [← List.append_assoc, show r.header.image ++ r.payload.image = r.image from rfl, ← hmore,
      List.append_assoc, readUInt32At_append hn] at hread
    rw [Option.some.inj hread, htot, toInt32_of_lt hshort] at heq
    omega
  have hchunk : chunk = r.image := by
    have hle : chunk <+: r.image ++ rest := (List.prefix_append chunk tail).trans hpre
    have := List.prefix_of_prefix_length_le hle (List.prefix_append r.image rest) hlen.le
    exact this.eq_of_length hlen
  have hlsn : readIntAt chunk OFFSET_LSN = some r.header.lsn := by
    rw [hchunk]
    exact LogHeader.read_lsn hwell.header
      (StandsAt.start (r.header.image ++ r.payload.image))
  refine ⟨hchunk, Option.some.inj (h.lsn.symm.trans hlsn), ?_⟩
  obtain ⟨x, hx, hcontents⟩ := h.contents
  have htype : readIntAt chunk 0 = some r.header.logType.toInt := by
    rw [hchunk]
    exact LogHeader.read_logType (StandsAt.start (r.header.image ++ r.payload.image))
  rw [Option.some.inj (hx.symm.trans htype), LogType.ofInt_toInt] at hcontents
  obtain ⟨-, q, rfl, hdes, -⟩ := hcontents
  have hread := hwell.deserialize_eq hshort []
  rw [List.append_nil, ← hchunk, hdes] at hread
  exact hread

/-- The chunks of the front of a log are its complete records. -/
theorem takenFrom_complete {isOpen : Bytes → Bool} {cs : List (Bytes × Lsn × Option DiskRecord)}
    {rs : List DiskRecord} (hcs : ∀ c ∈ cs, LogChunk isOpen c.1 c.2.1 c.2.2)
    (hrs : ∀ r ∈ rs, r.Built ∧ r.image.length ≤ LOG_BUFFER_SIZE)
    (hpre : (cs.map Prod.fst).flatten <+: rs.flatMap DiskRecord.image) (offset : Nat) :
    takenFrom offset cs = (placedFrom offset
      (completeIn (cs.map Prod.fst).flatten.length rs)).map takenRecord := by
  induction cs generalizing rs offset with
  | nil =>
    cases rs with
    | nil => rfl
    | cons r rs =>
      have hpos := r.length_image_pos
      rw [List.map_nil, List.flatten_nil, List.length_nil, completeIn, if_neg (by omega)]
      rfl
  | cons c cs ih =>
    have hc := hcs c List.mem_cons_self
    simp only [List.map_cons, List.flatten_cons] at hpre
    cases rs with
    | nil =>
      have hnil := List.prefix_nil.mp hpre
      have hlen := hc.header
      rw [(List.append_eq_nil_iff.mp hnil).1] at hlen
      exact absurd hlen (by decide)
    | cons r rs =>
      obtain ⟨hbuilt, hfits⟩ := hrs r List.mem_cons_self
      rw [List.flatMap_cons] at hpre
      obtain ⟨hchunk, hlsn, hrecord⟩ := hc.eq_image hbuilt hfits hpre
      have htot := hbuilt.wellBuilt.logTotLen_eq (lt_of_le_of_lt hfits (by decide))
      rw [hchunk, List.prefix_append_right_inj] at hpre
      have hrest := ih (fun x hx => hcs x (List.mem_cons_of_mem _ hx))
        (fun x hx => hrs x (List.mem_cons_of_mem _ hx)) hpre (offset + r.image.length)
      simp only [List.map_cons, List.flatten_cons, List.length_append, hchunk, completeIn,
        Nat.le_add_right, if_true, Nat.add_sub_cancel_left, takenFrom, placedFrom, htot, hrest,
        hlsn, hrecord, takenRecord]

section Length

variable {isOpen : Bytes → Bool} {file logHeader logData : Bytes} {fuel pos start : Nat}
  {taken : List TakenRecord}

theorem toInt32_lt (n : Nat) : toInt32 n < 2 ^ 31 := by
  unfold toInt32
  split <;> omega

/-- An offset that overflows is negative. -/
theorem bmod_overflow {n : Nat} (hlow : 2 ^ 31 ≤ n) (hhigh : n < 2 ^ 32) :
    Int.bmod n (2 ^ 32) < 0 := by
  have hmod : (n : Int) % ((2 ^ 32 : Nat) : Int) = n := Int.emod_eq_of_lt (by omega) (by omega)
  rw [Int.bmod, hmod, if_neg (by omega)]
  omega

/-- Whole records end where an offset can still stand. -/
theorem taken_end_lt (hstart : start < 2 ^ 31)
    (h : analyzeLoop isOpen file fuel start pos logHeader logData = some taken)
    (hwhole : ∀ x ∈ taken, x.Whole isOpen file) :
    start + (taken.map TakenRecord.logTotLen).sum < 2 ^ 31 := by
  induction fuel generalizing start pos logHeader logData taken with
  | zero => cases h
  | succ fuel ih =>
    by_cases hmore : (start : Int) < toInt32 file.length
    · obtain ⟨x, rest, pos', header', data', rfl, hoffset, hrun⟩ := analyzeLoop_cons_inv hmore h
      have hx := hwhole x List.mem_cons_self
      have hlen : (x.chunk file).length < 2 ^ 31 := by
        obtain ⟨n, -, hn⟩ := hx.chunk.logTotLen
        have := toInt32_lt n
        omega
      rw [← hx.length, show (start : Int) + ((x.chunk file).length : Int) =
        ((start + (x.chunk file).length : Nat) : Int) by push_cast; rfl] at hrun
      by_cases hnext : start + (x.chunk file).length < 2 ^ 31
      · rw [bmod_offset hnext] at hrun
        have hrest := ih hnext hrun fun y hy => hwhole y (List.mem_cons_of_mem _ hy)
        rw [List.map_cons, List.sum_cons, ← hx.length]
        push_cast at hrest
        omega
      · have hneg := bmod_overflow (n := start + (x.chunk file).length) (by omega) (by omega)
        cases fuel with
        | zero => cases hrun
        | succ fuel =>
          obtain ⟨y, more, -, -, -, rfl, hy, -⟩ := analyzeLoop_cons_inv (by omega) hrun
          have := (hwhole y (by simp)).offset
          omega
    · simp only [analyzeLoop, if_neg hmore] at h
      cases h
      rw [List.map_nil, List.sum_nil]
      omega

end Length

/-- `analyze` reads a log file as it should when the file is a sequence of whole records whose
offsets are no larger than an `int`: it has no protection against a length that is zero, negative
or larger than what is left. -/
theorem analyzesLog_iff (isOpen : Bytes → Bool) (file : Bytes) :
    AnalyzesLog isOpen file ↔ WholeRecords isOpen file ∧ file.length < 2 ^ 31 := by
  constructor
  · intro h
    obtain ⟨fuel, taken, hrun, hsum, hwhole⟩ := h.ends 0 (List.replicate LOG_HEADER_SIZE 0)
      (List.replicate LOG_BUFFER_SIZE 0) List.length_replicate List.length_replicate
    have hend := @taken_end_lt isOpen file _ _ fuel 0 0 taken (by norm_num) hrun hwhole
    have hsize : file.length < 2 ^ 31 := by
      rw [hsum] at hend
      omega
    have hall : WholeRecords isOpen (file.drop 0) := wholeRecords_of_taken hsize hrun hwhole
    exact ⟨hall, hsize⟩
  · rintro ⟨⟨chunks, hfile, hall⟩, hsize⟩
    choose! lsn record hrecord using hall
    have hcs : ∀ c ∈ chunks.map fun c => (c, lsn c, record c), LogChunk isOpen c.1 c.2.1 c.2.2 := by
      intro c hc
      obtain ⟨chunk, hchunk, rfl⟩ := List.mem_map.mp hc
      exact hrecord chunk hchunk
    have hmap : (chunks.map fun c => (c, lsn c, record c)).map Prod.fst = chunks := by
      simp [List.map_map, Function.comp_def]
    have hflat : file = ((chunks.map fun c => (c, lsn c, record c)).map Prod.fst).flatten := by
      rw [hmap, hfile]
    have hcount : (chunks.map fun c => (c, lsn c, record c)).length ≤ file.length := by
      rw [List.length_map, hfile, List.length_flatten,
        ← @List.length_map _ _ chunks List.length]
      refine List.length_le_sum_of_one_le _ fun n hn => ?_
      obtain ⟨chunk, hchunk, rfl⟩ := List.mem_map.mp hn
      exact le_trans (by decide) (hrecord chunk hchunk).header
    refine ⟨fun pos logHeader logData hheader hdata => ?_, ?_⟩
    · refine ⟨_, _, analyzeLoop_whole hcs hsize hflat hheader hdata (Nat.lt_succ_self _), ?_, ?_⟩
      · rw [takenFrom_sum, ← hflat]
      · refine @takenFrom_whole isOpen file [] 0 _ hcs ?_
        rw [List.append_nil, ← hflat]
        exact StandsAt.start file
    · intro rs hrs hpre pos logHeader logData hheader hdata fuel hfuel
      have hbytes : rs.flatMap DiskRecord.bytes = rs.flatMap DiskRecord.image := by
        refine List.flatMap_congr fun r hr => r.bytes_eq ?_
        exact (hrs r hr).1.wellBuilt.logTotLen_eq (lt_of_le_of_lt (hrs r hr).2 (by decide))
      rw [hbytes, hflat] at hpre
      rw [analyzeLoop_whole hcs hsize hflat hheader hdata (by omega),
        takenFrom_complete hcs hrs hpre, ← hflat]

/-- At a header without a length the loop stays where it is. -/
theorem analyzeLoop_stuck {isOpen : Bytes → Bool} {file front rest logHeader logData : Bytes}
    {offset pos fuel : Nat} (hsize : file.length < 2 ^ 31)
    (hat : StandsAt file offset (front ++ rest)) (hfront : front.length = LOG_HEADER_SIZE)
    (hzero : readUInt32At front OFFSET_LOG_TOT_LEN = some 0)
    (hheader : logHeader.length = LOG_HEADER_SIZE) :
    analyzeLoop isOpen file fuel offset pos logHeader logData = none := by
  induction fuel generalizing pos logHeader logData with
  | zero => rfl
  | succ fuel ih =>
    have hlength : file.length = offset + front.length + rest.length := by
      obtain ⟨before, rfl, rfl⟩ := hat
      simp [Nat.add_assoc]
    have hpos : 0 < front.length := by
      rw [hfront]
      decide
    have hmore : (offset : Int) < toInt32 file.length := by
      rw [toInt32_of_lt hsize]
      omega
    have hread := @readLogAt_part file rest offset front logHeader pos hsize hat hpos
      (by rw [hfront, hheader])
    rw [hfront, List.drop_of_length_le (by rw [hheader]), List.append_nil] at hread
    have hnext : Int.bmod ((offset : Int) + toInt32 0) (2 ^ 32) = (offset : Int) := by
      rw [show (offset : Int) + toInt32 0 = (offset : Nat) by simp [toInt32]]
      exact bmod_offset (by omega)
    simp only [analyzeLoop, hmore, if_true, hread, Option.bind_eq_bind, Option.bind_some, hzero,
      hnext]
    cases readIntAt front OFFSET_LSN with
    | none => rfl
    | some lsn =>
      simp only [Option.bind_some]
      cases readIntAt front 0 with
      | none => rfl
      | some x =>
        simp only [Option.bind_some]
        cases LogType.ofInt x with
        | none => simp [ih hfront]
        | some t =>
          dsimp only
          cases readLogAt file (offset + LOG_HEADER_SIZE) logData (toInt32 0) offset with
          | none => rfl
          | some read =>
            simp only [Option.bind_some]
            cases DiskRecord.deserialize t read.1 with
            | none => rfl
            | some record =>
              simp only [Option.bind_some]
              split
              · simp [ih hfront]
              · rfl

/-- A record as the constructors build it is a whole one. -/
theorem DiskRecord.Built.chunk {isOpen : Bytes → Bool} {r : DiskRecord} (h : r.Built)
    (hfits : r.image.length ≤ LOG_BUFFER_SIZE) (hopen : r.tableOpen isOpen = true) :
    LogChunk isOpen r.bytes r.header.lsn (some r) := by
  have hwell := h.wellBuilt
  have hshort : r.image.length < 2 ^ 31 := lt_of_le_of_lt hfits (by decide)
  have hlen := hwell.logTotLen_eq hshort
  have hstart := StandsAt.start (r.header.image ++ r.payload.image)
  rw [r.bytes_eq hlen]
  refine ⟨?_, LogHeader.read_lsn hwell.header hstart, ⟨r.image.length, ?_, toInt32_of_lt hshort⟩,
    ⟨r.header.logType.toInt, LogHeader.read_logType hstart, ?_⟩⟩
  · rw [DiskRecord.image, List.length_append, LogHeader.length_image]
    exact Nat.le_add_right _ _
  · rw [← hlen]
    exact LogHeader.read_logTotLen hwell.header.logTotLen hstart
  · rw [LogType.ofInt_toInt]
    have hread := hwell.deserialize_eq hshort []
    rw [List.append_nil] at hread
    exact ⟨hfits, r, rfl, hread, hopen⟩

/-- Zeros behind whole records: the loop never gets past them. -/
theorem analyzeLoop_zeros {isOpen : Bytes → Bool} {file logHeader logData : Bytes}
    {cs : List (Bytes × Lsn × Option DiskRecord)} {offset : Nat} (fuel pos : Nat)
    (hcs : ∀ c ∈ cs, LogChunk isOpen c.1 c.2.1 c.2.2) (hsize : file.length < 2 ^ 31)
    (hat : StandsAt file offset ((cs.map Prod.fst).flatten ++ List.replicate LOG_HEADER_SIZE 0))
    (hheader : logHeader.length = LOG_HEADER_SIZE) (hdata : logData.length = LOG_BUFFER_SIZE) :
    analyzeLoop isOpen file fuel offset pos logHeader logData = none := by
  induction cs generalizing offset pos fuel logHeader logData with
  | nil =>
    have hzeros : StandsAt file offset (List.replicate LOG_HEADER_SIZE 0 ++ []) := by
      rw [List.append_nil]
      exact hat
    exact analyzeLoop_stuck hsize hzeros List.length_replicate (by decide) hheader
  | cons c cs ih =>
    have hc := hcs c List.mem_cons_self
    simp only [List.map_cons, List.flatten_cons, List.append_assoc] at hat
    obtain ⟨pos₁, header₁, data₁, hheader₁, hdata₁, hround⟩ :=
      analyzeLoop_chunk pos hc hsize hat hheader hdata
    cases fuel with
    | zero => rfl
    | succ fuel =>
      rw [hround, ih fuel pos₁ (fun x hx => hcs x (List.mem_cons_of_mem c hx)) (hat.next rfl) hheader₁ hdata₁]
      rfl

def updatedLog : List DiskRecord :=
  [beginLogRecord 7, updateLogRecord 7 0 [1, 2] [3, 4] ⟨⟨1, 0⟩, [116], -1, 2⟩]

/-- A crash has left zeros behind a BEGIN record and an UPDATE record of an open table. -/
theorem not_analyzesLog_zeroTail :
    ¬ AnalyzesLog (fun name => decide (name = [116]))
      (updatedLog.flatMap DiskRecord.bytes ++ List.replicate LOG_HEADER_SIZE 0) := by
  intro h
  obtain ⟨fuel, taken, hrun, -⟩ := h.ends 0 (List.replicate LOG_HEADER_SIZE 0)
    (List.replicate LOG_BUFFER_SIZE 0) List.length_replicate List.length_replicate
  have hbegin : (beginLogRecord 7).Built := .begin (by decide)
  have hupdate : (updateLogRecord 7 0 [1, 2] [3, 4] ⟨⟨1, 0⟩, [116], -1, 2⟩).Built :=
    .update (by decide) (by decide) ⟨by decide, by decide, by decide, by decide⟩
  have hcs : ∀ c ∈ updatedLog.map fun r => (r.bytes, r.header.lsn, some r),
      LogChunk (fun name => decide (name = [116])) c.1 c.2.1 c.2.2 := by
    simp only [updatedLog, List.map_cons, List.map_nil, List.forall_mem_cons, List.not_mem_nil,
      IsEmpty.forall_iff, implies_true, and_true]
    exact ⟨hbegin.chunk (by decide +kernel) rfl,
      hupdate.chunk (by decide +kernel) (by decide +kernel)⟩
  have hat := StandsAt.start
    (updatedLog.flatMap DiskRecord.bytes ++ List.replicate LOG_HEADER_SIZE 0)
  have hnone := analyzeLoop_zeros fuel 0 hcs (by decide +kernel) hat
    (List.length_replicate (n := LOG_HEADER_SIZE) (a := 0))
    (List.length_replicate (n := LOG_BUFFER_SIZE) (a := 0))
  cases hnone.symm.trans hrun

end Grmdb
