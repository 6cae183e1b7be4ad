import Grmdb.ByteLayout
import Grmdb.IndexKey
import Grmdb.LogRecord

namespace Grmdb

open ByteLayout

def OFFSET_LOG_TYPE : Nat := 0
def OFFSET_LSN : Nat := 4
def OFFSET_LOG_TOT_LEN : Nat := OFFSET_LSN + 4
def OFFSET_LOG_TID : Nat := OFFSET_LOG_TOT_LEN + 4
def OFFSET_PREV_LSN : Nat := OFFSET_LOG_TID + 4
def OFFSET_LOG_DATA : Nat := OFFSET_PREV_LSN + 4

def INVALID_TXN_ID : Int := -1

/-- The values of `int`, `lsn_t` and `txn_id_t`. -/
def IsInt32 (x : Int) : Prop := -2 ^ 31 ≤ x ∧ x < 2 ^ 31

instance (x : Int) : Decidable (IsInt32 x) := inferInstanceAs (Decidable (_ ∧ _))

/-- The four bytes of an `int`. -/
def intBytes (x : Int) : Bytes := littleEndian 4 (x % 2 ^ 32).toNat

def readIntAt (src : Bytes) (off : Nat) : Option Int := (readAt src off 4).map readInt

def readUInt32At (src : Bytes) (off : Nat) : Option Nat := (readAt src off 4).map readNat

def readSizeAt (src : Bytes) (off : Nat) : Option Nat := (readAt src off 8).map readNat

/-- `RmRecord::Deserialize`: the size, then that many bytes; `new char[size]` throws on a
negative size. -/
def readRecordAt (src : Bytes) (off : Nat) : Option Bytes := do
  let size ← readIntAt src off
  if size < 0 then none else readAt src (off + 4) size.toNat

inductive LogType where
  | update
  | insert
  | delete
  | begin
  | commit
  | abort
  | checkpoint
  deriving DecidableEq, Repr

def LogType.toInt : LogType → Int
  | .update => 0
  | .insert => 1
  | .delete => 2
  | .begin => 3
  | .commit => 4
  | .abort => 5
  | .checkpoint => 6

def LogType.ofInt (x : Int) : Option LogType :=
  [update, insert, delete, begin, commit, abort, checkpoint].find? (·.toInt = x)

structure LogHeader where
  logType : LogType
  lsn : Lsn
  logTotLen : Nat
  logTid : Int
  prevLsn : Lsn
  deriving DecidableEq, Repr

/-- What INSERT, DELETE and UPDATE records carry behind the images. `table_name_` with
`table_name_size_` is one list of bytes. -/
structure LogTarget where
  rid : Rid
  tableName : Bytes
  firstFreePageNo : PageNo
  numPages : Int
  deriving DecidableEq, Repr

/-- The members of the record classes besides the header; an `RmRecord` is the list of its
`size` bytes. INSERT and DELETE records have the same members. -/
inductive LogPayload where
  | none
  | one (value : Bytes) (target : LogTarget)
  | two (oldValue newValue : Bytes) (target : LogTarget)
  deriving DecidableEq, Repr

/-- An object of one of the record classes, as it is laid down in the log. -/
structure DiskRecord where
  header : LogHeader
  payload : LogPayload
  deriving DecidableEq, Repr

/-- `log_tot_len_ += n` on a `uint32_t`. -/
def addLen (len n : Nat) : Nat := (len + n) % 2 ^ 32

/-- The default constructors: every class sets its own type in an otherwise equal header. -/
def LogHeader.init (t : LogType) : LogHeader :=
  ⟨t, INVALID_LSN, LOG_HEADER_SIZE, INVALID_TXN_ID, INVALID_LSN⟩

def beginLogRecord (tid : Int) : DiskRecord := ⟨{ LogHeader.init .begin with logTid := tid }, .none⟩

def commitLogRecord (tid : Int) : DiskRecord :=
  ⟨{ LogHeader.init .commit with logTid := tid }, .none⟩

def abortLogRecord (tid : Int) : DiskRecord := ⟨{ LogHeader.init .abort with logTid := tid }, .none⟩

def ckpLogRecord : DiskRecord := ⟨LogHeader.init .checkpoint, .none⟩

/-- The last additions to `log_tot_len_`: `Rid`, the name with its length, the two header
fields. -/
def addTargetLen (len : Nat) (target : LogTarget) : Nat :=
  let len := addLen len 8
  let len := addLen len (8 + target.tableName.length)
  let len := addLen len 4
  addLen len 4

/-- The constructor that INSERT and DELETE records share but for the type. -/
def imageLogRecord (t : LogType) (tid : Int) (prevLsn : Lsn) (value : Bytes)
    (target : LogTarget) : DiskRecord :=
  let len := (LogHeader.init t).logTotLen
  let len := addLen len 4
  let len := addLen len value.length
  ⟨{ LogHeader.init t with logTid := tid, prevLsn := prevLsn, logTotLen := addTargetLen len target },
    .one value target⟩

def insertLogRecord : Int → Lsn → Bytes → LogTarget → DiskRecord := imageLogRecord .insert

def deleteLogRecord : Int → Lsn → Bytes → LogTarget → DiskRecord := imageLogRecord .delete

def updateLogRecord (tid : Int) (prevLsn : Lsn) (oldValue newValue : Bytes)
    (target : LogTarget) : DiskRecord :=
  let len := (LogHeader.init .update).logTotLen
  let len := addLen len (4 * 2)
  let len := addLen len (oldValue.length + newValue.length)
  ⟨{ LogHeader.init .update with
      logTid := tid, prevLsn := prevLsn, logTotLen := addTargetLen len target },
    .two oldValue newValue target⟩

/-- `LogRecord::serialize`. -/
def LogHeader.serialize (h : LogHeader) (dest : Bytes) : Bytes :=
  let dest := memcpy dest OFFSET_LOG_TYPE (intBytes h.logType.toInt)
  let dest := memcpy dest OFFSET_LSN (intBytes h.lsn)
  let dest := memcpy dest OFFSET_LOG_TOT_LEN (littleEndian 4 h.logTotLen)
  let dest := memcpy dest OFFSET_LOG_TID (intBytes h.logTid)
  memcpy dest OFFSET_PREV_LSN (intBytes h.prevLsn)

/-- `LogRecord::deserialize`. -/
def LogHeader.deserialize (src : Bytes) : Option LogHeader := do
  let logType ← (← readIntAt src 0) |> LogType.ofInt
  let lsn ← readIntAt src OFFSET_LSN
  let logTotLen ← readUInt32At src OFFSET_LOG_TOT_LEN
  let logTid ← readIntAt src OFFSET_LOG_TID
  let prevLsn ← readIntAt src OFFSET_PREV_LSN
  return ⟨logType, lsn, logTotLen, logTid, prevLsn⟩

/-- The common end of the three serialisers. -/
def LogTarget.serialize (target : LogTarget) (dest : Bytes) (offset : Nat) : Bytes :=
  let dest := memcpy dest offset (intBytes target.rid.pageNo ++ intBytes target.rid.slotNo)
  let offset := offset + 8
  let dest := memcpy dest offset (littleEndian 8 target.tableName.length)
  let offset := offset + 8
  let dest := memcpy dest offset target.tableName
  let offset := offset + target.tableName.length
  let dest := memcpy dest offset (intBytes target.firstFreePageNo)
  let offset := offset + 4
  memcpy dest offset (intBytes target.numPages)

/-- The common end of the three deserialisers. -/
def LogTarget.deserialize (src : Bytes) (offset : Nat) : Option LogTarget := do
  let pageNo ← readIntAt src offset
  let slotNo ← readIntAt src (offset + 4)
  let offset := offset + 8
  let tableNameSize ← readSizeAt src offset
  let offset := offset + 8
  let tableName ← readAt src offset tableNameSize
  let offset := offset + tableNameSize
  let firstFreePageNo ← readIntAt src offset
  let offset := offset + 4
  let numPages ← readIntAt src offset
  return ⟨⟨pageNo, slotNo⟩, tableName, firstFreePageNo, numPages⟩

def DiskRecord.serialize (r : DiskRecord) (dest : Bytes) : Bytes :=
  let dest := r.header.serialize dest
  let offset := OFFSET_LOG_DATA
  match r.payload with
  | .none => dest
  | .one value target =>
    let dest := memcpy dest offset (intBytes value.length)
    let offset := offset + 4
    let dest := memcpy dest offset value
    let offset := offset + value.length
    target.serialize dest offset
  | .two oldValue newValue target =>
    let dest := memcpy dest offset (intBytes oldValue.length)
    let offset := offset + 4
    let dest := memcpy dest offset oldValue
    let offset := offset + oldValue.length
    let dest := memcpy dest offset (intBytes newValue.length)
    let offset := offset + 4
    let dest := memcpy dest offset newValue
    let offset := offset + newValue.length
    target.serialize dest offset

/-- `deserialize` of the class that `analyze` picks by the type of the header. -/
def DiskRecord.deserialize (t : LogType) (src : Bytes) : Option DiskRecord := do
  let header ← LogHeader.deserialize src
  let offset := OFFSET_LOG_DATA
  match t with
  | .begin | .commit | .abort | .checkpoint => return ⟨header, .none⟩
  | .insert | .delete =>
    let value ← readRecordAt src offset
    let offset := offset + value.length + 4
    let target ← LogTarget.deserialize src offset
    return ⟨header, .one value target⟩
  | .update =>
    let oldValue ← readRecordAt src offset
    let offset := offset + (4 + oldValue.length)
    let newValue ← readRecordAt src offset
    let offset := offset + (4 + newValue.length)
    let target ← LogTarget.deserialize src offset
    return ⟨header, .two oldValue newValue target⟩

/-- The bytes that `add_log_to_buffer` copies: the record serialised into a fresh array of
`log_tot_len_` bytes. -/
def DiskRecord.bytes (r : DiskRecord) : Bytes :=
  r.serialize (List.replicate r.header.logTotLen 0)

@[simp] theorem length_intBytes (x : Int) : (intBytes x).length = 4 := length_littleEndian _ _

theorem readInt_intBytes {x : Int} (h : IsInt32 x) : readInt (intBytes x) = x := by
  obtain ⟨hlow, hhigh⟩ := h
  have htake : (intBytes x).take 4 = intBytes x := List.take_of_length_le (by simp)
  have hread : readNat (intBytes x) = (x % 2 ^ 32).toNat % 256 ^ 4 := readNat_littleEndian _ _
  have hval : Nat.ofDigits 256 ((intBytes x).map UInt8.toNat) = (x % 2 ^ 32).toNat % 256 ^ 4 := hread
  simp only [readInt, htake, hval]
  split <;> omega

theorem LogType.ofInt_toInt (t : LogType) : LogType.ofInt t.toInt = some t := by
  cases t <;> decide

theorem LogType.isInt32_toInt (t : LogType) : IsInt32 t.toInt := by
  cases t <;> simp [IsInt32, LogType.toInt]

section Read

variable {src tail : Bytes} {off : Nat}

theorem readIntAt_eq {x : Int} (hx : IsInt32 x) (h : StandsAt src off (intBytes x ++ tail)) :
    readIntAt src off = some x := by
  rw [readIntAt, h.readAt (length_intBytes x).symm, Option.map_some, readInt_intBytes hx]

theorem readUInt32At_eq {n : Nat} (hn : n < 2 ^ 32)
    (h : StandsAt src off (littleEndian 4 n ++ tail)) : readUInt32At src off = some n := by
  rw [readUInt32At, h.readAt (length_littleEndian 4 n).symm, Option.map_some,
    readNat_littleEndian, Nat.mod_eq_of_lt (by omega)]

theorem readSizeAt_eq {n : Nat} (hn : n < 2 ^ 64)
    (h : StandsAt src off (littleEndian 8 n ++ tail)) : readSizeAt src off = some n := by
  rw [readSizeAt, h.readAt (length_littleEndian 8 n).symm, Option.map_some,
    readNat_littleEndian, Nat.mod_eq_of_lt (by omega)]

theorem readRecordAt_eq {value : Bytes} (hv : value.length < 2 ^ 31)
    (h : StandsAt src off (intBytes value.length ++ (value ++ tail))) :
    readRecordAt src off = some value := by
  have hrange : IsInt32 (value.length : Int) := by constructor <;> omega
  have hsize : readIntAt src off = some (value.length : Int) := readIntAt_eq hrange h
  have hvalue : readAt src (off + 4) value.length = some value :=
    (h.next (by simp)).readAt rfl
  simp [readRecordAt, hsize, hvalue]

end Read

/-- The header as one run of bytes. -/
def LogHeader.image (h : LogHeader) : Bytes :=
  intBytes h.logType.toInt ++ intBytes h.lsn ++ littleEndian 4 h.logTotLen ++ intBytes h.logTid ++
    intBytes h.prevLsn

def LogTarget.image (target : LogTarget) : Bytes :=
  (intBytes target.rid.pageNo ++ intBytes target.rid.slotNo) ++
    littleEndian 8 target.tableName.length ++ target.tableName ++
    intBytes target.firstFreePageNo ++ intBytes target.numPages

def LogPayload.image : LogPayload → Bytes
  | .none => []
  | .one value target => intBytes value.length ++ value ++ target.image
  | .two oldValue newValue target =>
    intBytes oldValue.length ++ oldValue ++ intBytes newValue.length ++ newValue ++ target.image

def DiskRecord.image (r : DiskRecord) : Bytes := r.header.image ++ r.payload.image

@[simp] theorem LogHeader.length_image (h : LogHeader) : h.image.length = LOG_HEADER_SIZE := by
  simp [image, LOG_HEADER_SIZE]

@[simp] theorem LogTarget.length_image (target : LogTarget) :
    target.image.length = 24 + target.tableName.length := by
  simp [image]
  omega

theorem LogHeader.serialize_eq (h : LogHeader) (dest : Bytes) :
    h.serialize dest = h.image ++ dest.drop LOG_HEADER_SIZE := by
  simp only [serialize, OFFSET_LOG_TYPE, memcpy_zero]
  rw [memcpy_append, memcpy_append, memcpy_append, memcpy_append]
  · simp [image, LOG_HEADER_SIZE]
  all_goals simp [OFFSET_PREV_LSN, OFFSET_LOG_TID, OFFSET_LOG_TOT_LEN, OFFSET_LSN]

theorem LogTarget.serialize_eq (target : LogTarget) {done : Bytes} {offset : Nat}
    (h : offset = done.length) (rest : Bytes) :
    target.serialize (done ++ rest) offset =
      done ++ target.image ++ rest.drop target.image.length := by
  simp only [serialize]
  rw [memcpy_append, memcpy_append, memcpy_append, memcpy_append, memcpy_append]
  · simp [image, Nat.add_comm, Nat.add_left_comm]
  all_goals
    simp only [h, List.length_append, length_intBytes, length_littleEndian]
    try omega

/-- Serialising overwrites the front of `dest` with the image of the record and leaves the
rest of it alone. -/
theorem DiskRecord.serialize_eq (r : DiskRecord) (dest : Bytes) :
    r.serialize dest = r.image ++ dest.drop r.image.length := by
  have hdata : OFFSET_LOG_DATA = r.header.image.length := by simp; rfl
  simp only [serialize, r.header.serialize_eq, image]
  cases r.payload with
  | none => simp [LogPayload.image]
  | one value target =>
    simp only
    rw [memcpy_append hdata, memcpy_append, LogTarget.serialize_eq]
    · simp [LogPayload.image, Nat.add_assoc, Nat.add_comm, Nat.add_left_comm]
    all_goals simp [hdata, Nat.add_assoc]
  | two oldValue newValue target =>
    simp only
    rw [memcpy_append hdata, memcpy_append, memcpy_append, memcpy_append, LogTarget.serialize_eq]
    · simp [LogPayload.image, Nat.add_assoc, Nat.add_comm, Nat.add_left_comm]
    all_goals simp [hdata, Nat.add_assoc]

/-- The members hold values of their C++ types. -/
structure LogHeader.InRange (h : LogHeader) : Prop where
  lsn : IsInt32 h.lsn
  logTotLen : h.logTotLen < 2 ^ 32
  logTid : IsInt32 h.logTid
  prevLsn : IsInt32 h.prevLsn

structure LogTarget.InRange (target : LogTarget) : Prop where
  pageNo : IsInt32 target.rid.pageNo
  slotNo : IsInt32 target.rid.slotNo
  firstFreePageNo : IsInt32 target.firstFreePageNo
  numPages : IsInt32 target.numPages

section ReadHeader

variable {h : LogHeader} {src rest : Bytes}

theorem LogHeader.read_logType (atType : StandsAt src 0 (h.image ++ rest)) :
    readIntAt src 0 = some h.logType.toInt := by
  simp only [image, List.append_assoc] at atType
  exact readIntAt_eq h.logType.isInt32_toInt atType

theorem LogHeader.standsAt_logTotLen (atType : StandsAt src 0 (h.image ++ rest)) :
    StandsAt src OFFSET_LOG_TOT_LEN (littleEndian 4 h.logTotLen ++
      (intBytes h.logTid ++ (intBytes h.prevLsn ++ rest))) := by
  simp only [image, List.append_assoc] at atType
  have atLsn := atType.next (show OFFSET_LSN = 0 + _ by simp [OFFSET_LSN])
  exact atLsn.next (by simp [OFFSET_LOG_TOT_LEN])

theorem LogHeader.read_logTotLen (hlen : h.logTotLen < 2 ^ 32)
    (atType : StandsAt src 0 (h.image ++ rest)) :
    readUInt32At src OFFSET_LOG_TOT_LEN = some h.logTotLen :=
  readUInt32At_eq hlen (standsAt_logTotLen atType)

theorem LogHeader.deserialize_eq (range : h.InRange) (atType : StandsAt src 0 (h.image ++ rest)) :
    LogHeader.deserialize src = some h := by
  have hlen := read_logTotLen range.logTotLen atType
  have atTid := (standsAt_logTotLen atType).next
    (show OFFSET_LOG_TID = _ + _ by simp [OFFSET_LOG_TID])
  have atPrev := atTid.next (show OFFSET_PREV_LSN = _ + _ by simp [OFFSET_PREV_LSN])
  have htype := read_logType atType
  simp only [image, List.append_assoc] at atType
  have atLsn := atType.next (show OFFSET_LSN = 0 + _ by simp [OFFSET_LSN])
  simp [LogHeader.deserialize, htype, LogType.ofInt_toInt, readIntAt_eq range.lsn atLsn, hlen,
    readIntAt_eq range.logTid atTid, readIntAt_eq range.prevLsn atPrev]

end ReadHeader

theorem LogTarget.deserialize_eq {target : LogTarget} (range : target.InRange)
    (hname : target.tableName.length < 2 ^ 64) {src rest : Bytes} {offset : Nat}
    (atPage : StandsAt src offset (target.image ++ rest)) :
    LogTarget.deserialize src offset = some target := by
  simp only [image, List.append_assoc] at atPage
  have atSlot := atPage.next (show offset + 4 = _ + _ by simp)
  have atSize := atSlot.next (show offset + 8 = _ + _ by simp)
  have atName := atSize.next (show offset + 8 + 8 = _ + _ by simp)
  have atFree := atName.next rfl
  have atNum := atFree.next (show offset + 8 + 8 + target.tableName.length + 4 = _ + _ by simp)
  simp [LogTarget.deserialize, readIntAt_eq range.pageNo atPage, readIntAt_eq range.slotNo atSlot,
    readSizeAt_eq hname atSize, atName.readAt rfl, readIntAt_eq range.firstFreePageNo atFree,
    readIntAt_eq range.numPages atNum]

/-- The records the constructors build, and those whose `lsn_` or `prev_lsn_` was assigned
afterwards, as `add_log_to_buffer` and the transaction manager do. -/
inductive DiskRecord.Built : DiskRecord → Prop where
  | begin {tid : Int} (htid : IsInt32 tid) : Built (beginLogRecord tid)
  | commit {tid : Int} (htid : IsInt32 tid) : Built (commitLogRecord tid)
  | abort {tid : Int} (htid : IsInt32 tid) : Built (abortLogRecord tid)
  | checkpoint : Built ckpLogRecord
  | insert {tid : Int} {prevLsn : Lsn} {value : Bytes} {target : LogTarget} (htid : IsInt32 tid)
      (hprev : IsInt32 prevLsn) (htarget : target.InRange) :
      Built (insertLogRecord tid prevLsn value target)
  | delete {tid : Int} {prevLsn : Lsn} {value : Bytes} {target : LogTarget} (htid : IsInt32 tid)
      (hprev : IsInt32 prevLsn) (htarget : target.InRange) :
      Built (deleteLogRecord tid prevLsn value target)
  | update {tid : Int} {prevLsn : Lsn} {oldValue newValue : Bytes} {target : LogTarget}
      (htid : IsInt32 tid) (hprev : IsInt32 prevLsn) (htarget : target.InRange) :
      Built (updateLogRecord tid prevLsn oldValue newValue target)
  | setLsn {r : DiskRecord} {lsn : Lsn} (h : Built r) (hlsn : IsInt32 lsn) :
      Built { r with header := { r.header with lsn := lsn } }
  | setPrevLsn {r : DiskRecord} {prevLsn : Lsn} (h : Built r) (hprev : IsInt32 prevLsn) :
      Built { r with header := { r.header with prevLsn := prevLsn } }

/-- The members that each type of record has. -/
def LogPayload.Matches : LogType → LogPayload → Prop
  | .begin, .none | .commit, .none | .abort, .none | .checkpoint, .none => True
  | .insert, .one _ target | .delete, .one _ target => target.InRange
  | .update, .two _ _ target => target.InRange
  | _, _ => False

/-- What holds of a record from its construction on. -/
structure DiskRecord.WellBuilt (r : DiskRecord) : Prop where
  header : r.header.InRange
  payload : r.payload.Matches r.header.logType
  logTotLen : r.header.logTotLen = r.image.length % 2 ^ 32

theorem LogHeader.inRange_init (t : LogType) : (LogHeader.init t).InRange := by
  refine ⟨?_, ?_, ?_, ?_⟩ <;>
    simp [init, IsInt32, INVALID_LSN, INVALID_TXN_ID, LOG_HEADER_SIZE]

theorem DiskRecord.wellBuilt_plain (t : LogType) (h : LogPayload.none.Matches t) {tid : Int}
    (htid : IsInt32 tid) :
    DiskRecord.WellBuilt ⟨{ LogHeader.init t with logTid := tid }, .none⟩ := by
  have hrange := LogHeader.inRange_init t
  refine ⟨⟨hrange.lsn, hrange.logTotLen, htid, hrange.prevLsn⟩, h, ?_⟩
  simp [image, LogPayload.image, LogHeader.init, LOG_HEADER_SIZE]

theorem addTargetLen_eq (len : Nat) (target : LogTarget) :
    addTargetLen len target = (len + target.image.length) % 2 ^ 32 := by
  simp only [addTargetLen, addLen, LogTarget.length_image]
  omega

theorem DiskRecord.wellBuilt_image (t : LogType) {value : Bytes} {target : LogTarget}
    (h : (LogPayload.one value target).Matches t) {tid : Int} (htid : IsInt32 tid) {prevLsn : Lsn}
    (hprev : IsInt32 prevLsn) : (imageLogRecord t tid prevLsn value target).WellBuilt := by
  have hrange := LogHeader.inRange_init t
  refine ⟨⟨hrange.lsn, ?_, htid, hprev⟩, h, ?_⟩
  · simp only [imageLogRecord, addTargetLen_eq]
    omega
  · simp only [imageLogRecord, addTargetLen_eq, image, LogPayload.image, LogHeader.init, addLen,
      List.length_append, LogHeader.length_image, length_intBytes]
    omega

theorem DiskRecord.wellBuilt_update {oldValue newValue : Bytes} {target : LogTarget}
    (htarget : target.InRange) {tid : Int} (htid : IsInt32 tid) {prevLsn : Lsn}
    (hprev : IsInt32 prevLsn) :
    (updateLogRecord tid prevLsn oldValue newValue target).WellBuilt := by
  have hrange := LogHeader.inRange_init .update
  refine ⟨⟨hrange.lsn, ?_, htid, hprev⟩, htarget, ?_⟩
  · simp only [updateLogRecord, addTargetLen_eq]
    omega
  · simp only [updateLogRecord, addTargetLen_eq, image, LogPayload.image, LogHeader.init, addLen,
      List.length_append, LogHeader.length_image, length_intBytes]
    omega

theorem DiskRecord.Built.wellBuilt {r : DiskRecord} (h : r.Built) : r.WellBuilt := by
  induction h with
  | begin htid => exact wellBuilt_plain .begin trivial htid
  | commit htid => exact wellBuilt_plain .commit trivial htid
  | abort htid => exact wellBuilt_plain .abort trivial htid
  | checkpoint =>
    exact wellBuilt_plain .checkpoint trivial (LogHeader.inRange_init .checkpoint).logTid
  | insert htid hprev htarget => exact wellBuilt_image .insert htarget htid hprev
  | delete htid hprev htarget => exact wellBuilt_image .delete htarget htid hprev
  | update htid hprev htarget => exact wellBuilt_update htarget htid hprev
  | setLsn _ hlsn ih =>
    refine ⟨⟨hlsn, ih.header.logTotLen, ih.header.logTid, ih.header.prevLsn⟩, ih.payload, ?_⟩
    simpa [image] using ih.logTotLen
  | setPrevLsn _ hprev ih =>
    refine ⟨⟨ih.header.lsn, ih.header.logTotLen, ih.header.logTid, hprev⟩, ih.payload, ?_⟩
    simpa [image] using ih.logTotLen

/-- Reading a record back by the class of its type restores all of its members. -/
theorem DiskRecord.WellBuilt.deserialize_eq {r : DiskRecord} (h : r.WellBuilt)
    (hsize : r.image.length < 2 ^ 31) (rest : Bytes) :
    DiskRecord.deserialize r.header.logType (r.image ++ rest) = some r := by
  obtain ⟨header, payload⟩ := r
  have atHeader := StandsAt.start (header.image ++ (payload.image ++ rest))
  have hheader := LogHeader.deserialize_eq h.header atHeader
  have atData := atHeader.next (show OFFSET_LOG_DATA = 0 + _ by simp; rfl)
  simp only [image, List.append_assoc, List.length_append] at hsize ⊢
  generalize header.image ++ (payload.image ++ rest) = src at hheader atData ⊢
  have hmatch := h.payload
  simp only at hmatch
  cases payload with
  | none =>
    revert hmatch
    cases header.logType <;> simp [LogPayload.Matches, DiskRecord.deserialize, hheader]
  | one value target =>
    simp only [LogPayload.image, List.append_assoc, List.length_append,
      LogTarget.length_image] at atData hsize
    have hvalue := readRecordAt_eq (by omega) atData
    have atTarget := (atData.next (show OFFSET_LOG_DATA + 4 = _ + _ by simp)).next
      (show OFFSET_LOG_DATA + value.length + 4 = _ + _ by omega)
    have htarget : target.InRange → LogTarget.deserialize src
        (OFFSET_LOG_DATA + value.length + 4) = some target := by
      intro hrange
      exact LogTarget.deserialize_eq hrange (by omega) atTarget
    revert hmatch
    cases header.logType <;>
      simp +contextual [LogPayload.Matches, DiskRecord.deserialize, hheader, hvalue, htarget]
  | two oldValue newValue target =>
    simp only [LogPayload.image, List.append_assoc, List.length_append,
      LogTarget.length_image] at atData hsize
    have hold := readRecordAt_eq (by omega) atData
    have atNew := (atData.next (show OFFSET_LOG_DATA + 4 = _ + _ by simp)).next
      (show OFFSET_LOG_DATA + (4 + oldValue.length) = _ + _ by omega)
    have hnew := readRecordAt_eq (by omega) atNew
    have atValue := atNew.next (show OFFSET_LOG_DATA + (4 + oldValue.length) + 4 = _ + _ by simp)
    have atTarget := atValue.next
      (show OFFSET_LOG_DATA + (4 + oldValue.length) + (4 + newValue.length) = _ + _ by omega)
    have htarget : target.InRange → LogTarget.deserialize src
        (OFFSET_LOG_DATA + (4 + oldValue.length) + (4 + newValue.length)) = some target := by
      intro hrange
      exact LogTarget.deserialize_eq hrange (by omega) atTarget
    revert hmatch
    cases header.logType <;>
      simp +contextual [LogPayload.Matches, DiskRecord.deserialize, hheader, hold, hnew, htarget]

end Grmdb
