import Mathlib

namespace Grmdb

abbrev TxnId := Nat
abbrev Lsn := Int
abbrev Fd := Int
abbrev PageNo := Int
abbrev TabName := String
abbrev Bytes := List UInt8

def INVALID_LSN : Lsn := -1

/-- Size of the log header: type, LSN, total length, transaction id and previous LSN. -/
def LOG_HEADER_SIZE : Nat := 20

def PAGE_SIZE : Nat := 4096

def LOG_BUFFER_SIZE : Nat := 1024 * PAGE_SIZE

structure Rid where
  pageNo : PageNo
  slotNo : Int
  deriving DecidableEq, Repr

/-- The part of INSERT, DELETE and UPDATE records that names the place in the table file and
the file header as it stood when the record was built. -/
structure LogPlace where
  rid : Rid
  tableName : TabName
  firstFreePageNo : PageNo
  numPages : Int
  deriving DecidableEq, Repr

inductive LogBody where
  | update (oldValue newValue : Bytes) (place : LogPlace)
  | insert (insertValue : Bytes) (place : LogPlace)
  | delete (deleteValue : Bytes) (place : LogPlace)
  | begin
  | commit
  | abort
  | checkpoint
  deriving DecidableEq, Repr

/-- A log record as `add_log_to_buffer` stamps it. CHECKPOINT records carry no transaction. -/
structure LogRecord where
  lsn : Lsn
  logTid : Option TxnId
  prevLsn : Lsn
  body : LogBody
  deriving DecidableEq, Repr

def LogBody.isData : LogBody → Bool
  | .update .. | .insert .. | .delete .. => true
  | _ => false

/-- Bytes of a place: `Rid`, the name with its `size_t` length and the two header fields. -/
def LogPlace.len (p : LogPlace) : Nat := 8 + (8 + p.tableName.utf8ByteSize) + 4 + 4

def LogBody.totLen : LogBody → Nat
  | .update old new place => LOG_HEADER_SIZE + 4 * 2 + (old.length + new.length) + place.len
  | .insert value place => LOG_HEADER_SIZE + 4 + value.length + place.len
  | .delete value place => LOG_HEADER_SIZE + 4 + value.length + place.len
  | _ => LOG_HEADER_SIZE

theorem LogBody.totLen_pos (b : LogBody) : 0 < b.totLen := by
  have hheader : 0 < LOG_HEADER_SIZE := by decide
  cases b <;> simp only [LogBody.totLen] <;> omega

end Grmdb
