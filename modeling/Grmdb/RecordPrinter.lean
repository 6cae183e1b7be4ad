import Grmdb.ByteLayout
import Grmdb.LogRecord

namespace Grmdb

open ByteLayout

def BUFFER_LENGTH : Nat := 8192
def RECORD_COUNT_LENGTH : Nat := 40
def COL_WIDTH : Nat := 16

/-- The bytes of a literal. -/
def ascii (s : String) : Bytes := s.toList.map fun c => UInt8.ofNat c.toNat

/-- `data_send_`, `offset_` and `ellipsis_` of a context. -/
structure SendContext where
  dataSend : Bytes
  offset : Nat
  ellipsis : Bool

/-- The context of a new statement, with the buffer cleared. -/
def SendContext.start : SendContext := ⟨List.replicate BUFFER_LENGTH 0, 0, false⟩

/-- A string that is sent on its own. `marks` tells whether `ellipsis_` is set when there is no
room for it, which the end of a record leaves out. -/
structure SendPiece where
  text : Bytes
  marks : Bool

namespace SendContext

/-- `none` stands for a write past the end of the buffer. -/
def copy (str : Bytes) (ctx : SendContext) : Option SendContext :=
  if ctx.offset + str.length ≤ ctx.dataSend.length then
    some { ctx with
      dataSend := memcpy ctx.dataSend ctx.offset str, offset := ctx.offset + str.length }
  else none

def send (ctx : SendContext) (piece : SendPiece) : Option SendContext :=
  if ctx.ellipsis = false ∧
      ctx.offset + RECORD_COUNT_LENGTH + piece.text.length < BUFFER_LENGTH then
    ctx.copy piece.text
  else some { ctx with ellipsis := ctx.ellipsis || piece.marks }

def sendAll (pieces : List SendPiece) (ctx : SendContext) : Option SendContext :=
  pieces.foldlM send ctx

/-- Nothing guards the count. -/
def printRecordCount (numRec : Nat) (ctx : SendContext) : Option SendContext :=
  ctx.copy ((if ctx.ellipsis then ascii "... ...\n" else []) ++
    (ascii "Total record(s): " ++ ascii (Nat.repr numRec) ++ ascii "\n"))

end SendContext

structure RecordPrinter where
  numCols : Nat
  numCols_pos : 0 < numCols

namespace RecordPrinter

/-- The strings of a record, as many as the assertion of `print_record` asks for. -/
def Record (p : RecordPrinter) : Type := { rec : List Bytes // rec.length = p.numCols }

/-- A column of a record, aligned to the right. -/
def cell (col : Bytes) : Bytes :=
  let col := if COL_WIDTH < col.length then col.take (COL_WIDTH - 3) ++ ascii "..." else col
  ascii "| " ++ (List.replicate (COL_WIDTH - col.length) 32 ++ col) ++ ascii " "

def separatorPieces (p : RecordPrinter) : List SendPiece :=
  List.replicate p.numCols ⟨ascii "+" ++ List.replicate (COL_WIDTH + 2) 45, true⟩ ++
    [⟨ascii "+\n", true⟩]

def recordPieces (rec : List Bytes) : List SendPiece :=
  rec.map (fun col => ⟨cell col, true⟩) ++ [⟨ascii "|\n", false⟩]

def printSeparator (p : RecordPrinter) (ctx : SendContext) : Option SendContext :=
  ctx.sendAll p.separatorPieces

def printRecord (p : RecordPrinter) (rec : p.Record) (ctx : SendContext) : Option SendContext :=
  ctx.sendAll (recordPieces rec.1)

/-- The loop of `select_from` over the tuples, each with the value that `output_off_` has behind
it, and the number of records printed. -/
def printRecords (p : RecordPrinter) :
    List (p.Record × Bool) → Nat → SendContext → Option (SendContext × Nat)
  | [], numRec, ctx => some (ctx, numRec)
  | (rec, outputOff) :: tuples, numRec, ctx =>
    if outputOff then some (ctx, numRec)
    else (p.printRecord rec ctx).bind fun ctx => p.printRecords tuples (numRec + 1) ctx

/-- What `select_from` puts into the buffer. -/
def selectFrom (p : RecordPrinter) (captions : p.Record) (tuples : List (p.Record × Bool))
    (ctx : SendContext) : Option SendContext := do
  let ctx ← p.printSeparator ctx
  let ctx ← p.printRecord captions ctx
  let ctx ← p.printSeparator ctx
  let (ctx, numRec) ← p.printRecords tuples 0 ctx
  let ctx ← p.printSeparator ctx
  ctx.printRecordCount numRec

/-- The tuples before the loop breaks off. -/
def printed (p : RecordPrinter) (tuples : List (p.Record × Bool)) : List p.Record :=
  (tuples.takeWhile fun tuple => !tuple.2).map Prod.fst

/-- Everything that is sent before the count. -/
def pieces (p : RecordPrinter) (captions : p.Record) (tuples : List (p.Record × Bool)) :
    List SendPiece :=
  p.separatorPieces ++ recordPieces captions.1 ++ p.separatorPieces ++
    (p.printed tuples).flatMap (fun rec => recordPieces rec.1) ++ p.separatorPieces

end RecordPrinter

namespace SendContext

variable {ctx ctx' : SendContext}

/-- The buffer has its whole length, what stands behind the offset is zero, and the reserve for
the count is free. -/
structure Roomy (ctx : SendContext) : Prop where
  length : ctx.dataSend.length = BUFFER_LENGTH
  clear : ctx.dataSend.drop ctx.offset = List.replicate (BUFFER_LENGTH - ctx.offset) 0
  reserve : ctx.offset + RECORD_COUNT_LENGTH < BUFFER_LENGTH

theorem roomy_start : start.Roomy := ⟨by simp [start], by simp [start], by decide⟩

/-- A string that fits is copied, and the bytes behind it stay zero. -/
theorem copy_fits {str : Bytes} (hlen : ctx.dataSend.length = BUFFER_LENGTH)
    (hclear : ctx.dataSend.drop ctx.offset = List.replicate (BUFFER_LENGTH - ctx.offset) 0)
    (hfits : ctx.offset + str.length < BUFFER_LENGTH) :
    ∃ ctx', ctx.copy str = some ctx' ∧ ctx'.offset = ctx.offset + str.length ∧
      ctx'.ellipsis = ctx.ellipsis ∧ ctx'.dataSend.length = BUFFER_LENGTH ∧
      ctx'.dataSend.drop ctx'.offset = List.replicate (BUFFER_LENGTH - ctx'.offset) 0 := by
  have hle : ctx.offset + str.length ≤ ctx.dataSend.length := by omega
  refine ⟨{ ctx with
    dataSend := memcpy ctx.dataSend ctx.offset str, offset := ctx.offset + str.length },
    if_pos hle, rfl, rfl, (length_memcpy hle).trans hlen, ?_⟩
  have htake : (ctx.dataSend.take ctx.offset ++ str).length = ctx.offset + str.length := by
    rw [List.length_append, List.length_take]
    omega
  have hrest := congrArg (List.drop str.length) hclear
  rw [List.drop_drop, List.drop_replicate, Nat.sub_sub] at hrest
  rw [memcpy, ← htake, List.drop_left, htake]
  exact hrest

/-- No piece is written into the reserve. -/
theorem Roomy.send (h : ctx.Roomy) (piece : SendPiece) :
    ∃ ctx', ctx.send piece = some ctx' ∧ ctx'.Roomy := by
  unfold SendContext.send
  split
  next hguard =>
    obtain ⟨ctx', hcopy, hoffset, -, hlen, hclear⟩ := copy_fits h.length h.clear
      (show ctx.offset + piece.text.length < BUFFER_LENGTH by omega)
    exact ⟨ctx', hcopy, hlen, hclear, by omega⟩
  next => exact ⟨_, rfl, h.length, h.clear, h.reserve⟩

theorem Roomy.sendAll (h : ctx.Roomy) (pieces : List SendPiece) :
    ∃ ctx', ctx.sendAll pieces = some ctx' ∧ ctx'.Roomy := by
  induction pieces generalizing ctx with
  | nil => exact ⟨ctx, rfl, h⟩
  | cons piece pieces ih =>
    obtain ⟨ctx₁, hsend, h₁⟩ := h.send piece
    obtain ⟨ctx', hall, h'⟩ := ih h₁
    refine ⟨ctx', ?_, h'⟩
    rw [SendContext.sendAll, List.foldlM_cons, hsend]
    exact hall

/-- Once `ellipsis_` is set nothing more is sent. -/
theorem sendAll_of_ellipsis (h : ctx.ellipsis = true) (pieces : List SendPiece) :
    ctx.sendAll pieces = some ctx := by
  have hsend : ∀ piece, ctx.send piece = some ctx := by
    intro piece
    rw [send, if_neg (by simp [h]), h, Bool.true_or, ← h]
  induction pieces with
  | nil => rfl
  | cons piece pieces ih =>
    rw [sendAll, List.foldlM_cons, hsend]
    exact ih

theorem sendAll_append (front back : List SendPiece) (ctx : SendContext) :
    ctx.sendAll (front ++ back) = (ctx.sendAll front).bind (sendAll back) := by
  rw [sendAll, List.foldlM_append]
  rfl

/-- The count takes no more than its reserve. -/
theorem Roomy.printRecordCount (h : ctx.Roomy) {numRec : Nat} (hrec : numRec < 10 ^ 14) :
    ∃ ctx', ctx.printRecordCount numRec = some ctx' ∧ ctx'.offset < BUFFER_LENGTH ∧
      ctx'.dataSend.length = BUFFER_LENGTH ∧
      ctx'.dataSend.drop ctx'.offset = List.replicate (BUFFER_LENGTH - ctx'.offset) 0 := by
  have hdigits : (ascii (Nat.repr numRec)).length ≤ 14 := by
    rw [ascii, List.length_map, Nat.toList_repr]
    exact (Nat.length_toDigits_le_iff (by decide) (by decide)).mpr hrec
  have hdots : (if ctx.ellipsis then ascii "... ...\n" else []).length ≤ 8 := by
    split
    · decide
    · exact Nat.zero_le _
  have htotal : (ascii "Total record(s): ").length = 17 := by decide
  have hend : (ascii "\n").length = 1 := by decide
  have hreserve := h.reserve
  have hfits : ctx.offset + ((if ctx.ellipsis then ascii "... ...\n" else []) ++
      (ascii "Total record(s): " ++ ascii (Nat.repr numRec) ++ ascii "\n")).length <
        BUFFER_LENGTH := by
    rw [List.length_append, List.length_append, List.length_append, htotal, hend]
    simp only [RECORD_COUNT_LENGTH] at hreserve
    omega
  obtain ⟨ctx', hcopy, hoffset, -, hlen, hclear⟩ := copy_fits h.length h.clear hfits
  exact ⟨ctx', hcopy, by omega, hlen, hclear⟩

end SendContext

namespace RecordPrinter

variable {p : RecordPrinter}

theorem printRecords_eq (tuples : List (p.Record × Bool)) (numRec : Nat) (ctx : SendContext) :
    p.printRecords tuples numRec ctx =
      (ctx.sendAll ((p.printed tuples).flatMap fun rec => recordPieces rec.1)).map fun ctx =>
        (ctx, numRec + (p.printed tuples).length) := by
  induction tuples generalizing numRec ctx with
  | nil => rfl
  | cons tuple tuples ih =>
    obtain ⟨rec, outputOff⟩ := tuple
    cases outputOff with
    | true => rfl
    | false =>
      have hprinted : p.printed ((rec, false) :: tuples) = rec :: p.printed tuples := rfl
      rw [hprinted, List.flatMap_cons, SendContext.sendAll_append, printRecords,
        if_neg Bool.false_ne_true, printRecord]
      cases ctx.sendAll (recordPieces rec.1) with
      | none => rfl
      | some ctx₁ =>
        simp only [Option.bind_some, ih, List.length_cons]
        congr 2
        funext ctx
        rw [Nat.add_right_comm, Nat.add_assoc]

/-- The calls of `select_from` send their pieces one after the other, and then the count. -/
theorem selectFrom_eq (captions : p.Record) (tuples : List (p.Record × Bool))
    (ctx : SendContext) :
    p.selectFrom captions tuples ctx =
      (ctx.sendAll (p.pieces captions tuples)).bind
        (SendContext.printRecordCount (p.printed tuples).length) := by
  simp only [selectFrom, printSeparator, printRecord, printRecords_eq, pieces,
    SendContext.sendAll_append, Option.bind_eq_bind, Option.bind_assoc, Option.bind_map,
    Nat.zero_add]
  rfl

/-- The reply to a SELECT stays inside the buffer with a zero byte behind it, and from the piece
on that sets `ellipsis_` nothing but the count is written. -/
theorem selectFrom_fits (p : RecordPrinter) (captions : p.Record)
    (tuples : List (p.Record × Bool)) (htuples : tuples.length < 10 ^ 14) :
    (∃ ctx, p.selectFrom captions tuples SendContext.start = some ctx ∧
        ctx.offset < BUFFER_LENGTH ∧ ctx.dataSend.length = BUFFER_LENGTH ∧
        ctx.dataSend.drop ctx.offset = List.replicate (BUFFER_LENGTH - ctx.offset) 0) ∧
      p.selectFrom captions tuples SendContext.start =
        (SendContext.start.sendAll (p.pieces captions tuples)).bind
          (SendContext.printRecordCount (p.printed tuples).length) ∧
      ∀ before after ctx, p.pieces captions tuples = before ++ after →
        SendContext.start.sendAll before = some ctx → ctx.ellipsis = true →
          ctx.sendAll after = some ctx := by
  refine ⟨?_, selectFrom_eq captions tuples _, ?_⟩
  · have hcount : (p.printed tuples).length < 10 ^ 14 := by
      rw [printed, List.length_map]
      exact (List.takeWhile_sublist _).length_le.trans_lt htuples
    obtain ⟨ctx, hall, hroomy⟩ := SendContext.roomy_start.sendAll (p.pieces captions tuples)
    obtain ⟨ctx', hrun, hoffset, hlen, hclear⟩ := hroomy.printRecordCount hcount
    refine ⟨ctx', ?_, hoffset, hlen, hclear⟩
    rw [selectFrom_eq, hall]
    exact hrun
  · intro before after ctx _ _ hellipsis
    exact SendContext.sendAll_of_ellipsis hellipsis after

def twoCols : RecordPrinter := ⟨2, by decide⟩

theorem selectFrom_fits_twoCols :
    ∃ ctx, twoCols.selectFrom ⟨[[105, 100], [110]], rfl⟩
        [(⟨[[49], List.replicate 20 97], rfl⟩, false), (⟨[[50], []], rfl⟩, true)]
        SendContext.start = some ctx ∧ ctx.offset < BUFFER_LENGTH ∧
      ctx.dataSend.length = BUFFER_LENGTH ∧
      ctx.dataSend.drop ctx.offset = List.replicate (BUFFER_LENGTH - ctx.offset) 0 :=
  (selectFrom_fits twoCols ⟨[[105, 100], [110]], rfl⟩
    [(⟨[[49], List.replicate 20 97], rfl⟩, false), (⟨[[50], []], rfl⟩, true)] (by decide)).1

end RecordPrinter

end Grmdb
