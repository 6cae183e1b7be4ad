import Grmdb.DropTable
import Grmdb.TupleValue
import Grmdb.UpdateExecutor

namespace Grmdb

open ByteLayout

/-- `ast::Value`. -/
inductive SvValue where
  | intLit (val : Int)
  | floatLit (bits : UInt32)
  | stringLit (val : Bytes)
  | boolLit (val : Bool)
  | dateTimeLit (val : Bytes)
  deriving DecidableEq, Repr

/-- `convert_sv_value`; `none` is the `InternalError`. -/
def convertSvValue : SvValue → Option Value
  | .intLit val => some (.int val)
  | .floatLit bits => some (.float bits)
  | .stringLit val => some (.string val)
  | _ => none

/-- `do_analyze` of the set clauses of an UPDATE. -/
def analyzeSetClauses (clauses : List (String × SvValue)) : Option (List (String × Value)) :=
  clauses.mapM fun (colName, val) => (convertSvValue val).map fun newVal => (colName, newVal)

/-- `do_analyze` of the values of an INSERT. -/
def analyzeValues (vals : List SvValue) : Option (List Value) := vals.mapM convertSvValue

/-- The types that the grammar has for a column. -/
inductive TypeLen where
  | int
  | char (len : Nat)
  | float
  | datetime
  deriving DecidableEq, Repr

def TypeLen.colDef (name : String) : TypeLen → ColDef
  | .int => ⟨name, .int, 4⟩
  | .char len => ⟨name, .string, len⟩
  | .float => ⟨name, .float, 4⟩
  | .datetime => ⟨name, .string, 20⟩

/-- Why a value is not stored. `pastCols` is the end iterator of `find_if` read through. -/
inductive Rejection where
  | incompatibleType (lhs rhs : ColType)
  | stringOverflow
  | assertion
  | pastCols
  deriving DecidableEq, Repr

def Value.initRawResult (val : Value) (len : Nat) : Except Rejection Bytes :=
  match val with
  | .int _ => if len = 4 then .ok (val.raw len) else .error .assertion
  | .float _ => if len = 4 then .ok (val.raw len) else .error .assertion
  | .string strVal => if len < strVal.length then .error .stringOverflow else .ok (val.raw len)

/-- The value that `InsertExecutor::Next` stores in the column. -/
def ColMeta.insertValue (col : ColMeta) (val : Value) : Except Rejection Bytes :=
  if col.type ≠ val.type then
    match col.type, val with
    | .float, .int intVal => (Value.float (intToFloat intVal)).initRawResult col.len
    | _, _ => .error (.incompatibleType col.type val.type)
  else val.initRawResult col.len

/-- The loop of `InsertExecutor::Next` over `values_`, which are as many as the columns. -/
def insertRecord (cols : List ColMeta) (values : List Value) (data : Bytes) :
    Except Rejection Bytes :=
  (cols.zip values).foldlM (fun data ((col, val) : ColMeta × Value) =>
    (col.insertValue val).map (memcpy data col.offset)) data

/-- The column that a set clause finds and the bytes for it. -/
def setClause (cols : List ColMeta) (colName : String) (rhs : Value) :
    Except Rejection SetClause :=
  match cols.find? fun col => col.name == colName with
  | none => .error .pastCols
  | some col => (rhs.initRawResult col.len).map fun raw => ⟨col.offset, raw⟩

/-- The loop of `UpdateExecutor::Next` over `set_clauses_`. -/
def updateRecord (cols : List ColMeta) (clauses : List (String × Value)) (data : Bytes) :
    Except Rejection Bytes :=
  clauses.foldlM (fun data (colName, rhs) =>
    (setClause cols colName rhs).map fun clause => memcpy data clause.offset clause.raw) data

/-- `IncompatibleTypeError` or `StringOverflowError` on both sides. -/
def Rejection.SameClass : Rejection → Rejection → Prop
  | .incompatibleType _ _, .incompatibleType _ _ => True
  | .stringOverflow, .stringOverflow => True
  | _, _ => False

/-- Both records have the same bytes in the column, those of a value of its type, or both statements
are rejected alike. -/
def ColMeta.StoredAlike (col : ColMeta) :
    Except Rejection Bytes → Except Rejection Bytes → Prop
  | .ok data, .ok data' => readAt data col.offset col.len = readAt data' col.offset col.len ∧
      ∃ val : Value, val.type = col.type ∧ readAt data col.offset col.len = some (val.raw col.len)
  | .error e, .error e' => e.SameClass e'
  | _, _ => False

/-- The statement stores the bytes in the column or ends with the error. -/
def ColMeta.Puts (col : ColMeta) (stmt : Except Rejection Bytes) : Except Rejection Bytes → Prop
  | .error e => stmt = .error e
  | .ok raw => ∃ data, stmt = .ok data ∧ readAt data col.offset col.len = some raw

/-- The literal is one that the analyzer takes and INSERT stores in the column. -/
def ColMeta.Accepts (col : ColMeta) (lit : SvValue) : Prop :=
  ∃ val raw, convertSvValue lit = some val ∧ col.insertValue val = .ok raw

/-- The value has the type of the column, or it is an INT whose bits are those of the FLOAT that it
is converted to. -/
def ColMeta.TakesAsIs (col : ColMeta) (val : Value) : Prop :=
  val.type = col.type ∨
    ∃ intVal, val = .int intVal ∧ col.type = .float ∧
      (intToFloat intVal).toNat = (intVal % 2 ^ 32).toNat

theorem updateRecord_cons {cols : List ColMeta} {clause : String × Value}
    {clauses : List (String × Value)} {data : Bytes} :
    updateRecord cols (clause :: clauses) data = (setClause cols clause.1 clause.2).bind fun p =>
      updateRecord cols clauses (memcpy data p.offset p.raw) := by
  rw [updateRecord, List.foldlM_cons]
  dsimp only
  cases setClause cols clause.1 clause.2 <;> rfl

section Raw

variable {val : Value} {col : ColMeta} {len : Nat} {raw : Bytes}

theorem Value.length_raw_of_ok (h : val.initRawResult len = .ok raw) :
    raw = val.raw len ∧ raw.length = len := by
  cases val with
  | int intVal =>
    simp only [initRawResult] at h
    split at h
    next hlen =>
      cases h
      exact ⟨rfl, by rw [hlen]; exact length_littleEndian 4 _⟩
    · cases h
  | float bits =>
    simp only [initRawResult] at h
    split at h
    next hlen =>
      cases h
      exact ⟨rfl, by rw [hlen]; exact length_littleEndian 4 _⟩
    · cases h
  | string strVal =>
    simp only [initRawResult] at h
    split at h
    · cases h
    next hlen =>
      cases h
      refine ⟨rfl, ?_⟩
      simp only [Value.raw, List.length_append, List.length_replicate]
      omega

/-- What INSERT stores are the bytes of a value of the type of the column. -/
theorem ColMeta.insertValue_ok (h : col.insertValue val = .ok raw) :
    raw.length = col.len ∧ ∃ v : Value, v.type = col.type ∧ raw = v.raw col.len := by
  unfold insertValue at h
  split at h
  · split at h
    next hfloat _ =>
      obtain ⟨heq, hlen⟩ := Value.length_raw_of_ok h
      exact ⟨hlen, .float _, hfloat.symm, heq⟩
    · cases h
  next hsame =>
    obtain ⟨heq, hlen⟩ := Value.length_raw_of_ok h
    exact ⟨hlen, val, (not_not.mp hsame).symm, heq⟩

end Raw

section Cols

variable {tabName : String} {currOffset : Nat} {colDefs : List ColDef} {cols : List ColMeta}

/-- Each column ends before the next one starts, and all end where the record does. -/
theorem tableCols_inside {col : ColMeta} (h : col ∈ tableCols tabName currOffset colDefs) :
    currOffset ≤ col.offset ∧ col.offset + col.len ≤ currOffset + (colDefs.map ColDef.len).sum := by
  induction colDefs generalizing currOffset with
  | nil => cases h
  | cons colDef colDefs ih =>
    rw [List.map_cons, List.sum_cons]
    rcases List.mem_cons.mp h with rfl | h
    · exact ⟨le_rfl, by dsimp only; omega⟩
    · have := ih h
      omega

theorem tableCols_pairwise :
    (tableCols tabName currOffset colDefs).Pairwise fun col col' =>
      col.offset + col.len ≤ col'.offset := by
  induction colDefs generalizing currOffset with
  | nil => exact List.Pairwise.nil
  | cons colDef colDefs ih =>
    exact List.pairwise_cons.mpr ⟨fun col hcol => (tableCols_inside hcol).1, ih⟩

end Cols

section Insert

variable {cols before after : List ColMeta} {values front back : List Value} {col : ColMeta}
  {val : Value} {data data' : Bytes}

theorem insertRecord_cons :
    insertRecord (col :: cols) (val :: values) data =
      (col.insertValue val).bind fun raw =>
        insertRecord cols values (memcpy data col.offset raw) := by
  rw [insertRecord, List.zip_cons_cons, List.foldlM_cons]
  dsimp only
  cases col.insertValue val <;> rfl

theorem insertRecord_append (hlen : before.length = front.length) :
    insertRecord (before ++ after) (front ++ back) data =
      (insertRecord before front data).bind (insertRecord after back) := by
  rw [insertRecord, List.zip_append hlen, List.foldlM_append]
  rfl

/-- Columns that all take their values fill the record and leave what is in front of them. -/
theorem insertRecord_accepted {off len : Nat}
    (h : ∀ x ∈ cols.zip values, ∃ raw, x.1.insertValue x.2 = .ok raw)
    (hinside : ∀ c ∈ cols, c.offset + c.len ≤ data.length)
    (hbehind : ∀ c ∈ cols, off + len ≤ c.offset) :
    ∃ data', insertRecord cols values data = .ok data' ∧ data'.length = data.length ∧
      readAt data' off len = readAt data off len := by
  induction cols generalizing values data with
  | nil => exact ⟨data, rfl, rfl, rfl⟩
  | cons c cols ih =>
    cases values with
    | nil => exact ⟨data, rfl, rfl, rfl⟩
    | cons v values =>
      obtain ⟨raw, hraw⟩ := h (c, v) List.mem_cons_self
      obtain ⟨hlen, -⟩ := ColMeta.insertValue_ok hraw
      have hfit : c.offset + raw.length ≤ data.length := by
        rw [hlen]
        exact hinside c List.mem_cons_self
      have hsize := length_memcpy hfit
      obtain ⟨data', hrun, hsize', hread⟩ := @ih values (memcpy data c.offset raw)
        (fun x hx => h x (List.mem_cons_of_mem _ hx))
        (fun c' hc' => by rw [hsize]; exact hinside c' (List.mem_cons_of_mem _ hc'))
        (fun c' hc' => hbehind c' (List.mem_cons_of_mem _ hc'))
      refine ⟨data', ?_, hsize'.trans hsize, ?_⟩
      · rw [insertRecord_cons, hraw]
        exact hrun
      · rw [hread, readAt_memcpy_behind hfit (hbehind c List.mem_cons_self)]

/-- INSERT as far as one column is concerned. -/
theorem insertRecord_column (hlen : before.length = front.length)
    (hfront : ∀ x ∈ before.zip front, ∃ raw, x.1.insertValue x.2 = .ok raw)
    (hback : ∀ x ∈ after.zip back, ∃ raw, x.1.insertValue x.2 = .ok raw)
    (hinside : ∀ c ∈ before ++ col :: after, c.offset + c.len ≤ data.length)
    (hbehind : ∀ c ∈ after, col.offset + col.len ≤ c.offset) :
    col.Puts (insertRecord (before ++ col :: after) (front ++ val :: back) data)
      (col.insertValue val) := by
  obtain ⟨data₁, hrun₁, hsize₁, -⟩ := @insertRecord_accepted before front data 0 0 hfront
    (fun c hc => hinside c (by simp [hc])) (fun _ _ => Nat.zero_le _)
  rw [insertRecord_append hlen, hrun₁, Except.bind, insertRecord_cons]
  cases hval : col.insertValue val with
  | error e => rfl
  | ok raw =>
    obtain ⟨hraw, -⟩ := ColMeta.insertValue_ok hval
    have hfit : col.offset + raw.length ≤ data₁.length := by
      rw [hraw, hsize₁]
      exact hinside col (by simp)
    have hsize := length_memcpy hfit
    obtain ⟨data', hrun, -, hread⟩ := @insertRecord_accepted after back
      (memcpy data₁ col.offset raw) col.offset col.len hback
      (fun c hc => by rw [hsize, hsize₁]; exact hinside c (by simp [hc])) hbehind
    refine ⟨data', hrun, ?_⟩
    rw [hread, ← hraw]
    exact readAt_memcpy hfit

/-- UPDATE as far as the column of its one clause is concerned. -/
theorem updateRecord_column (hfind : cols.find? (fun c => c.name == col.name) = some col)
    (hinside : col.offset + col.len ≤ data.length) :
    col.Puts (updateRecord cols [(col.name, val)] data) (val.initRawResult col.len) := by
  have hclause : setClause cols col.name val =
      (val.initRawResult col.len).map fun raw => ⟨col.offset, raw⟩ := by
    rw [setClause, hfind]
  rw [updateRecord_cons, hclause]
  cases hval : val.initRawResult col.len with
  | error e => rfl
  | ok raw =>
    obtain ⟨-, hraw⟩ := Value.length_raw_of_ok hval
    refine ⟨_, rfl, ?_⟩
    have hread := @readAt_memcpy data raw col.offset (by rw [hraw]; exact hinside)
    rwa [hraw] at hread

end Insert

section OneValue

variable {col : ColMeta} {val : Value} {ins upd : Except Rejection Bytes} {e : Rejection}

/-- `init_raw` asserts for a number and throws for a string. -/
theorem Value.initRawResult_error {len : Nat} (h : val.initRawResult len = .error e) :
    (e = .assertion ∧ (val.type = .int ∨ val.type = .float) ∧ len ≠ 4) ∨
      (e = .stringOverflow ∧ val.type = .string) := by
  cases val with
  | int intVal =>
    simp only [initRawResult] at h
    split at h
    · cases h
    next hlen => exact .inl ⟨(Except.error.inj h).symm, .inl rfl, hlen⟩
  | float bits =>
    simp only [initRawResult] at h
    split at h
    · cases h
    next hlen => exact .inl ⟨(Except.error.inj h).symm, .inr rfl, hlen⟩
  | string strVal =>
    simp only [initRawResult] at h
    split at h
    · exact .inr ⟨(Except.error.inj h).symm, rfl⟩
    · cases h

namespace ColMeta

theorem insertValue_same (h : col.type = val.type) :
    col.insertValue val = val.initRawResult col.len := by
  unfold insertValue
  rw [if_neg (not_not.mpr h)]

theorem insertValue_converted {intVal : Int} (h : col.type = .float) :
    col.insertValue (.int intVal) = (Value.float (intToFloat intVal)).initRawResult col.len := by
  unfold insertValue
  rw [if_pos (by simp [h, Value.type]), h]

theorem insertValue_rejected (h : col.type ≠ val.type)
    (hconv : ¬ ∃ intVal, val = .int intVal ∧ col.type = .float) :
    col.insertValue val = .error (.incompatibleType col.type val.type) := by
  unfold insertValue
  rw [if_pos h]
  split
  next hfloat => exact absurd ⟨_, rfl, hfloat⟩ hconv
  · rfl

/-- A value of the type of the column is stored, or is too long, on both sides. -/
theorem storedAlike_same
    (hins : col.Puts ins (col.insertValue val)) (hupd : col.Puts upd (val.initRawResult col.len))
    (hnumber : col.type = .int ∨ col.type = .float → col.len = 4) (h : col.type = val.type) :
    col.StoredAlike ins upd := by
  rw [insertValue_same h] at hins
  cases hval : val.initRawResult col.len with
  | error e =>
    rw [hval] at hins hupd
    rcases Value.initRawResult_error hval with ⟨-, htype, hlen⟩ | ⟨rfl, -⟩
    · rw [← h] at htype
      exact absurd (hnumber htype) hlen
    · rw [hins, hupd]
      trivial
  | ok raw =>
    rw [hval] at hins hupd
    obtain ⟨data, hdata, hread⟩ := hins
    obtain ⟨data', hdata', hread'⟩ := hupd
    obtain ⟨heq, -⟩ := Value.length_raw_of_ok hval
    rw [hdata, hdata']
    exact ⟨hread.trans hread'.symm, val, h.symm, by rw [hread, heq]⟩

/-- INSERT stores the number, UPDATE the bits of the INT. -/
theorem storedAlike_converted {intVal : Int}
    (hins : col.Puts ins (col.insertValue (.int intVal)))
    (hupd : col.Puts upd ((Value.int intVal).initRawResult col.len))
    (hlen : col.len = 4) (h : col.type = .float) :
    col.StoredAlike ins upd ↔ (intToFloat intVal).toNat = (intVal % 2 ^ 32).toNat := by
  rw [insertValue_converted h, Value.initRawResult, if_pos hlen] at hins
  rw [Value.initRawResult, if_pos hlen] at hupd
  obtain ⟨data, hdata, hread⟩ := hins
  obtain ⟨data', hdata', hread'⟩ := hupd
  have hbits : (intToFloat intVal).toNat < 256 ^ 4 := (intToFloat intVal).toNat_lt
  have hint : (intVal % 2 ^ 32).toNat < 256 ^ 4 := by omega
  rw [hdata, hdata']
  constructor
  · rintro ⟨heq, -⟩
    rw [hread, hread'] at heq
    have hnat := congrArg readNat (Option.some.inj heq)
    rwa [Value.raw, Value.raw, readNat_littleEndian, readNat_littleEndian, Nat.mod_eq_of_lt hbits,
      Nat.mod_eq_of_lt hint] at hnat
  · intro hnat
    refine ⟨?_, .float (intToFloat intVal), h.symm, hread⟩
    rw [hread, hread', Value.raw, Value.raw, hnat]

/-- INSERT rejects the value with an error that `init_raw` never makes. -/
theorem not_storedAlike
    (hins : col.Puts ins (col.insertValue val)) (hupd : col.Puts upd (val.initRawResult col.len))
    (h : col.type ≠ val.type) (hconv : ¬ ∃ intVal, val = .int intVal ∧ col.type = .float) :
    ¬ col.StoredAlike ins upd := by
  rw [insertValue_rejected h hconv] at hins
  cases hval : val.initRawResult col.len with
  | error e =>
    rw [hval] at hupd
    rw [hins, hupd]
    rcases Value.initRawResult_error hval with ⟨rfl, -⟩ | ⟨rfl, -⟩
    · exact id
    · exact id
  | ok raw =>
    rw [hval] at hupd
    obtain ⟨data', hdata', -⟩ := hupd
    rw [hins, hdata']
    exact id

end ColMeta

end OneValue

/-- The grammar gives the numbers four bytes. -/
theorem tableCols_number {tabName : String} {currOffset : Nat} {defs : List (String × TypeLen)}
    {col : ColMeta} (h : col ∈ tableCols tabName currOffset (defs.map fun d => d.2.colDef d.1))
    (hnumber : col.type = .int ∨ col.type = .float) : col.len = 4 := by
  induction defs generalizing currOffset with
  | nil => cases h
  | cons d defs ih =>
    obtain ⟨name, typeLen⟩ := d
    rcases List.mem_cons.mp h with rfl | h
    · cases typeLen with
      | int => rfl
      | char len => simp [TypeLen.colDef] at hnumber
      | float => rfl
      | datetime => simp [TypeLen.colDef] at hnumber
    · exact ih h

/-- Both statements for a value, once they are analyzed. -/
theorem ColMeta.storedAlike_iff {tabName : String} {defs : List (String × TypeLen)}
    {before after : List ColMeta} {col : ColMeta} {front back : List Value} {val : Value}
    {data row : Bytes}
    (hcols : tableCols tabName 0 (defs.map fun d => d.2.colDef d.1) = before ++ col :: after)
    (hfind : (before ++ col :: after).find? (fun c => c.name == col.name) = some col)
    (hlen : before.length = front.length)
    (hfront : ∀ x ∈ before.zip front, ∃ raw, x.1.insertValue x.2 = .ok raw)
    (hback : ∀ x ∈ after.zip back, ∃ raw, x.1.insertValue x.2 = .ok raw)
    (hdata : data.length = (defs.map fun d => (d.2.colDef d.1).len).sum)
    (hrow : row.length = data.length) :
    col.StoredAlike (insertRecord (before ++ col :: after) (front ++ val :: back) data)
      (updateRecord (before ++ col :: after) [(col.name, val)] row) ↔ col.TakesAsIs val := by
  have hinside : ∀ c ∈ before ++ col :: after, c.offset + c.len ≤ data.length := by
    intro c hc
    rw [← hcols] at hc
    have hend := (tableCols_inside hc).2
    rw [Nat.zero_add, List.map_map] at hend
    rwa [hdata]
  have hbehind : ∀ c ∈ after, col.offset + col.len ≤ c.offset := by
    have hpairs := @tableCols_pairwise tabName 0 (defs.map fun d => d.2.colDef d.1)
    rw [hcols, List.pairwise_append, List.pairwise_cons] at hpairs
    exact hpairs.2.1.1
  have hmem : col ∈ before ++ col :: after := by simp
  have hnumber : col.type = .int ∨ col.type = .float → col.len = 4 := by
    rw [← hcols] at hmem
    exact tableCols_number hmem
  have hins : col.Puts (insertRecord (before ++ col :: after) (front ++ val :: back) data)
      (col.insertValue val) := insertRecord_column hlen hfront hback hinside hbehind
  have hupd : col.Puts (updateRecord (before ++ col :: after) [(col.name, val)] row)
      (val.initRawResult col.len) :=
    updateRecord_column hfind (by rw [hrow]; exact hinside col hmem)
  by_cases htype : col.type = val.type
  · exact iff_of_true (ColMeta.storedAlike_same hins hupd hnumber htype) (.inl htype.symm)
  · by_cases hconv : ∃ intVal, val = .int intVal ∧ col.type = .float
    · obtain ⟨intVal, rfl, hfloat⟩ := hconv
      rw [ColMeta.storedAlike_converted hins hupd (hnumber (.inr hfloat)) hfloat]
      constructor
      · intro hbits
        exact .inr ⟨intVal, rfl, hfloat, hbits⟩
      · rintro (heq | ⟨i, heq, -, hbits⟩)
        · exact absurd heq.symm htype
        · cases heq
          exact hbits
    · refine iff_of_false (ColMeta.not_storedAlike hins hupd htype hconv) ?_
      rintro (heq | ⟨i, heq, hfloat, -⟩)
      · exact htype heq.symm
      · exact hconv ⟨i, heq, hfloat⟩


theorem accepts_values {cols : List ColMeta} {lits : List SvValue}
    (h : List.Forall₂ ColMeta.Accepts cols lits) :
    ∃ values, analyzeValues lits = some values ∧ cols.length = values.length ∧
      ∀ x ∈ cols.zip values, ∃ raw, x.1.insertValue x.2 = .ok raw := by
  induction h with
  | nil => exact ⟨[], rfl, rfl, by simp⟩
  | cons hone _ ih =>
    obtain ⟨val, raw, hval, hraw⟩ := hone
    obtain ⟨values, hvalues, hlen, hall⟩ := ih
    refine ⟨val :: values, ?_, by simp [hlen], ?_⟩
    · rw [analyzeValues] at hvalues ⊢
      simp [hval, hvalues]
    · rw [List.zip_cons_cons]
      exact List.forall_mem_cons.mpr ⟨⟨raw, hraw⟩, hall⟩

/-- An `UPDATE t SET c = v` of a row and an INSERT of `v` into that column, the values for the other
columns being accepted, store the same or are rejected alike when `v` can be taken as it is. -/
theorem update_stores_as_insert_iff {tabName : String} {defs : List (String × TypeLen)}
    {before after : List ColMeta} {col : ColMeta} {front back : List SvValue} {lit : SvValue}
    {values : List Value} {clauses : List (String × Value)} {data row : Bytes}
    (hcols : tableCols tabName 0 (defs.map fun d => d.2.colDef d.1) = before ++ col :: after)
    (hfind : (before ++ col :: after).find? (fun c => c.name == col.name) = some col)
    (hfront : List.Forall₂ ColMeta.Accepts before front)
    (hback : List.Forall₂ ColMeta.Accepts after back)
    (hinsert : analyzeValues (front ++ lit :: back) = some values)
    (hupdate : analyzeSetClauses [(col.name, lit)] = some clauses)
    (hdata : data.length = (defs.map fun d => (d.2.colDef d.1).len).sum)
    (hrow : row.length = data.length) :
    col.StoredAlike (insertRecord (before ++ col :: after) values data)
      (updateRecord (before ++ col :: after) clauses row) ↔
      ∃ val, convertSvValue lit = some val ∧ col.TakesAsIs val := by
  obtain ⟨vfront, hvfront, hlen, hacc⟩ := accepts_values hfront
  obtain ⟨vback, hvback, -, hacc'⟩ := accepts_values hback
  cases hlit : convertSvValue lit with
  | none => simp [analyzeSetClauses, hlit] at hupdate
  | some val =>
    have hclauses : clauses = [(col.name, val)] := by
      simpa [analyzeSetClauses, hlit] using hupdate.symm
    have hvalues : values = vfront ++ val :: vback := by
      rw [analyzeValues] at hvfront hvback hinsert
      simpa [List.mapM_append, hvfront, hvback, hlit] using hinsert.symm
    rw [hclauses, hvalues, ColMeta.storedAlike_iff hcols hfind hlen hacc hacc' hdata hrow]
    simp

/-- `CREATE TABLE t (a INT, b FLOAT)` -/
def intFloatCols : List ColMeta :=
  tableCols "t" 0 ([("a", .int), ("b", .float)].map fun d : String × TypeLen => d.2.colDef d.1)

theorem update_stores_as_insert_iff_int :
    ColMeta.StoredAlike ⟨"t", "a", .int, 4, 0⟩
      (insertRecord intFloatCols [.int 7, .int 1] (List.replicate 8 0))
      (updateRecord intFloatCols [("a", .int 7)] (List.replicate 8 9)) ↔
      ∃ val, convertSvValue (.intLit 7) = some val ∧
        ColMeta.TakesAsIs ⟨"t", "a", .int, 4, 0⟩ val := by
  have hback : ColMeta.Accepts ⟨"t", "b", .float, 4, 4⟩ (.intLit 1) :=
    ⟨.int 1, littleEndian 4 (intToFloat 1).toNat, rfl, rfl⟩
  exact @update_stores_as_insert_iff "t" [("a", .int), ("b", .float)] []
    [⟨"t", "b", .float, 4, 4⟩] ⟨"t", "a", .int, 4, 0⟩ [] [.intLit 1] (.intLit 7) _ _ _ _ rfl
    (by decide) List.Forall₂.nil (.cons hback .nil) rfl rfl rfl rfl

/-- `UPDATE t SET b = 1` stores the bits of the INT 1 in the FLOAT column. -/
theorem update_stores_int_bits :
    insertRecord intFloatCols [.int 7, .int 1] (List.replicate 8 0) =
        .ok [7, 0, 0, 0, 0, 0, 128, 63] ∧
      updateRecord intFloatCols [("b", .int 1)] (List.replicate 8 0) =
        .ok [0, 0, 0, 0, 1, 0, 0, 0] ∧
      ¬ ColMeta.StoredAlike ⟨"t", "b", .float, 4, 4⟩
        (insertRecord intFloatCols [.int 7, .int 1] (List.replicate 8 0))
        (updateRecord intFloatCols [("b", .int 1)] (List.replicate 8 0)) := by
  have hins : insertRecord intFloatCols [.int 7, .int 1] (List.replicate 8 0) =
      .ok [7, 0, 0, 0, 0, 0, 128, 63] := by rfl
  have hupd : updateRecord intFloatCols [("b", .int 1)] (List.replicate 8 0) =
      .ok [0, 0, 0, 0, 1, 0, 0, 0] := by rfl
  refine ⟨hins, hupd, ?_⟩
  rw [hins, hupd]
  rintro ⟨heq, -⟩
  exact absurd heq (by decide)

end Grmdb
