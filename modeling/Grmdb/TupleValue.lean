import Grmdb.ByteLayout
import Grmdb.QueryAnalyze

namespace Grmdb

open ByteLayout

/-- The operators over an order. -/
def CompOp.holds {α : Type} [LT α] [DecidableEq α] [DecidableLT α] (op : CompOp) (left right : α) :
    Bool :=
  match op with
  | .eq => left = right
  | .ne => left ≠ right
  | .lt => left < right
  | .gt => right < left
  | .le => ¬right < left
  | .ge => ¬left < right

/-- The place of a `float` among the numbers, from its bits; a NaN has none. -/
def floatRank (bits : UInt32) : Option Int :=
  let magnitude : Nat := bits.toNat % 2 ^ 31
  if 255 * 2 ^ 23 < magnitude then none
  else some (if bits.toNat < 2 ^ 31 then magnitude else -magnitude)

/-- A comparison with a NaN is false, except for `!=`. -/
def floatComp (left right : UInt32) (op : CompOp) : Bool :=
  match floatRank left, floatRank right with
  | some l, some r => op.holds l r
  | _, _ => op = .ne

/-- `static_cast<float>` of an `int`, to the nearest, ties to even. The quotient carries into the
exponent when it rounds up to the next power of two. -/
def intToFloat (i : Int) : UInt32 :=
  let n := i.natAbs
  let k := Nat.log2 n
  let magnitude :=
    if n = 0 then 0
    else if k ≤ 23 then (k + 126) * 2 ^ 23 + n * 2 ^ (23 - k)
    else
      let unit := 2 ^ (k - 23)
      let rest := n % unit
      let up := unit < 2 * rest ∨ (unit = 2 * rest ∧ n / unit % 2 = 1)
      (k + 126) * 2 ^ 23 + n / unit + if up then 1 else 0
  UInt32.ofNat (if i < 0 then 2 ^ 31 + magnitude else magnitude)

/-- The characters of a string, as `memcmp` compares them. -/
def charCodes (s : Bytes) : List Int := s.map fun b => (b.toNat : Int)

/-- `Value::ValueComp`; `none` is the `IncompatibleTypeError`. -/
def Value.comp (left right : Value) (op : CompOp) : Option Bool :=
  match left, right with
  | .int l, .int r => some (op.holds l r)
  | .float l, .float r => some (floatComp l r op)
  | .string l, .string r => some (op.holds (charCodes l) (charCodes r))
  | .float l, .int r => some (floatComp l (intToFloat r) op)
  | .int l, .float r => some (floatComp (intToFloat l) r op)
  | _, _ => none

/-- What `init_raw` puts into a record of `len` bytes. -/
def Value.raw (len : Nat) : Value → Bytes
  | .int i => littleEndian 4 (i % 2 ^ 32).toNat
  | .float bits => littleEndian 4 bits.toNat
  | .string s => s ++ List.replicate (len - s.length) 0

/-- The value of a column in a record. The record ends where its bytes end, and a DATETIME has no
value that can be compared. -/
def ColMeta.read (col : ColMeta) (tuple : Bytes) : Option Value :=
  (readAt tuple col.offset col.len).bind fun raw =>
    match col.type with
    | .int => some (.int (readInt raw))
    | .float => some (.float (UInt32.ofNat (readNat (raw.take 4))))
    | .string => some (.string (raw.takeWhile (· ≠ 0)))
    | .datetime => none

/-- `get_col` of the executors; `none` is the `ColumnNotFoundError`. -/
def findCol (cols : List ColMeta) (target : TabCol) : Option ColMeta :=
  cols.find? fun col => col.tabName == target.tabName && col.name == target.colName

def getValue (cols : List ColMeta) (target : TabCol) (tuple : Bytes) : Option Value :=
  (findCol cols target).bind fun col => col.read tuple

def evalCond (cols : List ColMeta) (cond : Condition) (tuple : Bytes) : Option Bool :=
  (getValue cols cond.lhsCol tuple).bind fun left =>
    (if cond.isRhsVal then cond.rhsVal else getValue cols cond.rhsCol tuple).bind fun right =>
      left.comp right cond.op

/-- `eval_condition` and `evaluate_join`: the first condition that fails decides. -/
def evalConds (cols : List ColMeta) : List Condition → Bytes → Option Bool
  | [], _ => some true
  | cond :: conds, tuple =>
    (evalCond cols cond tuple).bind fun ok =>
      if ok then evalConds cols conds tuple else some false

/-- Where a value stands among those of its type, as `ValueComp` orders them. -/
def Value.rank : Value → Option (List Int)
  | .int i => some [i]
  | .float bits => (floatRank bits).map fun r => [r]
  | .string s => some (charCodes s)

example : (Value.float (intToFloat 16777217)).comp (.float (intToFloat 16777216)) .eq =
    some true := by decide +kernel

example : (Value.int (-3)).comp (.float (intToFloat 2)) .lt = some true := by decide +kernel

end Grmdb
