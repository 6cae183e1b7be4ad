import Grmdb.ColumnKeys

namespace Grmdb

/-- What a comparison says about an INT and about a CHAR value: numbers by size, strings by their
characters. Values of different types satisfy nothing. -/
def Value.meets (left right : Value) (op : CompOp) : Bool :=
  match left, right with
  | .int l, .int r => op.holds l r
  | .string l, .string r => op.holds (charCodes l) (charCodes r)
  | _, _ => false

/-- An INT or CHAR column inside records of the length `len`. -/
structure ColMeta.Plain (col : ColMeta) (len : Nat) : Prop where
  type : col.type = .int ∧ col.len = 4 ∨ col.type = .string
  inside : col.offset + col.len ≤ len

section

variable {col : ColMeta} {row : Bytes} {v w : Value}

theorem Value.comp_meets (htype : v.type = w.type) (hv : v.type = .int ∨ v.type = .string)
    (op : CompOp) : v.comp w op = some (v.meets w op) := by
  cases v with
  | int i =>
    cases w with
    | int j => rfl
    | float y => cases htype
    | string t => cases htype
  | float x => simp [Value.type] at hv
  | string s =>
    cases w with
    | int j => cases htype
    | float y => cases htype
    | string t => rfl

theorem ColMeta.Plain.int_or_string {len : Nat} (h : col.Plain len) :
    col.type = .int ∨ col.type = .string :=
  h.type.imp_left And.left

theorem ColMeta.Plain.read (h : col.Plain row.length) :
    ∃ v, col.read row = some v ∧ v.type = col.type := by
  have hraw : ∃ raw, ByteLayout.readAt row col.offset col.len = some raw := by
    unfold ByteLayout.readAt
    rw [if_pos h.inside]
    exact ⟨_, rfl⟩
  obtain ⟨raw, hraw⟩ := hraw
  have hread : ∃ v, col.read row = some v := by
    rw [ColMeta.read, hraw]
    rcases h.type with ⟨htype, -⟩ | htype
    · rw [htype]
      exact ⟨_, rfl⟩
    · rw [htype]
      exact ⟨_, rfl⟩
  obtain ⟨v, hv⟩ := hread
  exact ⟨v, hv, ColMeta.read_type hv⟩

/-- A condition decided by what its two sides are. -/
theorem evalCond_meets {cols : List ColMeta} {cond : Condition}
    (hleft : getValue cols cond.lhsCol row = some v)
    (hright : (if cond.isRhsVal then cond.rhsVal else getValue cols cond.rhsCol row) = some w)
    (htype : v.type = w.type) (hv : v.type = .int ∨ v.type = .string) :
    evalCond cols cond row = some (v.meets w cond.op) := by
  rw [evalCond, hleft, Option.bind_some, hright, Option.bind_some, Value.comp_meets htype hv]

/-- `eval_condition` asks for all of its conditions. -/
theorem evalConds_all {cols : List ColMeta} {conds : List Condition} {p : Condition → Bool}
    (h : ∀ cond ∈ conds, evalCond cols cond row = some (p cond)) :
    evalConds cols conds row = some (conds.all p) := by
  induction conds with
  | nil => rfl
  | cons cond conds ih =>
    rw [evalConds, h cond List.mem_cons_self, Option.bind_some, List.all_cons,
      ih fun cond' hcond => h cond' (List.mem_cons_of_mem _ hcond)]
    cases p cond with
    | true => rfl
    | false => rfl

end

end Grmdb
