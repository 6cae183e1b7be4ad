import Grmdb.SubqueryScan

namespace Grmdb

open ByteLayout

section Keys

variable {v w : Value} {a b : List Int} {col col' : ColMeta} {row : Bytes}

theorem singleton_lt (i j : Int) : [i] < [j] ↔ i < j := by
  simp [List.cons_lt_cons_iff]

theorem holds_singleton (op : CompOp) (i j : Int) : op.holds [i] [j] = op.holds i j := by
  cases op with
  | eq => simp [CompOp.holds]
  | ne => simp [CompOp.holds]
  | lt => simp only [CompOp.holds, singleton_lt]
  | gt => simp only [CompOp.holds, singleton_lt]
  | le => simp only [CompOp.holds, singleton_lt]
  | ge => simp only [CompOp.holds, singleton_lt]

/-- `ValueComp` compares the ranks of two values of one type. -/
theorem Value.comp_rank (htype : v.type = w.type) (hv : v.rank = some a) (hw : w.rank = some b)
    (op : CompOp) : v.comp w op = some (op.holds a b) := by
  cases v with
  | int i =>
    cases w with
    | int j =>
      cases hv
      cases hw
      rw [holds_singleton]
      rfl
    | float y => cases htype
    | string s => cases htype
  | float x =>
    cases w with
    | int j => cases htype
    | float y =>
      obtain ⟨l, hl, rfl⟩ := Option.map_eq_some_iff.mp hv
      obtain ⟨r, hr, rfl⟩ := Option.map_eq_some_iff.mp hw
      rw [holds_singleton]
      simp [Value.comp, floatComp, hl, hr]
    | string s => cases htype
  | string s =>
    cases w with
    | int j => cases htype
    | float y => cases htype
    | string t =>
      cases hv
      cases hw
      rfl

/-- Where a record stands in the order of a column; a NaN stands nowhere. -/
def ColMeta.key? (col : ColMeta) (row : Bytes) : Option (List Int) :=
  (col.read row).bind Value.rank

def ColMeta.key (col : ColMeta) (row : Bytes) : List Int := (col.key? row).getD []

/-- Columns with the same type at the same place in their records. -/
structure ColMeta.SamePlace (col col' : ColMeta) : Prop where
  type : col'.type = col.type
  offset : col'.offset = col.offset
  len : col'.len = col.len

theorem ColMeta.SamePlace.read (h : col.SamePlace col') (row : Bytes) : col'.read row = col.read row := by
  unfold ColMeta.read
  rw [h.type, h.offset, h.len]

theorem ColMeta.read_type (h : col.read row = some v) : v.type = col.type := by
  obtain ⟨raw, -, h⟩ := Option.bind_eq_some_iff.mp h
  split at h
  next htype => cases h; exact htype.symm
  next htype => cases h; exact htype.symm
  next htype => cases h; exact htype.symm
  next => cases h

theorem ColMeta.read_of_key (h : (col.key? row).isSome) :
    ∃ v, col.read row = some v ∧ v.rank = some (col.key row) := by
  obtain ⟨k, hk⟩ := Option.isSome_iff_exists.mp h
  obtain ⟨v, hv, hrank⟩ := Option.bind_eq_some_iff.mp hk
  refine ⟨v, hv, ?_⟩
  rw [hrank, ColMeta.key, hk]
  rfl

/-- Two records with keys are compared by their keys. -/
theorem comp_keys {row' : Bytes} (h : (col.key? row).isSome) (h' : (col.key? row').isSome) :
    ∃ v w, col.read row = some v ∧ col.read row' = some w ∧
      ∀ op : CompOp, v.comp w op = some (op.holds (col.key row) (col.key row')) := by
  obtain ⟨v, hv, hrank⟩ := ColMeta.read_of_key h
  obtain ⟨w, hw, hrank'⟩ := ColMeta.read_of_key h'
  have htype := (ColMeta.read_type hv).trans (ColMeta.read_type hw).symm
  exact ⟨v, w, hv, hw, Value.comp_rank htype hrank hrank'⟩

end Keys

section Places

theorem ColMeta.read_append_left {col : ColMeta} {l r : Bytes} {v : Value}
    (h : col.read l = some v) : col.read (l ++ r) = some v := by
  obtain ⟨raw, hraw, h⟩ := Option.bind_eq_some_iff.mp h
  rw [ColMeta.read, readAt_append_left hraw]
  exact h

theorem ColMeta.read_append_right (col : ColMeta) (l r : Bytes) :
    ({ col with offset := col.offset + l.length } : ColMeta).read (l ++ r) = col.read r := by
  unfold ColMeta.read
  rw [readAt_append_right]

theorem findCol_append (cols cols' : List ColMeta) (target : TabCol) :
    findCol (cols ++ cols') target = (findCol cols target).or (findCol cols' target) := by
  exact List.find?_append

theorem findCol_shift (cols : List ColMeta) (n : Nat) (target : TabCol) :
    findCol (cols.map fun col => { col with offset := col.offset + n }) target =
      (findCol cols target).map fun col => { col with offset := col.offset + n } := by
  exact List.find?_map

end Places

end Grmdb
