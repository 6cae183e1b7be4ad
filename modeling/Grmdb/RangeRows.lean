import Grmdb.GapBounds

namespace Grmdb

section Least

theorem not_lt_zeros {l : List Int} (h : ∀ x ∈ l, 0 ≤ x) : ¬l < List.replicate l.length 0 := by
  induction l with
  | nil => exact lt_irrefl _
  | cons x l ih =>
    obtain ⟨hx, hl⟩ := List.forall_mem_cons.mp h
    rw [List.length_cons, List.replicate_succ, List.cons_lt_cons_iff]
    rintro (hlt | ⟨-, hlt⟩)
    · omega
    · exact ih hl hlt

theorem IxCol.not_decode_lt_min {col : IxCol} {a : Bytes} (hlen : col.len ≤ a.length) :
    ¬col.decode a < col.codes col.generateMin := by
  cases col with
  | int =>
    have hlow := (readInt_bounds a).1
    rw [IxCol.generateMin, IxCol.codes_int (by decide), IxCol.decode, List.cons_lt_cons_iff]
    rintro (hlt | ⟨-, hlt⟩)
    · omega
    · exact lt_irrefl _ hlt
  | char len =>
    have hpos : ∀ x ∈ (a.take len).map fun b => (b.toNat : Int), 0 ≤ x := by
      intro x hx
      obtain ⟨b, -, rfl⟩ := List.mem_map.mp hx
      exact Int.natCast_nonneg _
    have hleast := not_lt_zeros hpos
    rw [List.length_map, List.length_take, Nat.min_eq_left (show len ≤ a.length from hlen)] at hleast
    rw [IxCol.generateMin, IxCol.codes_char (Nat.zero_le len), IxCol.decode]
    simpa only [charCodes, List.nil_append, List.length_nil, Nat.sub_zero, List.map_replicate,
      UInt8.toNat_zero, Nat.cast_zero] using hleast

theorem not_decodeKey_lt_min {cols : List IxCol} {a : Bytes} (ha : a.length = colTotLen cols) :
    ¬decodeKey cols a < decodeKey cols (keyBytes cols (cols.map IxCol.generateMin)) := by
  induction cols generalizing a with
  | nil => exact lt_irrefl _
  | cons col cols ih =>
    have htot : colTotLen (col :: cols) = col.len + colTotLen cols := by simp [colTotLen]
    have hmin := IxCol.holds_generateMin col
    have hlen : a.length = (keyBytes (col :: cols) ((col :: cols).map IxCol.generateMin)).length := by
      rw [ha, length_keyBytes (holds_map IxCol.holds_generateMin _)]
    rw [decodeKey, decodeKey, append_lt_append_iff (col.decode_length_eq hlen)]
    simp only [List.map_cons, keyBytes, hmin.drop_raw, IxCol.decode_append hmin.length_raw]
    rintro (hlt | ⟨-, hlt⟩)
    · exact IxCol.not_decode_lt_min (by omega) hlt
    · exact ih (by rw [List.length_drop]; omega) hlt

/-- No key of the index is less than the one of the least values. -/
theorem minKey_le {cols : List IxCol} (k : IxKey cols) :
    IxKey.ofValues cols (cols.map IxCol.generateMin) ≤ k := by
  rw [← not_lt]
  intro hlt
  have hcodes : decodeKey cols k.1 < decodeKey cols
      (IxKey.ofValues cols (cols.map IxCol.generateMin)).1 := hlt
  rw [ofValues_val (holds_map IxCol.holds_generateMin cols)] at hcodes
  exact not_decodeKey_lt_min k.2 hcodes

end Least

section Conds

variable {cols : List ColMeta} {conds : List Condition} {vals : List Value}

theorem Ranged.nodup {cols : List ColMeta} (h : Ranged cols conds)
    (hnodup : (cols.map ColMeta.name).Nodup) : conds.Nodup := by
  induction h with
  | nil => exact List.nodup_nil
  | @eq col cols cond conds v hname hop hval hv h ih =>
    obtain ⟨hfresh, hnodup⟩ := List.nodup_cons.mp hnodup
    refine List.nodup_cons.mpr ⟨fun hmem => hfresh ?_, ih hnodup⟩
    rw [← hname]
    exact h.names cond hmem
  | @range col cols conds lower upper hlower hupper hconds =>
    have hone : ∀ (bound : Option Condition) (cond : Condition), bound.toList.count cond ≤ 1 := by
      intro bound cond
      refine List.count_le_length.trans ?_
      cases bound with
      | none => exact Nat.zero_le 1
      | some c => exact Nat.le_refl 1
    refine List.nodup_iff_count_le_one.mpr fun cond => ?_
    by_cases hmem : cond ∈ conds
    · obtain ⟨-, ⟨hne, hne'⟩, -⟩ := hconds cond hmem
      have hside : cond.op.isLower = true ∨ cond.op.isUpper = true := by
        cases hop : cond.op with
        | eq => exact absurd hop hne
        | ne => exact absurd hop hne'
        | gt => exact Or.inl rfl
        | ge => exact Or.inl rfl
        | lt => exact Or.inr rfl
        | le => exact Or.inr rfl
      rcases hside with hside | hside
      · rw [← List.count_filter (p := fun c => c.op.isLower) hside, hlower]
        exact hone lower cond
      · rw [← List.count_filter (p := fun c => c.op.isUpper) hside, hupper]
        exact hone upper cond
    · rw [List.count_eq_zero_of_not_mem hmem]
      exact Nat.zero_le 1

/-- The first column of two keys decides, or the keys of the others do. -/
theorem ofValues_le_cons_iff {ixCol : IxCol} {ixCols : List IxCol} {u v : Value} {us : List Value}
    (hu : ixCol.Holds u) (hv : ixCol.Holds v) (hus : List.Forall₂ IxCol.Holds ixCols us)
    (hvals : List.Forall₂ IxCol.Holds ixCols vals) :
    IxKey.ofValues (ixCol :: ixCols) (u :: us) ≤ IxKey.ofValues (ixCol :: ixCols) (v :: vals) ↔
      ixCol.codes u < ixCol.codes v ∨
        ixCol.codes u = ixCol.codes v ∧ IxKey.ofValues ixCols us ≤ IxKey.ofValues ixCols vals := by
  rw [← not_lt, ofValues_lt_cons hv hu hvals hus, not_or, not_and, not_lt, ← not_lt, ← not_lt]
  constructor
  · rintro ⟨hle, hrest⟩
    rcases lt_or_eq_of_le (not_lt.mp hle) with hlt | heq
    · exact Or.inl hlt
    · exact Or.inr ⟨heq, hrest heq.symm⟩
  · rintro (hlt | ⟨heq, hrest⟩)
    · exact ⟨hlt.not_gt, fun heq => absurd hlt (heq ▸ lt_irrefl _)⟩
    · exact ⟨heq ▸ lt_irrefl _, fun _ => hrest⟩

theorem Meets.cons {col : ColMeta} {v : Value} {here rest : List Condition}
    (hnodup : (col.name :: cols.map ColMeta.name).Nodup)
    (hhere : ∀ cond ∈ here, cond.lhsCol.colName = col.name ∧
      ∀ w, cond.rhsVal = some w → v.comp w cond.op = some true)
    (hnames : ∀ cond ∈ rest, cond.lhsCol.colName ∈ cols.map ColMeta.name)
    (hrest : Meets cols rest vals) : Meets (col :: cols) (here ++ rest) (v :: vals) := by
  obtain ⟨hfresh, -⟩ := List.nodup_cons.mp hnodup
  intro cond hcond p hp hname w hw
  rw [List.zip_cons_cons] at hp
  rcases List.mem_append.mp hcond with hcond | hcond
  · obtain ⟨hcol, hholds⟩ := hhere cond hcond
    rcases List.mem_cons.mp hp with rfl | hp
    · exact hholds w hw
    · refine absurd ?_ hfresh
      rw [← hcol, ← hname]
      exact List.mem_map_of_mem (List.of_mem_zip hp).1
  · rcases List.mem_cons.mp hp with rfl | hp
    · exact absurd (hname ▸ hnames cond hcond) hfresh
    · exact hrest cond hcond p hp hname w hw

/-- Values between the corners meet the conditions, unless a strict lower bound is filled up. -/
theorem Ranged.meets (h : Ranged cols conds) (hnodup : (cols.map ColMeta.name).Nodup)
    (hgt : ¬IndexMeta.StrictLow conds)
    (hvals : List.Forall₂ IxCol.Holds (cols.map ColMeta.ixCol) vals)
    (hlow : IxKey.ofValues (cols.map ColMeta.ixCol)
        (corner CompOp.isLower IxCol.generateMin cols conds) ≤
      IxKey.ofValues (cols.map ColMeta.ixCol) vals)
    (hhigh : if IndexMeta.StrictHigh conds then
        IxKey.ofValues (cols.map ColMeta.ixCol) vals <
          IxKey.ofValues (cols.map ColMeta.ixCol)
            (corner CompOp.isUpper IxCol.generateMin cols conds)
      else IxKey.ofValues (cols.map ColMeta.ixCol) vals ≤
        IxKey.ofValues (cols.map ColMeta.ixCol)
          (corner CompOp.isUpper IxCol.generateMax cols conds)) : Meets cols conds vals := by
  induction h generalizing vals with
  | nil => exact fun cond hcond => absurd hcond List.not_mem_nil
  | @eq col cols cond conds w hname hop hval hw h ih =>
    cases hvals with
    | @cons _ v _ vals hv hvals =>
      have hmin := h.holds_corner (Or.inl rfl) IxCol.holds_generateMin
      have hsame : IndexMeta.StrictHigh (cond :: conds) ↔ IndexMeta.StrictHigh conds := by
        simp [IndexMeta.StrictHigh, hop]
      rw [List.map_cons, corner_cons (by rw [hop]; rfl) hval,
        ofValues_le_cons_iff hw hv hmin hvals] at hlow
      have hends : col.ixCol.codes v < col.ixCol.codes w ∨ col.ixCol.codes v = col.ixCol.codes w ∧
          if IndexMeta.StrictHigh conds then
            IxKey.ofValues (cols.map ColMeta.ixCol) vals <
              IxKey.ofValues (cols.map ColMeta.ixCol)
                (corner CompOp.isUpper IxCol.generateMin cols conds)
          else IxKey.ofValues (cols.map ColMeta.ixCol) vals ≤
            IxKey.ofValues (cols.map ColMeta.ixCol)
              (corner CompOp.isUpper IxCol.generateMax cols conds) := by
        by_cases hstrict : IndexMeta.StrictHigh conds
        · rw [if_pos (hsame.mpr hstrict), List.map_cons, corner_cons (by rw [hop]; rfl) hval,
            ofValues_lt_cons hv hw hvals
              (h.holds_corner (Or.inr rfl) IxCol.holds_generateMin)] at hhigh
          rw [if_pos hstrict]
          exact hhigh
        · rw [if_neg (fun h => hstrict (hsame.mp h)), List.map_cons,
            corner_cons (by rw [hop]; rfl) hval, ofValues_le_cons_iff hv hw hvals
              (h.holds_corner (Or.inr rfl) IxCol.holds_generateMax)] at hhigh
          rw [if_neg hstrict]
          exact hhigh
      -- both corners have the literal in this column, so the value is between it and itself
      have hequal : col.ixCol.codes v = col.ixCol.codes w ∧
          IxKey.ofValues (cols.map ColMeta.ixCol)
            (corner CompOp.isLower IxCol.generateMin cols conds) ≤
              IxKey.ofValues (cols.map ColMeta.ixCol) vals := by
        rcases hlow with hlt | ⟨heq, hrest⟩
        · rcases hends with hlt' | ⟨heq, -⟩
          · exact absurd hlt hlt'.not_gt
          · exact absurd hlt (heq ▸ lt_irrefl _)
        · exact ⟨heq.symm, hrest⟩
      have hrest := hends.resolve_left fun hlt => absurd hlt (hequal.1 ▸ lt_irrefl _)
      have htail := ih (List.nodup_cons.mp hnodup).2
        (fun hstrict => hgt (by simpa [IndexMeta.StrictLow, hop] using hstrict)) hvals hequal.2
        hrest.2
      refine @Meets.cons cols vals col v [cond] conds hnodup (fun c hc => ?_) h.names htail
      rw [List.mem_singleton.mp hc]
      refine ⟨hname, fun w' hw' => ?_⟩
      cases hval.symm.trans hw'
      rw [IxCol.comp_codes hv hw, hop]
      exact congrArg some (decide_eq_true hequal.1)
  | @range col cols conds lower upper hlower hupper hconds =>
    cases hvals with
    | @cons _ v _ vals hv hvals =>
      have hbounds : ∀ c ∈ conds, c.lhsCol.colName = col.name ∧
          ∀ w, c.rhsVal = some w → v.comp w c.op = some true := by
        intro c hc
        obtain ⟨hname, ⟨hne, hne'⟩, w, hval, hw⟩ := hconds c hc
        refine ⟨hname, fun w' hw' => ?_⟩
        cases hval.symm.trans hw'
        rw [IxCol.comp_codes hv hw]
        cases hop : c.op with
        | eq => exact absurd hop hne
        | ne => exact absurd hop hne'
        | gt => exact absurd ⟨c, hc, hop⟩ hgt
        | ge =>
          have hbound := bound_of_mem hlower hc (by rw [hop]; rfl)
          rw [List.map_cons, corner_eq_range hlower hconds, hbound, Option.bind_some, hval,
            Option.getD_some, ofValues_le_cons_iff hw hv
              (holds_fill IxCol.holds_generateMin cols) hvals] at hlow
          refine congrArg some (decide_eq_true ?_)
          rcases hlow with hlt | ⟨heq, -⟩
          · exact hlt.not_gt
          · exact heq ▸ lt_irrefl _
        | lt =>
          have hbound := bound_of_mem hupper hc (by rw [hop]; rfl)
          rw [if_pos ⟨c, hc, hop⟩, List.map_cons, corner_eq_range hupper hconds, hbound,
            Option.bind_some, hval, Option.getD_some, ofValues_lt_cons hv hw hvals
              (holds_fill IxCol.holds_generateMin cols)] at hhigh
          refine congrArg some (decide_eq_true ?_)
          rcases hhigh with hlt | ⟨-, hlt⟩
          · exact hlt
          · have hmin := minKey_le (IxKey.ofValues (cols.map ColMeta.ixCol) vals)
            rw [List.map_map] at hmin
            exact absurd hlt hmin.not_gt
        | le =>
          have hbound := bound_of_mem hupper hc (by rw [hop]; rfl)
          have hinclusive : ¬IndexMeta.StrictHigh conds := by
            rintro ⟨c', hc', hop'⟩
            cases hbound.symm.trans (bound_of_mem hupper hc' (by rw [hop']; rfl))
            rw [hop] at hop'
            cases hop'
          rw [if_neg hinclusive, List.map_cons, corner_eq_range hupper hconds, hbound,
            Option.bind_some, hval, Option.getD_some, ofValues_le_cons_iff hv hw hvals
              (holds_fill IxCol.holds_generateMax cols)] at hhigh
          refine congrArg some (decide_eq_true ?_)
          rcases hhigh with hlt | ⟨heq, -⟩
          · exact hlt.not_gt
          · exact heq ▸ lt_irrefl _
      have hall := @Meets.cons cols vals col v conds [] hnodup hbounds
        (fun c hc => absurd hc List.not_mem_nil) (fun c hc => absurd hc List.not_mem_nil)
      rwa [List.append_nil] at hall

end Conds

end Grmdb
