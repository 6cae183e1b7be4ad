import Grmdb.IndexMatch
import Grmdb.IndexValues

namespace Grmdb

def CompOp.isLower : CompOp → Bool
  | .eq | .gt | .ge => true
  | _ => false

def CompOp.isUpper : CompOp → Bool
  | .eq | .lt | .le => true
  | _ => false

/-- The literals of the conditions on one side, and for the columns behind them a greatest or least
value. -/
def corner (side : CompOp → Bool) (fill : IxCol → Value) (cols : List ColMeta)
    (conds : List Condition) : List Value :=
  let literals := (conds.filter fun cond => side cond.op).filterMap Condition.rhsVal
  literals ++ (cols.drop literals.length).map fun col => fill col.ixCol

/-- The values meet every condition on their columns. -/
def Meets (cols : List ColMeta) (conds : List Condition) (vals : List Value) : Prop :=
  ∀ cond ∈ conds, ∀ p ∈ cols.zip vals, p.1.name = cond.lhsCol.colName →
    ∀ w, cond.rhsVal = some w → p.2.comp w cond.op = some true

/-- A range condition on a column, against a value of it. -/
def Condition.Bounds (cond : Condition) (col : ColMeta) : Prop :=
  cond.lhsCol.colName = col.name ∧ (cond.op ≠ .eq ∧ cond.op ≠ .ne) ∧
    ∃ v, cond.rhsVal = some v ∧ col.ixCol.Holds v

/-- Equalities on the first columns, then at most one lower and one upper bound on the next one. -/
inductive Ranged : List ColMeta → List Condition → Prop
  | nil (cols : List ColMeta) : Ranged cols []
  | eq {col : ColMeta} {cols : List ColMeta} {cond : Condition} {conds : List Condition} {v : Value}
      (hname : cond.lhsCol.colName = col.name) (hop : cond.op = .eq) (hval : cond.rhsVal = some v)
      (hv : col.ixCol.Holds v) (h : Ranged cols conds) : Ranged (col :: cols) (cond :: conds)
  | range {col : ColMeta} {cols : List ColMeta} {conds : List Condition}
      (lower upper : Option Condition) (hlower : conds.filter (fun c => c.op.isLower) = lower.toList)
      (hupper : conds.filter (fun c => c.op.isUpper) = upper.toList)
      (hconds : ∀ cond ∈ conds, cond.Bounds col) : Ranged (col :: cols) conds

section Corner

variable {side : CompOp → Bool} {fill : IxCol → Value} {col : ColMeta} {cols : List ColMeta}
  {cond : Condition} {conds : List Condition} {v : Value} {vals : List Value}

theorem corner_cons (hside : side cond.op = true) (hval : cond.rhsVal = some v) :
    corner side fill (col :: cols) (cond :: conds) = v :: corner side fill cols conds := by
  simp [corner, hside, hval]

theorem corner_range {bound : Option Condition}
    (h : conds.filter (fun c => side c.op) = bound.toList)
    (hval : ∀ cond, bound = some cond → ∃ v, cond.rhsVal = some v) :
    corner side fill (col :: cols) conds =
      (bound.bind Condition.rhsVal).getD (fill col.ixCol) :: cols.map fun col => fill col.ixCol := by
  cases bound with
  | none => simp [corner, h]
  | some cond =>
    obtain ⟨v, hv⟩ := hval cond rfl
    simp [corner, h, hv]

/-- Keys of rows, where the first columns agree. -/
theorem ofValues_le_cons {ixCol : IxCol} {ixCols : List IxCol} {u v : Value} {us vals : List Value}
    (hu : ixCol.Holds u) (hv : ixCol.Holds v) (hus : List.Forall₂ IxCol.Holds ixCols us)
    (hvals : List.Forall₂ IxCol.Holds ixCols vals) (hle : ixCol.codes u ≤ ixCol.codes v)
    (hrest : IxKey.ofValues ixCols us ≤ IxKey.ofValues ixCols vals) :
    IxKey.ofValues (ixCol :: ixCols) (u :: us) ≤ IxKey.ofValues (ixCol :: ixCols) (v :: vals) := by
  rw [← not_lt, ofValues_lt_cons hv hu hvals hus]
  rintro (hlt | ⟨-, hlt⟩)
  · exact absurd hlt (not_lt.mpr hle)
  · exact absurd hlt (not_lt.mpr hrest)

theorem IxCol.codes_generateMin_le {ixCol : IxCol} (h : ixCol.Holds v) :
    ixCol.codes ixCol.generateMin ≤ ixCol.codes v := by
  have hcomp := comp_codes h (holds_generateMin ixCol) .lt
  rw [← not_lt]
  intro hlt
  rw [show CompOp.lt.holds (ixCol.codes v) (ixCol.codes ixCol.generateMin) = true from
    decide_eq_true hlt] at hcomp
  cases ixCol with
  | int =>
    obtain ⟨i, rfl, hi⟩ := h.int
    simp only [Value.comp, IxCol.generateMin, CompOp.holds, Option.some.injEq,
      decide_eq_true_eq] at hcomp
    exact absurd hcomp (not_lt.mpr hi.1)
  | char len =>
    obtain ⟨s, rfl, -, -⟩ := h.char
    simp [Value.comp, IxCol.generateMin, CompOp.holds, charCodes] at hcomp

theorem ofValues_min_le {ixCols : List IxCol} (h : List.Forall₂ IxCol.Holds ixCols vals) :
    IxKey.ofValues ixCols (ixCols.map IxCol.generateMin) ≤ IxKey.ofValues ixCols vals := by
  induction h with
  | nil => exact le_refl _
  | @cons ixCol v ixCols vals hv hvals ih =>
    exact ofValues_le_cons ixCol.holds_generateMin hv (holds_map IxCol.holds_generateMin ixCols)
      hvals (IxCol.codes_generateMin_le hv) ih

namespace Ranged

theorem names (h : Ranged cols conds) :
    ∀ cond ∈ conds, cond.lhsCol.colName ∈ cols.map ColMeta.name := by
  induction h with
  | nil => simp
  | @eq col cols cond conds v hname hop hval hv h ih =>
    intro c hc
    rcases List.mem_cons.mp hc with rfl | hc
    · rw [hname]
      exact List.mem_cons_self
    · exact List.mem_cons_of_mem _ (ih c hc)
  | @range col cols conds lower upper hlower hupper hconds =>
    intro c hc
    rw [(hconds c hc).1]
    exact List.mem_cons_self

/-- What a corner holds in the first column of a range. -/
theorem range_holds {bound : Option Condition}
    (h : conds.filter (fun c => side c.op) = bound.toList)
    (hconds : ∀ cond ∈ conds, cond.Bounds col) :
    ∀ cond, bound = some cond → ∃ v, cond.rhsVal = some v ∧ col.ixCol.Holds v := by
  rintro cond rfl
  have hmem : cond ∈ conds.filter fun c => side c.op := by
    rw [h]
    exact List.mem_singleton.mpr rfl
  exact (hconds cond (List.mem_of_mem_filter hmem)).2.2

theorem corner_eq_range {bound : Option Condition}
    (h : conds.filter (fun c => side c.op) = bound.toList)
    (hconds : ∀ cond ∈ conds, cond.Bounds col) :
    corner side fill (col :: cols) conds =
      (bound.bind Condition.rhsVal).getD (fill col.ixCol) :: cols.map fun col => fill col.ixCol :=
  corner_range h fun cond hbound =>
    let ⟨v, hv, _⟩ := range_holds h hconds cond hbound
    ⟨v, hv⟩

theorem holds_bound {bound : Option Condition} (hfill : ∀ ixCol, IxCol.Holds ixCol (fill ixCol))
    (h : conds.filter (fun c => side c.op) = bound.toList)
    (hconds : ∀ cond ∈ conds, cond.Bounds col) :
    col.ixCol.Holds ((bound.bind Condition.rhsVal).getD (fill col.ixCol)) := by
  cases hbound : bound with
  | none => exact hfill _
  | some cond =>
    obtain ⟨v, hval, hv⟩ := range_holds h hconds cond hbound
    rw [Option.bind_some, hval]
    exact hv

theorem holds_fill (hfill : ∀ ixCol, IxCol.Holds ixCol (fill ixCol)) (cols : List ColMeta) :
    List.Forall₂ IxCol.Holds (cols.map ColMeta.ixCol) (cols.map fun col => fill col.ixCol) := by
  have hmap := holds_map hfill (cols.map ColMeta.ixCol)
  rwa [List.map_map] at hmap

/-- The corners hold values of the columns. -/
theorem holds_corner (h : Ranged cols conds)
    (hside : side = CompOp.isLower ∨ side = CompOp.isUpper)
    (hfill : ∀ ixCol, IxCol.Holds ixCol (fill ixCol)) :
    List.Forall₂ IxCol.Holds (cols.map ColMeta.ixCol) (corner side fill cols conds) := by
  induction h with
  | nil cols => exact holds_fill hfill cols
  | @eq col cols cond conds v hname hop hval hv h ih =>
    have hequal : side cond.op = true := by
      rw [hop]
      rcases hside with rfl | rfl
      · rfl
      · rfl
    rw [corner_cons hequal hval]
    exact .cons hv ih
  | @range col cols conds lower upper hlower hupper hconds =>
    have hfilter : ∃ bound : Option Condition,
        conds.filter (fun c => side c.op) = bound.toList := by
      rcases hside with rfl | rfl
      · exact ⟨lower, hlower⟩
      · exact ⟨upper, hupper⟩
    obtain ⟨bound, hfilter⟩ := hfilter
    rw [corner_eq_range hfilter hconds]
    exact .cons (holds_bound hfill hfilter hconds) (holds_fill hfill cols)

end Ranged

theorem Meets.head {w : Value} (h : Meets (col :: cols) conds (v :: vals)) (hmem : cond ∈ conds)
    (hname : cond.lhsCol.colName = col.name) (hval : cond.rhsVal = some w)
    (hv : col.ixCol.Holds v) (hw : col.ixCol.Holds w) :
    cond.op.holds (col.ixCol.codes v) (col.ixCol.codes w) = true := by
  have hcomp := h cond hmem (col, v) List.mem_cons_self hname.symm w hval
  rw [IxCol.comp_codes hv hw] at hcomp
  exact Option.some.inj hcomp

theorem Meets.tail (h : Meets (col :: cols) (cond :: conds) (v :: vals)) : Meets cols conds vals :=
  fun cond hcond p hp => h cond (List.mem_cons_of_mem _ hcond) p (List.mem_cons_of_mem _ hp)

namespace Ranged

/-- The one condition of a side in a range. -/
theorem bound_of_mem {bound : Option Condition}
    (h : conds.filter (fun c => side c.op) = bound.toList) (hmem : cond ∈ conds)
    (hside : side cond.op = true) : bound = some cond := by
  have hfilter : cond ∈ conds.filter fun c => side c.op := List.mem_filter.mpr ⟨hmem, hside⟩
  rw [h, Option.mem_toList] at hfilter
  exact hfilter

theorem mem_of_bound (h : conds.filter (fun c => side c.op) = (some cond).toList) :
    cond ∈ conds ∧ side cond.op = true := by
  have hfilter : cond ∈ conds.filter fun c => side c.op := by
    rw [h]
    exact List.mem_singleton.mpr rfl
  exact List.mem_filter.mp hfilter

/-- Behind a strict lower bound lie only greater keys, whatever the columns behind it are filled
with. -/
theorem low_lt (h : Ranged cols conds) (hgt : ∃ cond ∈ conds, cond.op = .gt)
    (hfill : ∀ ixCol, IxCol.Holds ixCol (fill ixCol))
    (hvals : List.Forall₂ IxCol.Holds (cols.map ColMeta.ixCol) vals) (hmeets : Meets cols conds vals) :
    IxKey.ofValues (cols.map ColMeta.ixCol) (corner CompOp.isLower fill cols conds) <
      IxKey.ofValues (cols.map ColMeta.ixCol) vals := by
  induction h generalizing vals with
  | nil =>
    obtain ⟨cond, hmem, -⟩ := hgt
    cases hmem
  | @eq col cols cond conds w hname hop hval hw h ih =>
    cases hvals with
    | @cons _ v _ vals hv hvals =>
      have hequal := hmeets.head List.mem_cons_self hname hval hv hw
      rw [hop, CompOp.holds, decide_eq_true_eq] at hequal
      have hgt' : ∃ cond ∈ conds, cond.op = .gt := by
        obtain ⟨c, hc, hcop⟩ := hgt
        rcases List.mem_cons.mp hc with rfl | hc
        · rw [hop] at hcop
          cases hcop
        · exact ⟨c, hc, hcop⟩
      rw [corner_cons (by rw [hop]; rfl) hval]
      exact (ofValues_lt_cons hw hv (h.holds_corner (Or.inl rfl) hfill) hvals).mpr
        (Or.inr ⟨hequal.symm, ih hgt' hvals hmeets.tail⟩)
  | @range col cols conds lower upper hlower hupper hconds =>
    cases hvals with
    | @cons _ v _ vals hv hvals =>
      obtain ⟨c, hc, hcop⟩ := hgt
      obtain ⟨hname, -, w, hval, hw⟩ := hconds c hc
      have hbound := bound_of_mem hlower hc (by rw [hcop]; rfl)
      have hgreater := hmeets.head hc hname hval hv hw
      rw [hcop, CompOp.holds, decide_eq_true_eq] at hgreater
      rw [corner_eq_range hlower hconds, hbound, Option.bind_some, hval]
      exact (ofValues_lt_cons hw hv (holds_fill hfill cols) hvals).mpr (Or.inl hgreater)

/-- Without one the corner that is filled up with least values is at most as great as the keys that
meet the conditions. -/
theorem low_le (h : Ranged cols conds) (hgt : ¬∃ cond ∈ conds, cond.op = .gt)
    (hvals : List.Forall₂ IxCol.Holds (cols.map ColMeta.ixCol) vals) (hmeets : Meets cols conds vals) :
    IxKey.ofValues (cols.map ColMeta.ixCol)
        (corner CompOp.isLower IxCol.generateMin cols conds) ≤
      IxKey.ofValues (cols.map ColMeta.ixCol) vals := by
  have hleast : ∀ {cols : List ColMeta} {vals : List Value},
      List.Forall₂ IxCol.Holds (cols.map ColMeta.ixCol) vals →
      IxKey.ofValues (cols.map ColMeta.ixCol) (cols.map fun col => col.ixCol.generateMin) ≤
        IxKey.ofValues (cols.map ColMeta.ixCol) vals := by
    intro cols vals hvals
    have hmin := ofValues_min_le hvals
    rwa [List.map_map] at hmin
  induction h generalizing vals with
  | nil => exact hleast hvals
  | @eq col cols cond conds w hname hop hval hw h ih =>
    cases hvals with
    | @cons _ v _ vals hv hvals =>
      have hequal := hmeets.head List.mem_cons_self hname hval hv hw
      rw [hop, CompOp.holds, decide_eq_true_eq] at hequal
      have hgt' : ¬∃ cond ∈ conds, cond.op = .gt := by
        rintro ⟨c, hc, hcop⟩
        exact hgt ⟨c, List.mem_cons_of_mem _ hc, hcop⟩
      rw [corner_cons (by rw [hop]; rfl) hval]
      exact ofValues_le_cons hw hv (h.holds_corner (Or.inl rfl) IxCol.holds_generateMin) hvals
        hequal.ge (ih hgt' hvals hmeets.tail)
  | @range col cols conds lower upper hlower hupper hconds =>
    cases hvals with
    | @cons _ v _ vals hv hvals =>
      have hhead : col.ixCol.codes
          ((lower.bind Condition.rhsVal).getD col.ixCol.generateMin) ≤ col.ixCol.codes v := by
        cases lower with
        | none => exact IxCol.codes_generateMin_le hv
        | some c =>
          obtain ⟨hc, hside⟩ := mem_of_bound hlower
          obtain ⟨hname, ⟨hne, -⟩, w, hval, hw⟩ := hconds c hc
          have hcomp := hmeets.head hc hname hval hv hw
          have hcop : c.op = .ge := by
            cases hop : c.op with
            | ge => rfl
            | eq => exact absurd hop hne
            | gt => exact absurd ⟨c, hc, hop⟩ hgt
            | ne => rw [hop] at hside; cases hside
            | lt => rw [hop] at hside; cases hside
            | le => rw [hop] at hside; cases hside
          rw [hcop, CompOp.holds, decide_eq_true_eq, not_lt] at hcomp
          rw [Option.bind_some, hval]
          exact hcomp
      rw [corner_eq_range hlower hconds]
      exact ofValues_le_cons (holds_bound IxCol.holds_generateMin hlower hconds) hv
        (holds_fill IxCol.holds_generateMin cols) hvals hhead (hleast hvals)

theorem lt_high (h : Ranged cols conds) (hlt : ∃ cond ∈ conds, cond.op = .lt)
    (hfill : ∀ ixCol, IxCol.Holds ixCol (fill ixCol))
    (hvals : List.Forall₂ IxCol.Holds (cols.map ColMeta.ixCol) vals) (hmeets : Meets cols conds vals) :
    IxKey.ofValues (cols.map ColMeta.ixCol) vals <
      IxKey.ofValues (cols.map ColMeta.ixCol) (corner CompOp.isUpper fill cols conds) := by
  induction h generalizing vals with
  | nil =>
    obtain ⟨cond, hmem, -⟩ := hlt
    cases hmem
  | @eq col cols cond conds w hname hop hval hw h ih =>
    cases hvals with
    | @cons _ v _ vals hv hvals =>
      have hequal := hmeets.head List.mem_cons_self hname hval hv hw
      rw [hop, CompOp.holds, decide_eq_true_eq] at hequal
      have hlt' : ∃ cond ∈ conds, cond.op = .lt := by
        obtain ⟨c, hc, hcop⟩ := hlt
        rcases List.mem_cons.mp hc with rfl | hc
        · rw [hop] at hcop
          cases hcop
        · exact ⟨c, hc, hcop⟩
      rw [corner_cons (by rw [hop]; rfl) hval]
      exact (ofValues_lt_cons hv hw hvals (h.holds_corner (Or.inr rfl) hfill)).mpr
        (Or.inr ⟨hequal, ih hlt' hvals hmeets.tail⟩)
  | @range col cols conds lower upper hlower hupper hconds =>
    cases hvals with
    | @cons _ v _ vals hv hvals =>
      obtain ⟨c, hc, hcop⟩ := hlt
      obtain ⟨hname, -, w, hval, hw⟩ := hconds c hc
      have hbound := bound_of_mem hupper hc (by rw [hcop]; rfl)
      have hless := hmeets.head hc hname hval hv hw
      rw [hcop, CompOp.holds, decide_eq_true_eq] at hless
      rw [corner_eq_range hupper hconds, hbound, Option.bind_some, hval]
      exact (ofValues_lt_cons hv hw hvals (holds_fill hfill cols)).mpr (Or.inl hless)

end Ranged

end Corner

section Accepted

variable {index : IndexMeta} {cols : List ColMeta} {conds : List Condition}

/-- The literals of the conditions are values of the columns. -/
def Typed (cols : List ColMeta) (conds : List Condition) : Prop :=
  ∀ cond ∈ conds, ∀ col ∈ cols, col.name = cond.lhsCol.colName →
    ∃ v, cond.rhsVal = some v ∧ col.ixCol.Holds v

theorem Ranged.single {col : ColMeta} {cond : Condition} {v : Value}
    (hname : cond.lhsCol.colName = col.name) (hop : cond.op ≠ .ne) (hval : cond.rhsVal = some v)
    (hv : col.ixCol.Holds v) : Ranged (col :: cols) [cond] := by
  by_cases heq : cond.op = .eq
  · exact .eq hname heq hval hv (.nil cols)
  · refine .range (if cond.op.isLower then some cond else none)
      (if cond.op.isUpper then some cond else none) ?_ ?_ ?_
    · by_cases hside : cond.op.isLower = true
      · simp [hside]
      · simp [hside]
    · by_cases hside : cond.op.isUpper = true
      · simp [hside]
      · simp [hside]
    · intro c hc
      rw [List.mem_singleton.mp hc]
      exact ⟨hname, ⟨heq, hop⟩, v, hval, hv⟩

theorem Ranged.of_eqPrefix
    (hnames : conds.map (fun cond => cond.lhsCol.colName) =
      (cols.map ColMeta.name).take conds.length)
    (hequal : ∀ cond ∈ conds.dropLast, cond.op = .eq) (hops : ∀ cond ∈ conds, cond.op ≠ .ne)
    (htyped : Typed cols conds) : Ranged cols conds := by
  induction conds generalizing cols with
  | nil => exact .nil cols
  | cons cond conds ih =>
    cases cols with
    | nil => simp at hnames
    | cons col cols =>
      rw [List.map_cons, List.map_cons, List.length_cons, List.take_succ_cons,
        List.cons.injEq] at hnames
      obtain ⟨hname, hrest⟩ := hnames
      obtain ⟨v, hval, hv⟩ := htyped cond List.mem_cons_self col List.mem_cons_self hname.symm
      cases conds with
      | nil => exact .single hname (hops cond List.mem_cons_self) hval hv
      | cons next conds =>
        rw [List.dropLast_cons_cons] at hequal
        obtain ⟨hop, hequal⟩ := List.forall_mem_cons.mp hequal
        exact .eq hname hop hval hv (ih hrest hequal
          (fun c hc => hops c (List.mem_cons_of_mem _ hc))
          fun c hc col hcol => htyped c (List.mem_cons_of_mem _ hc) col
            (List.mem_cons_of_mem _ hcol))

theorem Ranged.of_twoBounds (h : index.TwoBounds conds) (htyped : Typed index.cols conds) :
    Ranged index.cols conds := by
  obtain ⟨cond, cond', rfl, hnames, hsame, hpair⟩ := h
  obtain ⟨col, hcols, hname⟩ := List.map_eq_singleton_iff.mp hnames
  rw [hcols] at htyped ⊢
  have hbound : ∀ c ∈ [cond, cond'], c.lhsCol.colName = col.name := by
    intro c hc
    rcases List.mem_cons.mp hc with rfl | hc
    · exact hname.symm
    · rw [List.mem_singleton.mp hc, hsame, hname]
  refine .range (if cond.op.isLower then some cond else some cond')
    (if cond.op.isUpper then some cond else some cond') ?_ ?_ ?_
  · revert hpair
    cases hop : cond.op <;> cases hop' : cond'.op <;>
      simp [TabMeta.validPair, CompOp.isLower, hop, hop']
  · revert hpair
    cases hop : cond.op <;> cases hop' : cond'.op <;>
      simp [TabMeta.validPair, CompOp.isUpper, hop, hop']
  · intro c hc
    refine ⟨hbound c hc, ?_, htyped c hc col List.mem_cons_self (hbound c hc).symm⟩
    rcases List.mem_cons.mp hc with rfl | hc
    · revert hpair
      cases hop : c.op <;> simp [TabMeta.validPair]
    · rw [List.mem_singleton.mp hc]
      revert hpair
      cases hop : cond.op <;> cases hop' : cond'.op <;> simp [TabMeta.validPair]

end Accepted

end Grmdb
