import Grmdb.ExecutorProtocol
import Grmdb.LogFormat

namespace Grmdb

open ByteLayout MapM

section Values

variable {left v w : Value} {results results' : List Value} {col : ColMeta} {record : Bytes}

/-- Whether two values can be compared is a matter of their types. -/
theorem Value.comp_isSome (h : v.type = w.type) (op : CompOp) :
    (left.comp v op).isSome = (left.comp w op).isSome := by
  cases left with
  | int i => cases v <;> cases w <;> first | rfl | cases h
  | float x => cases v <;> cases w <;> first | rfl | cases h
  | string s => cases v <;> cases w <;> first | rfl | cases h

theorem inResults_true (h : inResults left results = some true) :
    ∃ val ∈ results, left.comp val .eq = some true := by
  induction results with
  | nil => cases h
  | cons val vals ih =>
    obtain ⟨ok, hok, h⟩ := Option.bind_eq_some_iff.mp h
    cases ok with
    | true => exact ⟨val, List.mem_cons_self, hok⟩
    | false =>
      obtain ⟨val', hval', hcomp⟩ := ih h
      exact ⟨val', List.mem_cons_of_mem val hval', hcomp⟩

theorem inResults_eq_any (h : ∀ val ∈ results, (left.comp val .eq).isSome) :
    inResults left results = some (results.any fun val => left.comp val .eq = some true) := by
  induction results with
  | nil => rfl
  | cons val vals ih =>
    obtain ⟨ok, hok⟩ := Option.isSome_iff_exists.mp (h val List.mem_cons_self)
    rw [inResults, hok, Option.bind_some, ih fun v hv => h v (List.mem_cons_of_mem val hv)]
    cases ok with
    | true => simp [hok]
    | false => simp [hok]

/-- The order of the values does not matter to an IN clause: they are all of one type. -/
theorem inResults_perm {type : ColType} (h : results'.Perm results)
    (htype : ∀ val ∈ results, val.type = type) : inResults left results' = inResults left results := by
  cases results with
  | nil => rw [h.eq_nil]
  | cons val vals =>
    have hsame : ∀ w ∈ val :: vals, (left.comp w .eq).isSome = (left.comp val .eq).isSome :=
      fun w hw => Value.comp_isSome ((htype w hw).trans (htype val List.mem_cons_self).symm) _
    cases hval : left.comp val .eq with
    | some ok =>
      have hall : ∀ w ∈ val :: vals, (left.comp w .eq).isSome := by
        intro w hw
        rw [hsame w hw, hval]
        rfl
      rw [inResults_eq_any hall, inResults_eq_any fun w hw => hall w (h.mem_iff.mp hw)]
      exact congrArg some h.any_eq
    | none =>
      have hnone : ∀ w ∈ val :: vals, left.comp w .eq = none := by
        intro w hw
        have := hsame w hw
        rw [hval] at this
        exact Option.not_isSome_iff_eq_none.mp (by simp [this])
      cases results' with
      | nil => exact absurd h.symm.eq_nil (List.cons_ne_nil _ _)
      | cons w ws =>
        have hw := hnone w (h.mem_iff.mp List.mem_cons_self)
        rw [inResults, inResults, hw, hval]
        rfl

theorem subResult_type (h : subResult col record = some v) : v.type = col.type := by
  unfold subResult at h
  cases htype : col.type with
  | int =>
    simp only [htype] at h
    split at h
    next => cases h; rfl
    next => cases h
  | float =>
    simp only [htype] at h
    split at h
    next => cases h; rfl
    next => cases h
  | string =>
    simp only [htype] at h
    split at h
    next => cases h; rfl
    next => cases h
  | datetime =>
    simp only [htype] at h
    cases h

/-- A literal that is of the type of the column, as `ValuesExecutor` takes for granted. -/
def Value.OfType (type : ColType) : Value → Prop
  | .int i => type = .int ∧ IsInt32 i
  | .float _ => type = .float
  | .string s => type = .string ∧ 0 ∉ s

theorem takeWhile_zeros {s : Bytes} (h : 0 ∉ s) (n : Nat) :
    (s ++ List.replicate n 0).takeWhile (· ≠ 0) = s := by
  have hs : ∀ b ∈ s, (decide (b ≠ 0)) = true := by
    intro b hb
    simp only [decide_eq_true_eq]
    rintro rfl
    exact h hb
  rw [List.takeWhile_append_of_pos hs]
  cases n with
  | zero => simp
  | succ n => simp [List.replicate_succ]

/-- Such a literal comes back as it went in. -/
theorem subResult_raw {len : Nat} (hof : v.OfType col.type)
    (h : subResult col (v.raw len) = some w) : w = v := by
  unfold subResult at h
  cases v with
  | int i =>
    obtain ⟨htype, hint⟩ := hof
    simp only [htype] at h
    split at h
    next =>
      cases h
      exact congrArg Value.int (readInt_intBytes hint)
    next => cases h
  | float bits =>
    have htype : col.type = .float := hof
    simp only [htype] at h
    split at h
    next =>
      cases h
      refine congrArg Value.float ?_
      have hlt : bits.toNat < 256 ^ 4 := bits.toNat_lt
      rw [Value.raw, List.take_of_length_le (by rw [length_littleEndian]), readNat_littleEndian,
        Nat.mod_eq_of_lt hlt, UInt32.ofNat_toNat]
    next => cases h
  | string s =>
    obtain ⟨htype, hzero⟩ := hof
    simp only [htype] at h
    split at h
    next =>
      cases h
      exact congrArg Value.string (takeWhile_zeros hzero _)
    next => cases h

end Values

section Catalog

variable {σ ρ : Type} {cat cat' : Catalog} {analyzeSub : σ → Option ρ} {tables : List String}
  {svConds : List (BinaryExpr σ)} {query : Query ρ} {allCols : List ColMeta} {t : String}
  {tab : TabMeta}

/-- The catalogs differ in their indexes at most. -/
structure SameCols (cat cat' : Catalog) : Prop where
  cols : ∀ t, (cat' t).map TabMeta.cols = (cat t).map TabMeta.cols

theorem SameCols.tab_eq (h : SameCols cat cat') (htab : cat t = some tab) :
    ∃ tab', cat' t = some tab' ∧ tab'.cols = tab.cols := by
  have ht := h.cols t
  rw [htab] at ht
  exact Option.map_eq_some_iff.mp ht

theorem SameCols.none (h : SameCols cat cat') (htab : cat t = none) : cat' t = none := by
  have ht := h.cols t
  rw [htab] at ht
  exact Option.map_eq_none_iff.mp ht

theorem SameCols.getCol (h : SameCols cat cat') (t colName : String) :
    ((cat' t).bind fun tab => tab.getCol colName) = (cat t).bind fun tab => tab.getCol colName := by
  cases htab : cat t with
  | none => rw [h.none htab]
  | some tab =>
    obtain ⟨tab', htab', hcols⟩ := h.tab_eq htab
    rw [htab']
    simp only [Option.bind_some, TabMeta.getCol, hcols]

theorem getAllCols_cons (cat : Catalog) (t : String) (tables : List String) :
    getAllCols cat (t :: tables) =
      (cat t).bind fun tab => (getAllCols cat tables).map fun cols => tab.cols ++ cols := by
  unfold getAllCols
  rw [List.mapM_cons]
  cases cat t with
  | none => rfl
  | some tab =>
    cases tables.mapM cat with
    | none => rfl
    | some tabs => rfl

theorem SameCols.getAllCols (h : SameCols cat cat') (tables : List String) :
    getAllCols cat' tables = getAllCols cat tables := by
  induction tables with
  | nil => rfl
  | cons t tables ih =>
    rw [getAllCols_cons, getAllCols_cons, ih]
    cases htab : cat t with
    | none => rw [h.none htab]
    | some tab =>
      obtain ⟨tab', htab', hcols⟩ := h.tab_eq htab
      rw [htab', Option.bind_some, Option.bind_some, hcols]

theorem SameCols.checkCond (h : SameCols cat cat') (cond : Condition) :
    checkCond cat' allCols cond = checkCond cat allCols cond := by
  have hrhs : ∀ (c : Condition) (col : ColMeta), c.rhsType cat' col = c.rhsType cat col := by
    intro c col
    have hcol := congrArg (Option.map ColMeta.type) (h.getCol c.rhsCol.tabName c.rhsCol.colName)
    rw [Option.map_bind, Option.map_bind] at hcol
    unfold Condition.rhsType
    rw [show (cat' c.rhsCol.tabName).bind (fun tab => (tab.getCol c.rhsCol.colName).map
      ColMeta.type) = _ from hcol]
    rfl
  unfold Grmdb.checkCond
  refine congrArg _ (funext fun lhs => congrArg _ (funext fun rhs => ?_))
  have hlhs := fun f : ColMeta → Option Condition =>
    congrArg (fun col => Option.bind col f) (h.getCol lhs.tabName lhs.colName)
  simp only [Option.bind_assoc] at hlhs
  simp only [hrhs]
  exact hlhs _

/-- The analyzer does not look at the indexes. -/
theorem SameCols.analyzeSelect (h : SameCols cat cat') :
    analyzeSelect cat' analyzeSub tables svConds = analyzeSelect cat analyzeSub tables svConds := by
  unfold Grmdb.analyzeSelect
  rw [h.getAllCols]
  refine congrArg _ (funext fun allCols => ?_)
  have hcheck : Grmdb.checkCond cat' allCols = Grmdb.checkCond cat allCols :=
    funext fun cond => h.checkCond cond
  rw [hcheck]

end Catalog

section Scan

variable {fuel : Nat} {tab tab' : TabMeta} {file : TableFile} {conds : List Condition}
  {clause : SubQueryClause} {results results' : List Value} {sub exec : Executor} {col : ColMeta}
  {rows : List Bytes} {row : Bytes}

/-- A `SubqueryExecutor` that has its values. -/
def subqueryScan (cols : List ColMeta) (tupleLen : Nat) (file : TableFile) (conds : List Condition)
    (clause : SubQueryClause) (results : List Value) : Executor :=
  ⟨cols, tupleLen, scanCursor (evalWithSubquery cols clause results conds) file,
    ⟨[], none, false, none⟩⟩

theorem subqueryExecutor_eq_some :
    subqueryExecutor fuel tab file conds clause sub = some exec ↔
      ∃ col lhs results, sub.cols = [col] ∧ tab.getCol clause.lhs.colName = some lhs ∧
        lhs.type.compatible col.type = true ∧ subResults fuel sub col = some results ∧
        (clause.inClause = false → results.length = 1) ∧
        exec = subqueryScan tab.cols tab.tupleLen file conds clause results := by
  unfold subqueryExecutor
  constructor
  · intro h
    split at h
    next col hcol =>
      obtain ⟨lhs, hlhs, h⟩ := Option.bind_eq_some_iff.mp h
      split at h
      next htype =>
        obtain ⟨results, hresults, h⟩ := Option.bind_eq_some_iff.mp h
        split at h
        next => cases h
        next hone =>
          cases h
          exact ⟨col, lhs, results, hcol, hlhs, htype, hresults,
            fun hin => by_contra fun hlen => hone ⟨hin, hlen⟩, rfl⟩
      next => cases h
    next => cases h
  · rintro ⟨col, lhs, results, hcol, hlhs, htype, hresults, hone, rfl⟩
    have hnot : ¬(clause.inClause = false ∧ results.length ≠ 1) := fun h => h.2 (hone h.1)
    simp [hcol, hlhs, htype, hresults, hnot, subqueryScan]

theorem evalWithSubquery_true {cols : List ColMeta}
    (h : evalWithSubquery cols clause results conds row = some true) :
    ∃ left, getValue cols clause.lhs row = some left ∧
      if clause.inClause then ∃ val ∈ results, left.comp val .eq = some true
      else ∃ op val, clause.op = some op ∧ results.head? = some val ∧
        left.comp val op = some true := by
  obtain ⟨ok, hok, h⟩ := Option.bind_eq_some_iff.mp h
  cases ok with
  | false => cases h
  | true =>
    obtain ⟨left, hleft, hok⟩ := Option.bind_eq_some_iff.mp hok
    refine ⟨left, hleft, ?_⟩
    split at hok
    next hin =>
      rw [if_pos hin]
      exact inResults_true hok
    next hin =>
      rw [if_neg hin]
      obtain ⟨op, hop, hok⟩ := Option.bind_eq_some_iff.mp hok
      obtain ⟨val, hval, hok⟩ := Option.bind_eq_some_iff.mp hok
      exact ⟨op, val, hop, hval, hok⟩

/-- What the scan delivers has passed its test. -/
theorem subqueryScan_rows {cols : List ColMeta} {tupleLen : Nat}
    (h : (subqueryScan cols tupleLen file conds clause results).FirstPass rows) :
    ∀ row ∈ rows, evalWithSubquery cols clause results conds row = some true := by
  obtain ⟨s, hstart, hdelivers⟩ := h
  obtain ⟨last, hlast, -⟩ := Option.bind_eq_some_iff.mp hstart
  have hdecided := findLast_decided (Option.isSome_iff_exists.mpr ⟨last, hlast⟩)
  have hp : ∀ row ∈ file.rows, evalWithSubquery cols clause results conds row.2 =
      some (decide (evalWithSubquery cols clause results conds row.2 = some true)) := by
    intro row hrow
    obtain ⟨ok, hok⟩ := Option.isSome_iff_exists.mp (hdecided row hrow)
    cases ok with
    | true => simp [hok]
    | false => simp [hok]
  have hrows := Executor.FirstPass.rows_eq ⟨s, hstart, hdelivers⟩ (scanCursor_walks hp _)
  intro row hrow
  rw [hrows] at hrow
  obtain ⟨found, hfound, rfl⟩ := List.mem_map.mp hrow
  exact of_decide_eq_true (List.mem_filter.mp hfound).2

/-- The scan does not depend on the order of its values. -/
theorem subqueryScan_perm {type : ColType} (h : results'.Perm results)
    (htype : ∀ val ∈ results, val.type = type) (hone : clause.inClause = false → results.length = 1)
    (cols : List ColMeta) (tupleLen : Nat) :
    subqueryScan cols tupleLen file conds clause results' =
      subqueryScan cols tupleLen file conds clause results := by
  have hsub : evalSubquery cols clause results' = evalSubquery cols clause results := by
    funext row
    unfold evalSubquery
    cases hin : clause.inClause with
    | true =>
      have hperm : ∀ left, inResults left results' = inResults left results :=
        fun left => inResults_perm h htype
      simp only [hperm, ↓reduceIte]
    | false =>
      obtain ⟨val, rfl⟩ := List.length_eq_one_iff.mp (hone hin)
      rw [List.perm_singleton.mp h]
  unfold subqueryScan evalWithSubquery
  rw [hsub]

end Scan

section Plans

variable {cat : Catalog} {knobs : JoinKnobs} {leaf : Nat → ScanPlan → Plan} {t : String}
  {conds : List Condition}

/-- Whether `get_index_cols` finds an index for the conditions of the scan of `t`. -/
def usesIndex (cat : Catalog) (conds : List Condition) (t : String) : Bool :=
  (getIndexCols cat t (popConds conds t).1).any fun cols => cols.2.isSome

theorem makeOneRel_one_table (hidx : usesIndex cat conds t = false) (ht : (cat t).isSome) :
    makeOneRel cat knobs leaf [t] conds =
      some (leaf 0 ⟨false, t, (popConds conds t).1, []⟩) := by
  obtain ⟨⟨newConds, names⟩, hcols⟩ :=
    Option.isSome_iff_exists.mp (getIndexCols_isSome ht (popConds conds t).1)
  obtain ⟨tab, htab⟩ := Option.isSome_iff_exists.mp ht
  have hnames : names = none := by
    rw [usesIndex, hcols] at hidx
    simpa using hidx
  subst hnames
  rw [getIndexCols_of_none hcols] at hcols
  simp [makeOneRel, scanTables, hcols, htab]

end Plans

section Select

variable {σ ρ : Type} {fuel : Nat} {analyzeSub : σ → Option ρ} {allCols : List ColMeta}
  {db db' : Database} {selectPlan selectPlan' : ρ → Nat → Option Plan} {expr : BinaryExpr σ}
  {vals : List Value} {slot : Subquery ρ} {plan : Plan} {col : ColMeta}

/-- The values of a subquery with the plan. -/
def SubValues (db : Database) (fuel : Nat) (plan : Plan) (col : ColMeta) (vals : List Value) : Prop :=
  ∃ sub, convertPlanExecutor db fuel plan = some sub ∧ sub.cols = [col] ∧
    subResults fuel sub col = some vals

/-- The values on the right side of a condition: the ones of the subquery when it is planned for
the first time, or those of the list. -/
def BinaryExpr.Values (db : Database) (fuel : Nat) (analyzeSub : σ → Option ρ)
    (selectPlan : ρ → Nat → Option Plan) (expr : BinaryExpr σ) (vals : List Value) : Prop :=
  match expr.rhs with
  | .value _ => False
  | .col _ => False
  | .subquery subQuery => ∃ sub plan col, analyzeSub subQuery = some sub ∧
    selectPlan sub 0 = some plan ∧ SubValues db fuel plan col vals
  | .valueList values => vals = values

/-- A record satisfies a condition with these values on its right side. -/
def BinaryExpr.SatisfiedBy (allCols cols : List ColMeta) (vals : List Value) (expr : BinaryExpr σ)
    (row : Bytes) : Prop :=
  ∃ lhs left, checkColumn allCols expr.lhs = some lhs ∧ getValue cols lhs row = some left ∧
    if expr.inClause then ∃ val ∈ vals, left.comp val .eq = some true
    else ∃ val, vals = [val] ∧ left.comp val expr.op = some true

/-- When the conditions with a subquery reach the records: they are one condition, on the one table
of the FROM clause, and no index is found for this table, before and after. Literals have the type
of the column, and a subquery has the same values before and after. -/
structure ReachesScan (db db' : Database) (fuel : Nat) (analyzeSub : σ → Option ρ)
    (selectPlan selectPlan' : ρ → Nat → Option Plan) (allCols : List ColMeta)
    (tables : List String) (svConds : List (BinaryExpr σ)) (conds : List Condition) : Prop where
  slot : SlotServes analyzeSub allCols tables svConds
  oneTable : tables.length = 1
  noIndex : ∀ t ∈ tables, usesIndex db.cat conds t = false ∧ usesIndex db'.cat conds t = false
  literals : ∀ expr ∈ svConds, ∀ values, expr.rhs = .valueList values → ∀ lhs col,
    checkColumn allCols expr.lhs = some lhs →
    ((db.cat lhs.tabName).bind fun tab => tab.getCol lhs.colName) = some col →
    ∀ val ∈ values, val.OfType col.type
  subquery : ∀ expr ∈ svConds, ∀ subQuery, expr.rhs = .subquery subQuery → ∀ sub,
    analyzeSub subQuery = some sub → ∀ plan col vals, selectPlan sub 0 = some plan →
    SubValues db fuel plan col vals → ∃ plan' vals', selectPlan' sub 0 = some plan' ∧
      SubValues db' fuel plan' col vals' ∧ vals'.Perm vals

theorem subValues_type (h : SubValues db fuel plan col vals) : ∀ val ∈ vals, val.type = col.type := by
  obtain ⟨sub, -, -, hresults⟩ := h
  obtain ⟨s, -, hresults⟩ := Option.bind_eq_some_iff.mp hresults
  obtain ⟨⟨records, s'⟩, -, hresults⟩ := Option.bind_eq_some_iff.mp hresults
  intro val hval
  obtain ⟨record, -, hrecord⟩ := mem_of_mapM hresults hval
  exact subResult_type hrecord

theorem subResults_raws {values : List Value} {len : Nat} (hof : ∀ val ∈ values, val.OfType col.type)
    (h : (values.map (Value.raw len)).mapM (subResult col) = some vals) : vals = values := by
  have hall := List.forall₂_map_left_iff.mp (forall₂_of_mapM h)
  clear h
  induction hall with
  | nil => rfl
  | @cons val val' values vals hval _ ih =>
    rw [subResult_raw (hof val List.mem_cons_self) hval,
      ih fun v hv => hof v (List.mem_cons_of_mem val hv)]

/-- The values of a list are the literals. -/
theorem subValues_values {values : List Value} {col' : ColMeta}
    (hof : ∀ val ∈ values, val.OfType col.type)
    (h : SubValues db fuel (.values values col) col' vals) : vals = values := by
  obtain ⟨sub, hconvert, hcols, hresults⟩ := h
  cases hconvert
  cases hcols
  obtain ⟨s, hstart, hresults⟩ := Option.bind_eq_some_iff.mp hresults
  cases hstart
  obtain ⟨⟨records, s'⟩, hcollect, hresults⟩ := Option.bind_eq_some_iff.mp hresults
  have hdelivers := Cursor.collect_delivers hcollect
  have hwalks := valuesCursor_walks (valuesCursor_fits hdelivers) []
  have hat : ValuesAt values col.len (values.map (Value.raw col.len)) values :=
    ⟨fun val hval => hval, rfl⟩
  have hrecords := hdelivers.unique (hwalks.delivers hat)
  dsimp only at hrecords hresults
  rw [hrecords] at hresults
  exact subResults_raws hof hresults

theorem Query.makeOneRel_one_table {knobs : JoinKnobs} {query : Query ρ} {cat : Catalog} {t : String}
    (htables : query.tables = [t]) (hslot : query.subquery = some slot)
    (hidx : usesIndex cat query.conds t = false) (ht : (cat t).isSome) :
    query.makeOneRel cat knobs selectPlan = (slot.plan cat selectPlan 0).map fun sub =>
      .scanSub ⟨false, t, (popConds query.conds t).1, []⟩ slot.clause sub := by
  unfold makeOneRel
  simp only [hslot, htables, List.length_singleton, List.range_one, List.mapM_cons, List.mapM_nil]
  cases hplan : slot.plan cat selectPlan 0 with
  | none => rfl
  | some sub => exact Grmdb.makeOneRel_one_table hidx ht

/-- The slot brings the values of a condition that it holds. -/
theorem Subquery.Holds.values (h : slot.Holds analyzeSub allCols expr)
    (hplan : slot.plan db.cat selectPlan 0 = some plan) (hvals : SubValues db fuel plan col vals)
    (hlit : ∀ values, expr.rhs = .valueList values → ∀ lhs col,
      checkColumn allCols expr.lhs = some lhs →
      ((db.cat lhs.tabName).bind fun tab => tab.getCol lhs.colName) = some col →
      ∀ val ∈ values, val.OfType col.type) :
    expr.Values db fuel analyzeSub selectPlan vals := by
  have hsub := h.sub
  unfold Subquery.plan at hplan
  unfold BinaryExpr.Values
  cases hrhs : expr.rhs with
  | value val => simp [hrhs] at hsub
  | col col => simp [hrhs] at hsub
  | subquery subQuery =>
    simp only [hrhs] at hsub
    obtain ⟨hflag, query, hquery, hslot⟩ := hsub
    simp only [hflag, hslot] at hplan
    exact ⟨query, plan, col, hquery, hplan, hvals⟩
  | valueList values =>
    simp only [hrhs] at hsub
    obtain ⟨hflag, hslot⟩ := hsub
    rw [if_pos hflag] at hplan
    obtain ⟨tab, htab, hplan⟩ := Option.bind_eq_some_iff.mp hplan
    obtain ⟨lhsCol, hcol, rfl⟩ := Option.map_eq_some_iff.mp hplan
    rw [hslot] at hvals
    have hof := hlit values hrhs slot.lhs lhsCol h.lhs (by rw [htab, Option.bind_some, hcol])
    exact subValues_values hof hvals

/-- The slot has the same values over the other catalog. -/
theorem Subquery.Holds.values_again (h : slot.Holds analyzeSub allCols expr)
    (hsame : SameCols db.cat db'.cat) (hplan : slot.plan db.cat selectPlan 0 = some plan)
    (hvals : SubValues db fuel plan col vals)
    (hsub : ∀ subQuery, expr.rhs = .subquery subQuery → ∀ sub, analyzeSub subQuery = some sub →
      ∀ plan col vals, selectPlan sub 0 = some plan → SubValues db fuel plan col vals →
      ∃ plan' vals', selectPlan' sub 0 = some plan' ∧ SubValues db' fuel plan' col vals' ∧
        vals'.Perm vals) :
    ∃ plan' vals', slot.plan db'.cat selectPlan' 0 = some plan' ∧
      SubValues db' fuel plan' col vals' ∧ vals'.Perm vals := by
  have hslotSub := h.sub
  unfold Subquery.plan at hplan ⊢
  cases hrhs : expr.rhs with
  | value val => simp [hrhs] at hslotSub
  | col col => simp [hrhs] at hslotSub
  | subquery subQuery =>
    simp only [hrhs] at hslotSub
    obtain ⟨hflag, query, hquery, hslot⟩ := hslotSub
    simp only [hflag, hslot] at hplan ⊢
    exact hsub subQuery hrhs query hquery plan col vals hplan hvals
  | valueList values =>
    simp only [hrhs] at hslotSub
    obtain ⟨hflag, hslot⟩ := hslotSub
    rw [if_pos hflag] at hplan ⊢
    obtain ⟨tab, htab, hplan⟩ := Option.bind_eq_some_iff.mp hplan
    obtain ⟨lhsCol, hcol, rfl⟩ := Option.map_eq_some_iff.mp hplan
    obtain ⟨tab', htab', hcols⟩ := hsame.tab_eq htab
    have hcol' : tab'.getCol slot.lhs.colName = some lhsCol := by
      rw [← hcol, TabMeta.getCol, TabMeta.getCol, hcols]
    obtain ⟨sub, hconvert, hrest⟩ := hvals
    refine ⟨.values (slot.sub.elim (fun _ => []) id) lhsCol, vals, ?_, ⟨sub, hconvert, hrest⟩,
      List.Perm.refl vals⟩
    rw [htab', Option.bind_some, hcol']
    rfl

end Select

/-- Every record of the result satisfies the conditions with a subquery or a list of values, and a
catalog with other indexes leads to the same result, as long as they reach the scan. -/
theorem select_applies_subqueries {σ ρ : Type} (db db' : Database) (fuel : Nat) (knobs : JoinKnobs)
    (analyzeSub : σ → Option ρ) (selectPlan selectPlan' : ρ → Nat → Option Plan)
    (tables : List String) (svConds : List (BinaryExpr σ)) (allCols : List ColMeta)
    (query : Query ρ) (plan : Plan) (exec : Executor) (rows : List Bytes)
    (hcols : getAllCols db.cat tables = some allCols)
    (hquery : analyzeSelect db.cat analyzeSub tables svConds = some query)
    (hsub : ∃ expr ∈ svConds, expr.isSub = true)
    (hplan : query.makeOneRel db.cat knobs selectPlan = some plan)
    (hyields : plan.Yields db fuel exec rows) (hsame : SameCols db.cat db'.cat)
    (hfiles : db'.files = db.files)
    (hreach : ReachesScan db db' fuel analyzeSub selectPlan selectPlan' allCols tables svConds
      query.conds) :
    (∀ row ∈ rows, ∀ expr ∈ svConds, expr.isSub = true → ∃ vals,
      expr.Values db fuel analyzeSub selectPlan vals ∧
        expr.SatisfiedBy allCols exec.cols vals row) ∧
    analyzeSelect db'.cat analyzeSub tables svConds = some query ∧
    ∃ plan', query.makeOneRel db'.cat knobs selectPlan' = some plan' ∧
      plan'.Yields db' fuel exec rows := by
  obtain ⟨allCols', hcols', -, hslots, htables⟩ := analyzeSelect_eq hquery
  cases hcols.symm.trans hcols'
  obtain ⟨t, rfl⟩ := List.length_eq_one_iff.mp hreach.oneTable
  obtain ⟨hidx, hidx'⟩ := hreach.noIndex t List.mem_cons_self
  have ht := getAllCols_tables hcols t List.mem_cons_self
  have hholds := (slot_holds_iff hslots).mpr hreach.slot.one
  obtain ⟨expr₀, hexpr₀, hsub₀⟩ := hsub
  obtain ⟨slot, hslot, hholds₀⟩ := hholds expr₀ hexpr₀ hsub₀
  rw [Query.makeOneRel_one_table htables hslot hidx ht] at hplan
  obtain ⟨sub, hsubPlan, rfl⟩ := Option.map_eq_some_iff.mp hplan
  obtain ⟨hconvert, hfirst⟩ := hyields
  obtain ⟨tab, htab, hconvert⟩ := Option.bind_eq_some_iff.mp hconvert
  obtain ⟨file, hfile, hconvert⟩ := Option.bind_eq_some_iff.mp hconvert
  obtain ⟨subExec, hsubExec, hconvert⟩ := Option.bind_eq_some_iff.mp hconvert
  obtain ⟨col, lhs, results, hsubCols, hlhs, htype, hresults, hone, rfl⟩ :=
    subqueryExecutor_eq_some.mp hconvert
  have hvals : SubValues db fuel sub col results := ⟨subExec, hsubExec, hsubCols, hresults⟩
  refine ⟨fun row hrow expr hexpr hexprSub => ?_, hsame.analyzeSelect.trans hquery, ?_⟩
  · obtain ⟨slot', hslot', hholds'⟩ := hholds expr hexpr hexprSub
    cases hslot.symm.trans hslot'
    refine ⟨results, hholds'.values hsubPlan hvals (hreach.literals expr hexpr), ?_⟩
    obtain ⟨left, hleft, htest⟩ := evalWithSubquery_true (subqueryScan_rows hfirst row hrow)
    refine ⟨slot.lhs, left, hholds'.lhs, hleft, ?_⟩
    rw [← hholds'.inClause]
    cases hin : slot.inClause with
    | true =>
      have hcase : slot.clause.inClause = true := hin
      rw [if_pos hcase] at htest
      exact htest
    | false =>
      have hcase : slot.clause.inClause = false := hin
      rw [if_neg (by simp [hcase])] at htest
      obtain ⟨op, val, hop, hval, hcomp⟩ := htest
      obtain ⟨val', hsingle⟩ := List.length_eq_one_iff.mp (hone hcase)
      rw [hsingle] at hval
      cases hval
      have hopEq := hholds'.op (hholds'.inClause ▸ hin)
      cases hop.symm.trans hopEq
      exact ⟨_, hsingle, hcomp⟩
  · obtain ⟨sub', results', hsubPlan', hvals', hperm⟩ :=
      hholds₀.values_again hsame hsubPlan hvals (hreach.subquery expr₀ hexpr₀)
    obtain ⟨tab', htab', htabCols⟩ := hsame.tab_eq htab
    have ht' : (db'.cat t).isSome := by
      rw [htab']
      rfl
    refine ⟨.scanSub ⟨false, t, (popConds query.conds t).1, []⟩ slot.clause sub', ?_, ?_, hfirst⟩
    · rw [Query.makeOneRel_one_table htables hslot hidx' ht', hsubPlan']
      rfl
    · obtain ⟨subExec', hsubExec', hsubCols', hresults'⟩ := hvals'
      have hlhs' : tab'.getCol slot.clause.lhs.colName = some lhs := by
        rw [← hlhs, TabMeta.getCol, TabMeta.getCol, htabCols]
      have hlen : tab'.tupleLen = tab.tupleLen := by
        rw [TabMeta.tupleLen, TabMeta.tupleLen, htabCols]
      have hexec : subqueryScan tab.cols tab.tupleLen file (popConds query.conds t).1 slot.clause
          results' = subqueryScan tab.cols tab.tupleLen file (popConds query.conds t).1 slot.clause
          results := subqueryScan_perm hperm (subValues_type hvals) hone tab.cols tab.tupleLen
      simp only [convertPlanExecutor, htab', hfiles, hfile, hsubExec', Option.bind_some]
      refine subqueryExecutor_eq_some.mpr ⟨col, lhs, results', hsubCols', hlhs', htype, hresults',
        fun hin => ?_, ?_⟩
      · rw [hperm.length_eq]
        exact hone hin
      · rw [htabCols, hlen]
        exact hexec.symm

/-- The catalog of `pairCatalog` with an index on `x`. -/
def indexCatalog : Catalog := fun t =>
  some ⟨t, [⟨t, "x", .int, 4, 0⟩, ⟨t, "y", .int, 4, 4⟩], [⟨t, 4, 1, [⟨t, "x", .int, 4, 0⟩]⟩]⟩

/-- The index on `x`. -/
def xIndex (t : String) : IndexMeta := ⟨t, 4, 1, [⟨t, "x", .int, 4, 0⟩]⟩

theorem xIndex_fits (t : String) : colTotLen (xIndex t).ixCols ≤ IX_MAX_COL_LEN :=
  show 4 ≤ IX_MAX_COL_LEN by decide

def IxResult.fileOr {κ : Type} (s : IxFile κ) : IxResult κ → IxFile κ
  | .returned s => s
  | _ => s

def xLayout (t : String) : IxLayout (IxKey (xIndex t).ixCols) := .ofCols _ (xIndex_fits t)

def oneRowFile (t : String) : IxFile (IxKey (xIndex t).ixCols) :=
  (IxFile.insertEntry (xLayout t) (.create _) ⟨[2, 0, 0, 0], rfl⟩ ⟨1, 0⟩).fileOr (.create _)

def twoRowsFile (t : String) : IxFile (IxKey (xIndex t).ixCols) :=
  (IxFile.insertEntry (xLayout t) (oneRowFile t) ⟨[1, 0, 0, 0], rfl⟩ ⟨1, 1⟩).fileOr (.create _)

theorem twoRowsFile_made (t : String) : IndexRun (xLayout t) (twoRowsFile t) := by
  have hone : IxFile.insertEntry (xLayout t) (.create _) ⟨[2, 0, 0, 0], rfl⟩ ⟨1, 0⟩ =
      .returned (oneRowFile t) := rfl
  have htwo : IxFile.insertEntry (xLayout t) (oneRowFile t) ⟨[1, 0, 0, 0], rfl⟩ ⟨1, 1⟩ =
      .returned (twoRowsFile t) := by with_unfolding_all rfl
  exact .insert (.insert .create hone) htwo

/-- It has the two rows of `twoRows`. -/
def twoRowsIndex (t : String) : IndexTree (xIndex t) :=
  ⟨by simp [xIndex], xIndex_fits t, twoRowsFile t, twoRowsFile_made t⟩

/-- The tables of `twoRowsDatabase` with the index. -/
def indexDatabase : Database :=
  { twoRowsDatabase with
    cat := indexCatalog
    trees := fun t index => if h : xIndex t = index then some (h ▸ twoRowsIndex t) else none }

/-- `a.x IN (1, 3) AND a.y <> 5`. -/
def inAndOther : List (BinaryExpr Unit) :=
  [⟨⟨"a", "x"⟩, true, .eq, .valueList [.int 1, .int 3]⟩, ⟨⟨"a", "y"⟩, false, .ne, .value (.int 5)⟩]

def inAndOtherQuery : Query Unit :=
  ⟨["a"], [⟨⟨"a", "y"⟩, .ne, true, ⟨"", ""⟩, some (.int 5)⟩],
    some ⟨⟨"a", "x"⟩, none, true, true, .inr [.int 1, .int 3]⟩⟩

def inAndOtherPlan : Plan :=
  .scanSub ⟨false, "a", [⟨⟨"a", "y"⟩, .ne, true, ⟨"", ""⟩, some (.int 5)⟩], []⟩
    ⟨⟨"a", "x"⟩, none, true⟩ (.values [.int 1, .int 3] ⟨"a", "x", .int, 4, 0⟩)

theorem inAndOther_reaches :
    @ReachesScan Unit Unit twoRowsDatabase indexDatabase 4 (fun _ => some ()) (fun _ _ => none)
      (fun _ _ => none) ((getAllCols pairCatalog ["a"]).getD []) ["a"] inAndOther
      inAndOtherQuery.conds := by
  have hcases : ∀ expr ∈ inAndOther, expr = ⟨⟨"a", "x"⟩, true, .eq, .valueList [.int 1, .int 3]⟩ ∨
      expr = ⟨⟨"a", "y"⟩, false, .ne, .value (.int 5)⟩ := by
    intro expr hexpr
    simpa [inAndOther] using hexpr
  refine ⟨⟨⟨?_, ?_⟩, ?_⟩, rfl, ?_, ?_, ?_⟩
  · intro expr hexpr values hrhs
    rcases hcases expr hexpr with rfl | rfl
    · rfl
    · cases hrhs
  · intro expr hexpr expr' hexpr' hsub hsub'
    rcases hcases expr hexpr with rfl | rfl
    · rcases hcases expr' hexpr' with rfl | rfl
      · exact ⟨rfl, rfl, fun _ => rfl, rfl⟩
      · cases hsub'
    · cases hsub
  · intro expr hexpr hsub t ht
    cases List.mem_singleton.mp ht
    rcases hcases expr hexpr with rfl | rfl
    · decide +kernel
    · cases hsub
  · intro t ht
    cases List.mem_singleton.mp ht
    decide +kernel
  · intro expr hexpr values hrhs lhs col hlhs hcol val hval
    rcases hcases expr hexpr with rfl | rfl
    · cases hrhs
      cases hlhs
      cases hcol
      rcases List.mem_pair.mp hval with rfl | rfl
      · exact ⟨rfl, by decide⟩
      · exact ⟨rfl, by decide⟩
    · cases hrhs
  · intro expr hexpr subQuery hrhs
    rcases hcases expr hexpr with rfl | rfl
    · cases hrhs
    · cases hrhs

theorem select_applies_subqueries_in :
    ∃ exec : Executor, inAndOtherPlan.Yields twoRowsDatabase 4 exec [[1, 0, 0, 0, 7, 0, 0, 0]] ∧
      ∃ plan', inAndOtherQuery.makeOneRel indexCatalog ⟨true, false⟩ (fun _ _ => none) =
        some plan' ∧ plan'.Yields indexDatabase 4 exec [[1, 0, 0, 0, 7, 0, 0, 0]] := by
  have hyields : ∃ exec, inAndOtherPlan.Yields twoRowsDatabase 4 exec
      [[1, 0, 0, 0, 7, 0, 0, 0]] := ⟨_, rfl, _, rfl, .cons rfl rfl rfl (.nil rfl)⟩
  obtain ⟨exec, hexec⟩ := hyields
  have hsame : SameCols pairCatalog indexCatalog := ⟨fun _ => rfl⟩
  exact ⟨exec, hexec, (select_applies_subqueries twoRowsDatabase indexDatabase 4 ⟨true, false⟩
    (fun _ => some ()) (fun _ _ => none) (fun _ _ => none) ["a"] inAndOther
    ((getAllCols pairCatalog ["a"]).getD []) inAndOtherQuery inAndOtherPlan exec _
    (by decide +kernel) (by decide +kernel) ⟨_, List.mem_cons_self, rfl⟩ (by decide +kernel) hexec
    hsame rfl inAndOther_reaches).2.2⟩

/-- `a.x IN (1)`. -/
def inOne : BinaryExpr Unit := ⟨⟨"a", "x"⟩, true, .eq, .valueList [.int 1]⟩

def inOneQuery : Query Unit := ⟨["a"], [], some ⟨⟨"a", "x"⟩, none, true, true, .inr [.int 1]⟩⟩

/-- With an index on `x`, `SELECT * FROM a WHERE x IN (1)` has a record with `x = 2`. -/
theorem indexScan_skips_subquery :
    ∃ plan exec rows,
      analyzeSelect indexCatalog (fun _ => some ()) ["a"] [inOne] = some inOneQuery ∧
      inOneQuery.makeOneRel indexCatalog ⟨true, false⟩ (fun _ _ => none) = some plan ∧
      plan.Yields indexDatabase 2 exec rows ∧ ∃ row ∈ rows, ∀ vals,
        inOne.Values indexDatabase 2 (fun _ => some ()) (fun _ _ => none) vals →
        ¬inOne.SatisfiedBy ((getAllCols indexCatalog ["a"]).getD []) exec.cols vals row := by
  refine ⟨.scanSub ⟨true, "a", [], ["x"]⟩ ⟨⟨"a", "x"⟩, none, true⟩
    (.values [.int 1] ⟨"a", "x", .int, 4, 0⟩), _, _, by decide +kernel, by decide +kernel,
    ⟨rfl, _, rfl, .cons rfl rfl rfl (.cons rfl rfl rfl (.nil rfl))⟩,
    [2, 0, 0, 0, 5, 0, 0, 0], List.mem_cons_of_mem _ List.mem_cons_self, ?_⟩
  rintro vals hvals ⟨lhs, left, hlhs, hleft, hin⟩
  cases hvals
  cases hlhs
  have htwo : left = .int 2 := by
    cases hleft
    rfl
  subst htwo
  obtain ⟨val, hval, hcomp⟩ := hin
  cases List.mem_singleton.mp hval
  cases hcomp

end Grmdb
