import Grmdb.CondsKept
import Grmdb.SubquerySlot

namespace Grmdb

open MapM

section

variable {σ ρ : Type}

def Subquery.clause (subquery : Subquery ρ) : SubQueryClause :=
  ⟨subquery.lhs, subquery.op, subquery.inClause⟩

/-- The plan that `make_one_rel` puts under the scan of the table at `i`; `selectPlan` is the
`i`-th call of `generate_select_plan` for the analyzed subquery. The flag decides, so a subquery
that comes after a list of values is planned as an empty list. -/
def Subquery.plan (cat : Catalog) (selectPlan : ρ → Nat → Option Plan) (subquery : Subquery ρ)
    (i : Nat) : Option Plan :=
  if subquery.valueList then
    (cat subquery.lhs.tabName).bind fun tab =>
      (tab.getCol subquery.lhs.colName).map fun col =>
        .values (subquery.sub.elim (fun _ => []) id) col
  else subquery.sub.elim (fun query => selectPlan query i) fun _ => none

/-- `make_one_rel` for an analyzed query. -/
def Query.makeOneRel (cat : Catalog) (knobs : JoinKnobs) (selectPlan : ρ → Nat → Option Plan)
    (query : Query ρ) : Option Plan :=
  match query.subquery with
  | none => Grmdb.makeOneRel cat knobs (fun _ s => .scan s) query.tables query.conds
  | some subquery =>
    ((List.range query.tables.length).mapM (subquery.plan cat selectPlan)).bind fun plans =>
      Grmdb.makeOneRel cat knobs (fun i s => .scanSub s subquery.clause (plans.getD i .null))
        query.tables query.conds

/-- The conditions of a query in its final plan: each scan has those on its table, and each of the
others is on a join between its tables. -/
structure KeepsWhere (tables : List String) (conds : List Condition) (plan : Plan) : Prop where
  tables : plan.scanTabs.Perm tables
  onScan : ∀ s ∈ plan.scans, s.conds.Perm (conds.filter fun cond => cond.onTable s.tabName)
  all : ∃ there, List.Forall₂ Condition.Mirrors conds there ∧
    (plan.scans.flatMap ScanPlan.conds ++ plan.joinConds).Perm there
  placed : plan.JoinsPlaced

/-- The same for the conditions with a subquery or a list of values, which go into the slot of the
query and with it to every scan. -/
def KeepsSubqueries (analyzeSub : σ → Option ρ) (allCols : List ColMeta)
    (svConds : List (BinaryExpr σ)) (query : Query ρ) (plan : Plan) : Prop :=
  ∀ expr ∈ svConds, expr.isSub = true → ∃ slot, query.subquery = some slot ∧
    slot.Holds analyzeSub allCols expr ∧ ∀ t ∈ plan.scanTabs, t = slot.lhs.tabName

def Condition.isJoin (cond : Condition) : Bool :=
  !cond.isRhsVal && decide (cond.lhsCol.tabName ≠ cond.rhsCol.tabName)

/-- Whether the scan of the table is an index scan. -/
def indexScanned (cat : Catalog) (conds : List Condition) (t : String) : Bool :=
  (getIndexCols cat t (conds.filter fun cond => cond.onTable t)).any fun cols => cols.2.isSome

/-- When the planner brings the conditions to their scans and joins. -/
structure PlacesConds (cat : Catalog) (knobs : JoinKnobs) (tables : List String)
    (conds : List Condition) : Prop where
  inFrom : ∀ cond ∈ conds, ∀ t ∈ cond.tables, t ∈ tables
  sameFirst : ∀ cond ∈ conds, cond.SameTable → tables.head? = some cond.lhsCol.tabName
  once : ∀ cond ∈ conds, ∀ t, cond.onTable t = true → tables.count t ≤ 1
  indexes : ∀ t ∈ tables, ∀ tab, cat t = some tab →
    tab.KeepsConds (conds.filter fun cond => cond.onTable t)
  joins : JoinsReach knobs (indexScanned cat conds) (conds.filter fun cond => cond.isJoin)

/-- A leaf of the plan is its scan, whatever comes with it. -/
structure ScanLeaf (leaf : Nat → ScanPlan → Plan) : Prop where
  tabName : ∀ i s, (leaf i s).tabName = some s.tabName
  scans : ∀ i s, (leaf i s).scans = [s]
  isIndexScan : ∀ i s, (leaf i s).isIndexScan = s.indexScan
  joinConds : ∀ i s, (leaf i s).joinConds = []
  placed : ∀ i s, (leaf i s).JoinsPlaced

theorem Query.makeOneRel_eq {cat : Catalog} {knobs : JoinKnobs}
    {selectPlan : ρ → Nat → Option Plan} {query : Query ρ} {plan : Plan}
    (h : query.makeOneRel cat knobs selectPlan = some plan) :
    ∃ leaf, ScanLeaf leaf ∧
      Grmdb.makeOneRel cat knobs leaf query.tables query.conds = some plan := by
  unfold makeOneRel at h
  split at h
  next =>
    refine ⟨_, ?_, h⟩
    exact ⟨fun _ _ => rfl, fun _ _ => rfl, fun _ _ => rfl, fun _ _ => rfl, fun _ _ => trivial⟩
  next =>
    obtain ⟨plans, -, h⟩ := Option.bind_eq_some_iff.mp h
    refine ⟨_, ?_, h⟩
    exact ⟨fun _ _ => rfl, fun _ _ => rfl, fun _ _ => rfl, fun _ _ => rfl, fun _ _ => trivial⟩

end

section Plans

variable {cat : Catalog} {knobs : JoinKnobs} {leaf : Nat → ScanPlan → Plan}
  {tables : List String} {conds left : List Condition} {plan : Plan} {scans : List ScanPlan}

theorem mapIdx_scans (hleaf : ScanLeaf leaf) (scans : List ScanPlan) :
    (scans.mapIdx leaf).flatMap Plan.scans = scans := by
  induction scans generalizing leaf with
  | nil => rfl
  | cons s scans ih =>
    rw [List.mapIdx_cons, List.flatMap_cons, hleaf.scans]
    have hshift : ScanLeaf fun i => leaf (i + 1) := ⟨fun i => hleaf.tabName (i + 1),
      fun i => hleaf.scans (i + 1), fun i => hleaf.isIndexScan (i + 1),
      fun i => hleaf.joinConds (i + 1), fun i => hleaf.placed (i + 1)⟩
    rw [ih hshift]
    rfl

theorem mapIdx_mem {p : Plan} (hp : p ∈ scans.mapIdx leaf) : ∃ i, ∃ s ∈ scans, p = leaf i s := by
  obtain ⟨i, hi, rfl⟩ := List.mem_mapIdx.mp hp
  exact ⟨i, _, List.getElem_mem hi, rfl⟩

theorem mem_mapIdx_tabName (hleaf : ScanLeaf leaf) {t : String}
    (ht : t ∈ scans.map ScanPlan.tabName) :
    some t ∈ (scans.mapIdx leaf).map Plan.tabName := by
  obtain ⟨s, hs, rfl⟩ := List.mem_map.mp ht
  obtain ⟨i, hi, rfl⟩ := List.getElem_of_mem hs
  refine List.mem_map.mpr ⟨leaf i (scans[i]), ?_, hleaf.tabName i _⟩
  exact List.mem_mapIdx.mpr ⟨i, hi, rfl⟩

/-- What is left for the joins are the conditions between two tables. -/
theorem left_eq (hin : ∀ cond ∈ conds, ∀ t ∈ cond.tables, t ∈ tables)
    (h : scanTables cat tables conds = some (scans, left)) :
    left = conds.filter fun cond => cond.isJoin := by
  rw [scanTables_left h]
  refine List.filter_congr fun cond hcond => ?_
  have hlhs : cond.lhsCol.tabName ∈ tables := hin cond hcond _ List.mem_cons_self
  rw [Bool.eq_iff_iff, List.all_eq_true]
  simp only [Bool.not_eq_true', Condition.isJoin, Bool.and_eq_true, decide_eq_true_eq]
  constructor
  · intro hall
    have hnot := fun t ht => (Bool.not_eq_true _).mpr (hall t ht)
    refine ⟨?_, fun heq => ?_⟩
    · cases hval : cond.isRhsVal with
      | false => rfl
      | true => exact absurd (by simp [Condition.popped, hval]) (hnot _ hlhs)
    · exact hnot _ hlhs (by simp [Condition.popped, heq])
  · rintro ⟨hval, hdiff⟩ t -
    simp [Condition.popped, hval, hdiff]

theorem isJoin_joins (hchecked : ∀ cond ∈ conds, cond.Checked)
    (hin : ∀ cond ∈ conds, ∀ t ∈ cond.tables, t ∈ tables) (hleaf : ScanLeaf leaf)
    (hnames : scans.map ScanPlan.tabName = tables) :
    ∀ cond ∈ conds.filter (fun cond => cond.isJoin), cond.Joins (scans.mapIdx leaf) := by
  intro cond hcond
  obtain ⟨hmem, hjoin⟩ := List.mem_filter.mp hcond
  simp only [Condition.isJoin, Bool.and_eq_true, Bool.not_eq_true', decide_eq_true_eq] at hjoin
  have htabs := hin cond hmem
  simp only [Condition.tables, hjoin.1, Bool.false_eq_true, if_false] at htabs
  rw [← hnames] at htabs
  have hch := hchecked cond hmem
  exact ⟨mem_mapIdx_tabName hleaf (htabs _ (by simp)), mem_mapIdx_tabName hleaf (htabs _ (by simp)),
    hjoin.2, hch.lhs, hch.rhs hjoin.1⟩

section Joins

variable (hne : tables ≠ []) (hleaf : ScanLeaf leaf) (hchecked : ∀ cond ∈ conds, cond.Checked)
  (hin : ∀ cond ∈ conds, ∀ t ∈ cond.tables, t ∈ tables)
  (hscans : scanTables cat tables conds = some (scans, left))

include hne hleaf hchecked hin hscans

/-- `make_one_rel` over one table, or over its joins. -/
theorem makeOneRel_cases (h : makeOneRel cat knobs leaf tables conds = some plan) :
    (∃ s, scans = [s] ∧ left = [] ∧ plan = leaf 0 s) ∨
      (scans.mapIdx leaf ≠ [] ∧ (∀ p ∈ scans.mapIdx leaf, ∃ t, p.tabName = some t) ∧
        (∀ cond ∈ left, cond.Joins (scans.mapIdx leaf)) ∧
        joinTables knobs (scans.mapIdx leaf) left = some plan) := by
  have hnames := scanTables_names hscans
  have hjoins := isJoin_joins hchecked hin hleaf hnames
  rw [← left_eq hin hscans] at hjoins
  simp only [makeOneRel, hscans, Option.bind_some] at h
  split at h
  next hone =>
    obtain ⟨t, rfl⟩ := List.length_eq_one_iff.mp hone
    obtain ⟨s, rfl⟩ := List.length_eq_one_iff.mp (by simpa using congrArg List.length hnames)
    refine Or.inl ⟨s, rfl, ?_, by simpa using h.symm⟩
    refine List.eq_nil_iff_forall_not_mem.mpr fun cond hcond => ?_
    have hj := hjoins cond hcond
    have hl := hj.lhs
    have hr := hj.rhs
    simp only [List.mapIdx_cons, List.mapIdx_nil, List.map_cons, List.map_nil,
      List.mem_singleton, hleaf.tabName, Option.some_inj] at hl hr
    exact hj.ne (hl.trans hr.symm)
  next =>
    refine Or.inr ⟨fun hnil => ?_, fun p hp => ?_, hjoins, h⟩
    · rw [List.mapIdx_eq_nil_iff.mp hnil] at hnames
      exact hne hnames.symm
    · obtain ⟨i, s, -, rfl⟩ := mapIdx_mem hp
      exact ⟨s.tabName, hleaf.tabName i s⟩

theorem makeOneRel_scans (h : makeOneRel cat knobs leaf tables conds = some plan) :
    plan.scans.Perm scans := by
  rcases makeOneRel_cases hne hleaf hchecked hin hscans h with
    ⟨s, rfl, -, rfl⟩ | ⟨hplans, htabs, hjoins, htop⟩
  · rw [hleaf.scans]
  · have hperm := joinTables_scans hplans htabs hjoins htop
    rwa [mapIdx_scans hleaf] at hperm

theorem makeOneRel_joins {indexed : String → Bool}
    (hindexed : ∀ s ∈ scans, s.indexScan = indexed s.tabName)
    (h : makeOneRel cat knobs leaf tables conds = some plan) :
    (JoinsReach knobs indexed left → JoinsKept (scans.mapIdx leaf) left plan) ∧
      (¬JoinsReach knobs indexed left → plan.joinConds.length < left.length) := by
  rcases makeOneRel_cases hne hleaf hchecked hin hscans h with
    ⟨s, rfl, rfl, rfl⟩ | ⟨hplans, htabs, hjoins, htop⟩
  · refine ⟨fun _ => ⟨?_, ⟨[], List.Forall₂.nil, ?_⟩, hleaf.placed 0 s⟩,
      fun hnot => absurd trivial hnot⟩
    · rw [hleaf.scans, mapIdx_scans hleaf]
    · rw [hleaf.joinConds]
  · refine joinTables_keeps hplans htabs ?_ hjoins htop
    intro p hp t ht
    obtain ⟨i, s, hs, rfl⟩ := mapIdx_mem hp
    rw [hleaf.tabName] at ht
    cases ht
    rw [hleaf.isIndexScan]
    exact hindexed s hs

end Joins

/-- Kept conditions are on tables of the FROM clause. -/
theorem KeepsWhere.inFrom (hchecked : ∀ cond ∈ conds, cond.Checked)
    (h : KeepsWhere tables conds plan) : ∀ cond ∈ conds, ∀ t ∈ cond.tables, t ∈ tables := by
  obtain ⟨there, hall, hperm⟩ := h.all
  intro cond hcond t ht
  obtain ⟨cond', hcond', hmirror⟩ := forall₂_mem_left hall hcond
  have htabs : t = cond.lhsCol.tabName ∨ cond.isRhsVal = false ∧ t = cond.rhsCol.tabName := by
    unfold Condition.tables at ht
    cases hval : cond.isRhsVal with
    | true => simpa [hval] using ht
    | false => simpa [hval] using ht
  rcases List.mem_append.mp (hperm.mem_iff.mpr hcond') with hscan | hjoin
  · obtain ⟨s, hs, hin⟩ := List.mem_flatMap.mp hscan
    obtain ⟨hmem, hon⟩ := List.mem_filter.mp ((h.onScan s hs).mem_iff.mp hin)
    have hfrom : s.tabName ∈ tables := h.tables.mem_iff.mp (List.mem_map_of_mem hs)
    suffices hst : t = s.tabName by
      rw [hst]
      exact hfrom
    have hlhs := Condition.onTable_lhs hon
    simp only [Condition.onTable, Bool.and_eq_true, Bool.or_eq_true, beq_iff_eq] at hon
    have hch := hchecked cond' hmem
    rcases hmirror with rfl | rfl
    · rcases htabs with rfl | ⟨hval, rfl⟩
      · exact hlhs
      · exact hon.2.resolve_left (by simp [hval])
    · rcases htabs with rfl | ⟨hval, rfl⟩
      · refine hon.2.resolve_left fun hval => hch.lhs ?_
        exact (hchecked cond hcond).val hval
      · exact hlhs
  · have hplaced := Plan.JoinsPlaced.mem h.placed hjoin
    have hfrom : ∀ u ∈ plan.scanTabs, u ∈ tables := fun u hu => h.tables.mem_iff.mp hu
    rcases hmirror with rfl | rfl
    · rcases htabs with rfl | ⟨-, rfl⟩
      · exact hfrom _ hplaced.1
      · exact hfrom _ hplaced.2
    · rcases htabs with rfl | ⟨-, rfl⟩
      · exact hfrom _ hplaced.2
      · exact hfrom _ hplaced.1

section Places

variable (hchecked : ∀ cond ∈ conds, cond.Checked)
  (hsame : ∀ cond ∈ conds, cond.SameTable → tables.head? = some cond.lhsCol.tabName)
  (honce : ∀ cond ∈ conds, ∀ t, cond.onTable t = true → tables.count t ≤ 1)
  (hscans : scanTables cat tables conds = some (scans, left))

include hchecked hsame honce hscans

theorem scanTables_indexed : ∀ s ∈ scans, s.indexScan = indexScanned cat conds s.tabName := by
  intro s hs
  obtain ⟨t, -, hof⟩ := forall₂_mem_right (scanTables_scanOf hchecked hsame honce hscans).1 hs
  obtain ⟨names, hcols, hindex⟩ := hof.cols
  rw [indexScanned, hof.table, hcols, hindex]
  rfl

theorem scanTables_perm_iff :
    (∀ s ∈ scans, s.conds.Perm (conds.filter fun cond => cond.onTable s.tabName)) ↔
      ∀ t ∈ tables, ∀ tab, cat t = some tab →
        tab.KeepsConds (conds.filter fun cond => cond.onTable t) := by
  have hof := (scanTables_scanOf hchecked hsame honce hscans).1
  have hon : ∀ t, ∀ cond ∈ conds.filter (fun cond => cond.onTable t), cond.lhsCol.tabName = t :=
    fun t cond hcond => Condition.onTable_lhs (List.mem_filter.mp hcond).2
  constructor
  · intro hall t ht tab htab
    obtain ⟨s, hs, hst⟩ := forall₂_mem_left hof ht
    obtain ⟨names, hcols, -⟩ := hst.cols
    refine (getIndexCols_perm_iff htab (hon t) hcols).mp ?_
    rw [← hst.table]
    exact hall s hs
  · intro hall s hs
    obtain ⟨t, ht, hst⟩ := forall₂_mem_right hof hs
    obtain ⟨names, hcols, -⟩ := hst.cols
    obtain ⟨tab, htab⟩ := Option.isSome_iff_exists.mp (scanTables_cat hscans t ht)
    rw [hst.table]
    exact (getIndexCols_perm_iff htab (hon t) hcols).mpr (hall t ht tab htab)

/-- The scans and the joins share the conditions out. -/
theorem scanTables_shares
    (hperm : ∀ s ∈ scans, s.conds.Perm (conds.filter fun cond => cond.onTable s.tabName)) :
    (scans.flatMap ScanPlan.conds ++ left).Perm conds := by
  obtain ⟨hof, hall⟩ := scanTables_scanOf hchecked hsame honce hscans
  refine List.Perm.trans (List.Perm.append_right left ?_) hall
  rw [← scanTables_names hscans, List.flatMap_map]
  exact List.Perm.flatMap_left scans hperm

end Places

theorem KeepsWhere.places (hne : tables ≠ []) (hleaf : ScanLeaf leaf)
    (hchecked : ∀ cond ∈ conds, cond.Checked)
    (h : makeOneRel cat knobs leaf tables conds = some plan)
    (hkeeps : KeepsWhere tables conds plan) : PlacesConds cat knobs tables conds := by
  obtain ⟨⟨scans, left⟩, hscans, -⟩ := Option.bind_eq_some_iff.mp h
  have hnames := scanTables_names hscans
  have hin := hkeeps.inFrom hchecked
  have hperm := makeOneRel_scans hne hleaf hchecked hin hscans h
  have honScan : ∀ s ∈ scans, s.conds.Perm (conds.filter fun cond => cond.onTable s.tabName) :=
    fun s hs => hkeeps.onScan s (hperm.mem_iff.mpr hs)
  have hsame : ∀ cond ∈ conds, cond.SameTable → tables.head? = some cond.lhsCol.tabName := by
    intro cond hcond hst
    obtain ⟨s, hs⟩ : ∃ s, scans.head? = some s := by
      cases scans with
      | nil => exact absurd hnames.symm hne
      | cons s rest => exact ⟨s, rfl⟩
    obtain ⟨hhead, hmem⟩ := scanTables_sameTable hchecked hscans hcond hst hs
    have hon := (honScan s (List.mem_of_head? hs)).mem_iff.mp hmem
    rw [hhead, Condition.onTable_lhs (List.mem_filter.mp hon).2]
  have honce : ∀ cond ∈ conds, ∀ t, cond.onTable t = true → tables.count t ≤ 1 := by
    intro cond hcond t hon
    refine scanTables_once hchecked hscans hcond hon fun s hs hst => ?_
    rw [(honScan s hs).mem_iff, hst]
    exact List.mem_filter.mpr ⟨hcond, hon⟩
  have hindexed := scanTables_indexed hchecked hsame honce hscans
  refine ⟨hin, hsame, honce, (scanTables_perm_iff hchecked hsame honce hscans).mp honScan, ?_⟩
  rw [← left_eq hin hscans]
  by_contra hnot
  -- a condition is missing: the scans and the joins have fewer than there are
  have hfewer := (makeOneRel_joins hne hleaf hchecked hin hscans hindexed h).2 hnot
  have htotal := scanTables_length hscans
  obtain ⟨there, hmirrors, hthere⟩ := hkeeps.all
  have hlen := hthere.length_eq
  rw [← hmirrors.length_eq, List.length_append, (hperm.flatMap_right _).length_eq] at hlen
  omega

theorem PlacesConds.keeps (hne : tables ≠ []) (hleaf : ScanLeaf leaf)
    (hchecked : ∀ cond ∈ conds, cond.Checked)
    (h : makeOneRel cat knobs leaf tables conds = some plan)
    (hplaces : PlacesConds cat knobs tables conds) : KeepsWhere tables conds plan := by
  obtain ⟨⟨scans, left⟩, hscans, -⟩ := Option.bind_eq_some_iff.mp h
  have hnames := scanTables_names hscans
  have hindexed := scanTables_indexed hchecked hplaces.sameFirst hplaces.once hscans
  have honScan := (scanTables_perm_iff hchecked hplaces.sameFirst hplaces.once hscans).mpr
    hplaces.indexes
  have hshares := scanTables_shares hchecked hplaces.sameFirst hplaces.once hscans honScan
  have hperm := makeOneRel_scans hne hleaf hchecked hplaces.inFrom hscans h
  have hkept := (makeOneRel_joins hne hleaf hchecked hplaces.inFrom hscans hindexed h).1
  have hreach := hplaces.joins
  rw [← left_eq hplaces.inFrom hscans] at hreach
  obtain ⟨there, hmirrors, hthere⟩ := (hkept hreach).conds
  refine ⟨?_, fun s hs => honScan s (hperm.mem_iff.mp hs), ?_, (hkept hreach).placed⟩
  · rw [← hnames]
    exact hperm.map _
  · have hrefl : List.Forall₂ Condition.Mirrors (scans.flatMap ScanPlan.conds)
        (scans.flatMap ScanPlan.conds) := List.forall₂_same.mpr fun cond _ => Or.inl rfl
    obtain ⟨all, hall, hsame⟩ := List.perm_comp_forall₂ hshares.symm (List.rel_append hrefl hmirrors)
    refine ⟨all, hall, ?_⟩
    exact ((hperm.flatMap_right _).append hthere).trans hsame.symm

end Plans

section Select

variable {σ ρ : Type}

/-- When the one slot of the query serves every condition for it: they are the same, a list of
values comes with IN, and every table of the FROM clause is the one of their column. -/
structure SlotServes (analyzeSub : σ → Option ρ) (allCols : List ColMeta) (tables : List String)
    (svConds : List (BinaryExpr σ)) : Prop where
  one : OneSubquery analyzeSub allCols svConds
  table : ∀ expr ∈ svConds, expr.isSub = true → ∀ t ∈ tables,
    (checkColumn allCols expr.lhs).map TabCol.tabName = some t

/-- The conditions of a query reach their scans and joins, and none is left out, exactly when the
planner and the slot for subqueries have a place for them. -/
theorem makeOneRel_keepsWhere_iff (cat : Catalog) (knobs : JoinKnobs) (analyzeSub : σ → Option ρ)
    (selectPlan : ρ → Nat → Option Plan) (tables : List String) (svConds : List (BinaryExpr σ))
    (allCols : List ColMeta) (query : Query ρ) (plan : Plan) (hne : tables ≠ [])
    (hcols : getAllCols cat tables = some allCols)
    (hquery : analyzeSelect cat analyzeSub tables svConds = some query)
    (hplan : query.makeOneRel cat knobs selectPlan = some plan) :
    (KeepsWhere tables query.conds plan ∧
      KeepsSubqueries analyzeSub allCols svConds query plan) ↔
    (PlacesConds cat knobs tables query.conds ∧
      SlotServes analyzeSub allCols tables svConds) := by
  have hchecked := analyzeSelect_checked hquery
  obtain ⟨allCols', hcols', -, hslot, htables⟩ := analyzeSelect_eq hquery
  cases hcols.symm.trans hcols'
  obtain ⟨leaf, hleaf, h⟩ := Query.makeOneRel_eq hplan
  rw [htables] at h
  have hone := slot_holds_iff hslot
  constructor
  · rintro ⟨hkeeps, hsubs⟩
    refine ⟨hkeeps.places hne hleaf hchecked h, ?_, fun expr hexpr hsub t ht => ?_⟩
    · refine hone.mp fun expr hexpr hsub => ?_
      obtain ⟨slot, hsome, hholds, -⟩ := hsubs expr hexpr hsub
      exact ⟨slot, hsome, hholds⟩
    · obtain ⟨slot, -, hholds, htabs⟩ := hsubs expr hexpr hsub
      rw [hholds.lhs, htabs t (hkeeps.tables.mem_iff.mpr ht)]
      rfl
  · rintro ⟨hplaces, hserves⟩
    have hkeeps := hplaces.keeps hne hleaf hchecked h
    refine ⟨hkeeps, fun expr hexpr hsub => ?_⟩
    obtain ⟨slot, hsome, hholds⟩ := hone.mpr hserves.one expr hexpr hsub
    refine ⟨slot, hsome, hholds, fun t ht => ?_⟩
    have htable := hserves.table expr hexpr hsub t (hkeeps.tables.mem_iff.mp ht)
    rw [hholds.lhs] at htable
    exact (Option.some.inj htable).symm

/-- A catalog in which every table has the columns `x` and `y` and no index. -/
def pairCatalog : Catalog := fun t => some ⟨t, [⟨t, "x", .int, 4, 0⟩, ⟨t, "y", .int, 4, 4⟩], []⟩

/-- `a.x = 1 AND a.x = a.y AND b.y < a.y`. -/
def mixedConds : List (BinaryExpr Unit) :=
  [⟨⟨"a", "x"⟩, false, .eq, .value (.int 1)⟩, ⟨⟨"a", "x"⟩, false, .eq, .col ⟨"a", "y"⟩⟩,
    ⟨⟨"b", "y"⟩, false, .lt, .col ⟨"a", "y"⟩⟩]

def mixedQuery : Query Unit :=
  ⟨["a", "b"], [⟨⟨"a", "x"⟩, .eq, true, ⟨"", ""⟩, some (.int 1)⟩,
    ⟨⟨"a", "x"⟩, .eq, false, ⟨"a", "y"⟩, none⟩, ⟨⟨"b", "y"⟩, .lt, false, ⟨"a", "y"⟩, none⟩], none⟩

def mixedPlan : Plan :=
  .join false (.scan ⟨false, "b", [], []⟩)
    (.scan ⟨false, "a", [⟨⟨"a", "x"⟩, .eq, true, ⟨"", ""⟩, some (.int 1)⟩,
      ⟨⟨"a", "x"⟩, .eq, false, ⟨"a", "y"⟩, none⟩], []⟩)
    [⟨⟨"b", "y"⟩, .lt, false, ⟨"a", "y"⟩, none⟩]

theorem makeOneRel_keepsWhere_mixed :
    KeepsWhere ["a", "b"] mixedQuery.conds mixedPlan ∧
      KeepsSubqueries (fun _ => some ()) ((getAllCols pairCatalog ["a", "b"]).getD []) mixedConds
        mixedQuery mixedPlan := by
  have hplain : ∀ expr ∈ mixedConds, expr.isSub = false := by decide
  refine (makeOneRel_keepsWhere_iff pairCatalog ⟨true, false⟩ (fun _ => some ()) (fun _ _ => none)
    ["a", "b"] mixedConds _ mixedQuery mixedPlan (by decide) (by decide) (by decide +kernel)
    (by decide +kernel)).mpr ⟨⟨by decide, ?_, ?_, ?_, Or.inl rfl⟩, ?_, ?_⟩
  · rintro cond hcond ⟨hcol, htab⟩
    revert cond
    decide
  · intro cond hcond t hon
    rw [← Condition.onTable_lhs hon]
    have honce : ∀ cond ∈ mixedQuery.conds,
        List.count cond.lhsCol.tabName ["a", "b"] ≤ 1 := by decide
    exact honce cond hcond
  · rintro t - tab htab -
    cases htab
    trivial
  · refine ⟨fun expr hexpr values hrhs => ?_, fun expr hexpr expr' _ hsub => ?_⟩
    · have hnot := hplain expr hexpr
      simp [BinaryExpr.isSub, hrhs] at hnot
    · simp [hplain expr hexpr] at hsub
  · intro expr hexpr hsub
    simp [hplain expr hexpr] at hsub

/-- `b.x = b.y`. -/
def lateConds : List (BinaryExpr Unit) := [⟨⟨"b", "x"⟩, false, .eq, .col ⟨"b", "y"⟩⟩]

/-- `SELECT * FROM a, b WHERE b.x = b.y` gives the condition to the scan of `a`. -/
theorem makeOneRel_condition_on_wrong_scan :
    ∃ (query : Query Unit) (plan : Plan),
      analyzeSelect pairCatalog (fun _ => some ()) ["a", "b"] lateConds = some query ∧
      query.makeOneRel pairCatalog ⟨true, false⟩ (fun _ _ => none) = some plan ∧
      ¬KeepsWhere ["a", "b"] query.conds plan := by
  refine ⟨⟨["a", "b"], [⟨⟨"b", "x"⟩, .eq, false, ⟨"b", "y"⟩, none⟩], none⟩,
    .join false (.scan ⟨false, "b", [], []⟩)
      (.scan ⟨false, "a", [⟨⟨"b", "x"⟩, .eq, false, ⟨"b", "y"⟩, none⟩], []⟩) [],
    by decide +kernel, by decide +kernel, fun h => ?_⟩
  have hscan := h.onScan _ (List.mem_cons_of_mem _ List.mem_cons_self)
  exact absurd hscan.length_eq (by decide)

end Select

end Grmdb
