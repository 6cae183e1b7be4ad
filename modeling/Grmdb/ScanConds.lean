import Grmdb.JoinTree
import Grmdb.QueryAnalyze

namespace Grmdb

open MapM

/-- Every column of the condition is one of the table. -/
def Condition.onTable (cond : Condition) (tabName : String) : Bool :=
  cond.lhsCol.tabName == tabName && (cond.isRhsVal || cond.rhsCol.tabName == tabName)

/-- The tables that the condition names. -/
def Condition.tables (cond : Condition) : List String :=
  cond.lhsCol.tabName :: if cond.isRhsVal then [] else [cond.rhsCol.tabName]

namespace IndexMeta

/-- No match on the way of `MatchIndexMultiple` uses a column of its index twice. -/
def RepeatFree (conds : List Condition) : List IndexMeta → Nat → Prop
  | [], _ => True
  | index :: rest, maxMatchNum =>
    if index.colNum < maxMatchNum ∧ (index.matchIndex conds).isSome then
      ((index.cols.map ColMeta.name).take conds.length).Nodup ∧ RepeatFree conds rest index.colNum
    else RepeatFree conds rest maxMatchNum

variable {index : IndexMeta} {conds conds' newConds : List Condition}

/-- `newConds` are the only conditions on their columns, which are `names`. -/
def Picks (conds newConds : List Condition) (names : List String) : Prop :=
  List.Forall₂ (fun cond name => conds.filter (fun c => c.lhsCol.colName = name) = [cond])
    newConds names

theorem matchedConds_picks (conds : List Condition) (cols : List ColMeta) :
    Picks conds (matchedConds conds cols)
      ((cols.map ColMeta.name).take (matchedConds conds cols).length) := by
  induction cols with
  | nil => exact List.Forall₂.nil
  | cons col cols ih =>
    unfold matchedConds
    simp only
    split
    next cond hone =>
      rw [List.map_cons, List.length_cons, List.take_succ_cons]
      refine List.Forall₂.cons hone ?_
      split
      next => exact ih
      next => exact List.Forall₂.nil
    next => exact List.Forall₂.nil

theorem Picks.mem {names : List String} (h : Picks conds newConds names) {cond : Condition}
    (hcond : cond ∈ newConds) :
    cond ∈ conds ∧ conds.filter (fun c => c.lhsCol.colName = cond.lhsCol.colName) = [cond] := by
  induction h with
  | nil => simp at hcond
  | @cons c name newConds names hone _ ih =>
    rcases List.mem_cons.mp hcond with rfl | hcond
    · have hmem : cond ∈ conds.filter fun c => c.lhsCol.colName = name := by
        rw [hone]
        exact List.mem_singleton_self cond
      obtain ⟨hin, hname⟩ := List.mem_filter.mp hmem
      rw [of_decide_eq_true hname]
      exact ⟨hin, hone⟩
    · exact ih hcond

theorem Picks.names {names : List String} (h : Picks conds newConds names) :
    newConds.map (fun cond => cond.lhsCol.colName) = names := by
  induction h with
  | nil => rfl
  | @cons c name newConds names hone _ ih =>
    have hmem : c ∈ conds.filter fun c => c.lhsCol.colName = name := by
      rw [hone]
      exact List.mem_singleton_self c
    rw [List.map_cons, ih, of_decide_eq_true (List.mem_filter.mp hmem).2]

/-- Picking as many conditions as there are loses none exactly when no column comes twice. -/
theorem Picks.perm_iff {names : List String} (h : Picks conds newConds names)
    (hlen : newConds.length = conds.length) : newConds.Perm conds ↔ names.Nodup := by
  rw [← h.names]
  constructor
  · intro hperm
    refine List.nodup_iff_count_le_one.mpr fun name => ?_
    rw [(hperm.map _).count_eq name]
    by_cases hname : name ∈ newConds.map fun cond => cond.lhsCol.colName
    · obtain ⟨cond, hcond, rfl⟩ := List.mem_map.mp hname
      have hone := (h.mem hcond).2
      rw [List.count_eq_countP, List.countP_map, List.countP_eq_length_filter]
      have hsame : conds.filter ((fun n => n == cond.lhsCol.colName) ∘
          fun c => c.lhsCol.colName) = [cond] := by
        rw [← hone]
        refine List.filter_congr fun c _ => ?_
        rw [Bool.eq_iff_iff]
        simp
      rw [hsame]
      exact Nat.le_refl 1
    · rw [(hperm.map _).mem_iff] at hname
      rw [List.count_eq_zero_of_not_mem hname]
      exact Nat.zero_le 1
  · intro hnodup
    have hsub : newConds ⊆ conds := fun cond hcond => (h.mem hcond).1
    exact (List.subperm_of_subset hnodup.of_map hsub).perm_of_length_le (Nat.le_of_eq hlen.symm)

/-- Otherwise one of them is gone. -/
theorem Picks.lost {names : List String} (h : Picks conds newConds names)
    (hlen : newConds.length = conds.length) (hnot : ¬newConds.Perm conds) :
    ∃ cond ∈ conds, cond ∉ newConds := by
  by_contra hall
  push Not at hall
  have hcount : ∀ cond ∈ conds, conds.count cond ≤ 1 := by
    intro cond hcond
    have hone := (h.mem (hall cond hcond)).2
    have hle : conds.count cond ≤
        (conds.filter fun c => c.lhsCol.colName = cond.lhsCol.colName).length := by
      rw [List.count_eq_countP, ← List.countP_eq_length_filter]
      refine List.countP_mono_left fun c _ hc => ?_
      rw [eq_of_beq hc]
      exact decide_eq_true rfl
    rw [hone] at hle
    exact hle
  have hnodup : conds.Nodup := by
    refine List.nodup_iff_count_le_one.mpr fun cond => ?_
    by_cases hcond : cond ∈ conds
    · exact hcount cond hcond
    · rw [List.count_eq_zero_of_not_mem hcond]
      exact Nat.zero_le 1
  exact hnot ((List.subperm_of_subset hnodup hall).perm_of_length_le (Nat.le_of_eq hlen)).symm

theorem matchedConds_perm (h : conds'.Perm conds) (cols : List ColMeta) :
    matchedConds conds' cols = matchedConds conds cols := by
  induction cols with
  | nil => rfl
  | cons col cols ih =>
    have hperm := h.filter fun cond => decide (cond.lhsCol.colName = col.name)
    unfold matchedConds
    simp only
    cases hhere : conds.filter fun cond => decide (cond.lhsCol.colName = col.name) with
    | nil => rw [hhere, List.perm_nil] at hperm; rw [hperm]
    | cons cond rest =>
      cases rest with
      | nil =>
        rw [hhere, List.perm_singleton] at hperm
        rw [hperm]
        simp only [ih]
      | cons cond' rest =>
        rw [hhere] at hperm
        have hlen := hperm.length_eq
        split
        next c hone => simp [hone] at hlen
        next => rfl

theorem matchIndex_perm (h : conds'.Perm conds) :
    index.matchIndex conds' = index.matchIndex conds := by
  unfold matchIndex
  simp only [matchedConds_perm h, h.length_eq]

theorem matchIndex_picks (h : index.matchIndex conds = some newConds) :
    Picks conds newConds ((index.cols.map ColMeta.name).take conds.length) ∧
      newConds.length = conds.length := by
  unfold matchIndex at h
  simp only at h
  split at h
  next hlen =>
    cases h
    rw [← hlen]
    exact ⟨matchedConds_picks conds index.cols, rfl⟩
  next => cases h

theorem repeatFree_of_no_match {indexes : List IndexMeta}
    (h : ∀ index ∈ indexes, index.matchIndex conds = none) (maxMatchNum : Nat) :
    RepeatFree conds indexes maxMatchNum := by
  induction indexes with
  | nil => trivial
  | cons index rest ih =>
    rw [RepeatFree, h index List.mem_cons_self]
    simpa using ih fun i hi => h i (List.mem_cons_of_mem index hi)

theorem repeatFree_of_short (hshort : conds.length ≤ 1) (indexes : List IndexMeta)
    (maxMatchNum : Nat) : RepeatFree conds indexes maxMatchNum := by
  induction indexes generalizing maxMatchNum with
  | nil => trivial
  | cons index rest ih =>
    unfold RepeatFree
    split
    next =>
      refine ⟨?_, ih _⟩
      cases hcols : (index.cols.map ColMeta.name).take conds.length with
      | nil => exact List.nodup_nil
      | cons name names =>
        have hlen := congrArg List.length hcols
        simp only [List.length_take, List.length_cons] at hlen
        have hnil : names = [] := List.length_eq_zero_iff.mp (by omega)
        simp [hnil]
    next => exact ih _

/-- Two conditions on one column match no index. -/
theorem matchIndex_pair (index : IndexMeta) {cond cond' : Condition}
    (h : cond.lhsCol.colName = cond'.lhsCol.colName) : index.matchIndex [cond, cond'] = none := by
  have hnone : matchedConds [cond, cond'] index.cols = [] := by
    cases index.cols with
    | nil => rfl
    | cons col cols =>
      unfold matchedConds
      simp only [List.filter_cons, h]
      by_cases hcol : cond'.lhsCol.colName = col.name
      · simp [hcol]
      · simp [hcol]
  simp [matchIndex, hnone]

end IndexMeta

namespace TabMeta

open IndexMeta

variable {tab : TabMeta} {conds conds' : List Condition}

theorem matchIndexLoop_subset (indexes : List IndexMeta) (maxMatchNum : Nat)
    (chosen : Option IndexMeta) : (matchIndexLoop indexes maxMatchNum conds chosen).1 ⊆ conds := by
  induction indexes generalizing maxMatchNum conds chosen with
  | nil => exact List.Subset.refl conds
  | cons index rest ih =>
    unfold matchIndexLoop
    split
    next =>
      split
      next newConds hmatch =>
        obtain ⟨hpicks, -⟩ := matchIndex_picks hmatch
        exact List.Subset.trans (ih _ _) fun cond hcond => (hpicks.mem hcond).1
      next => exact ih _ _
    next => exact ih _ _

theorem matchIndexLoop_length (indexes : List IndexMeta) (maxMatchNum : Nat)
    (chosen : Option IndexMeta) :
    (matchIndexLoop indexes maxMatchNum conds chosen).1.length = conds.length := by
  induction indexes generalizing maxMatchNum conds chosen with
  | nil => rfl
  | cons index rest ih =>
    unfold matchIndexLoop
    split
    next =>
      split
      next newConds hmatch =>
        rw [ih]
        exact (matchIndex_picks hmatch).2
      next => exact ih _ _
    next => exact ih _ _

theorem matchIndexLoop_perm_iff (h : conds'.Perm conds) (indexes : List IndexMeta)
    (maxMatchNum : Nat) (chosen : Option IndexMeta) :
    (matchIndexLoop indexes maxMatchNum conds' chosen).1.Perm conds ↔
      RepeatFree conds indexes maxMatchNum := by
  induction indexes generalizing maxMatchNum conds' chosen with
  | nil => exact iff_of_true h trivial
  | cons index rest ih =>
    unfold matchIndexLoop RepeatFree
    rw [matchIndex_perm h]
    by_cases hcol : index.colNum < maxMatchNum
    · cases hmatch : index.matchIndex conds with
      | none => simpa [hcol] using ih h maxMatchNum chosen
      | some newConds =>
        obtain ⟨hpicks, hlen⟩ := matchIndex_picks hmatch
        simp only [hcol, if_true, Option.isSome_some, and_self]
        by_cases hperm : newConds.Perm conds
        · rw [ih hperm, and_iff_right ((hpicks.perm_iff hlen).mp hperm)]
        · -- the condition that is gone does not come back
          obtain ⟨cond, hcond, hlost⟩ := hpicks.lost hlen hperm
          refine iff_of_false (fun hback => ?_) fun hfree => ?_
          · exact hlost (matchIndexLoop_subset rest _ _ (hback.mem_iff.mpr hcond))
          · exact hperm ((hpicks.perm_iff hlen).mpr hfree.1)
    · simpa [hcol] using ih h maxMatchNum chosen

/-- The matching of indexes keeps all of the conditions of a scan. -/
def KeepsConds (tab : TabMeta) (conds : List Condition) : Prop :=
  (∀ cond ∈ conds, cond.isRhsVal = true ∧ cond.op ≠ .ne) →
    RepeatFree conds tab.indexes (IX_MAX_COL_LEN + 1)

end TabMeta

section IndexCols

variable {cat : Catalog} {tabName : String} {conds newConds : List Condition}
  {names : Option (List String)}

open IndexMeta TabMeta

/-- Every way through `get_index_cols` with the conditions that it leaves. -/
theorem getIndexCols_cases (h : getIndexCols cat tabName conds = some (newConds, names)) :
    (newConds = conds ∧ ((∃ cond ∈ conds, cond.isRhsVal = false ∨ cond.lhsCol.tabName ≠ tabName ∨
        cond.op = .ne) ∨ conds.length ≤ 1 ∨
      ∃ cond cond', conds = [cond, cond'] ∧ cond.lhsCol.colName = cond'.lhsCol.colName)) ∨
    ∃ tab, cat tabName = some tab ∧
      (∀ cond ∈ conds, cond.isRhsVal = true ∧ cond.op ≠ .ne) ∧
      newConds = (tab.matchIndexMultiple conds).1 := by
  unfold getIndexCols at h
  split at h
  next hany =>
    cases h
    obtain ⟨cond, hcond, hwhy⟩ := List.any_eq_true.mp hany
    refine Or.inl ⟨rfl, Or.inl ⟨cond, hcond, ?_⟩⟩
    simpa [or_assoc] using hwhy
  next hall =>
    simp only [List.any_eq_true, not_exists, not_and, Bool.or_eq_true, not_or, Bool.not_eq_true',
      bne_iff_ne, ne_eq, not_not, beq_iff_eq, Bool.not_eq_false] at hall
    obtain ⟨tab, htab, hcols⟩ := Option.map_eq_some_iff.mp h
    have hval : ∀ cond ∈ conds, cond.isRhsVal = true ∧ cond.op ≠ .ne :=
      fun cond hcond => ⟨(hall cond hcond).1.1, (hall cond hcond).2⟩
    split at hcols
    · cases hcols
      exact Or.inl ⟨rfl, Or.inr (Or.inl (Nat.zero_le 1))⟩
    · cases hcols
      exact Or.inl ⟨rfl, Or.inr (Or.inl (Nat.le_refl 1))⟩
    · split at hcols
      next hsame =>
        cases hcols
        exact Or.inl ⟨rfl, Or.inr (Or.inr ⟨_, _, rfl, hsame⟩)⟩
      next => exact Or.inr ⟨tab, htab, hval, (congrArg Prod.fst hcols).symm⟩
    · exact Or.inr ⟨tab, htab, hval, (congrArg Prod.fst hcols).symm⟩

theorem getIndexCols_subset (h : getIndexCols cat tabName conds = some (newConds, names)) :
    newConds ⊆ conds := by
  rcases getIndexCols_cases h with ⟨rfl, -⟩ | ⟨tab, -, -, rfl⟩
  · exact List.Subset.refl newConds
  · exact matchIndexLoop_subset tab.indexes _ none

theorem getIndexCols_length (h : getIndexCols cat tabName conds = some (newConds, names)) :
    newConds.length = conds.length := by
  rcases getIndexCols_cases h with ⟨rfl, -⟩ | ⟨tab, -, -, rfl⟩
  · rfl
  · exact matchIndexLoop_length tab.indexes _ none

/-- A condition between columns keeps every index away. -/
theorem getIndexCols_of_col (h : getIndexCols cat tabName conds = some (newConds, names))
    {cond : Condition} (hcond : cond ∈ conds) (hcol : cond.isRhsVal = false) :
    newConds = conds := by
  rcases getIndexCols_cases h with ⟨heq, -⟩ | ⟨tab, -, hval, -⟩
  · exact heq
  · have := (hval cond hcond).1
    simp [hcol] at this

theorem matchIndexLoop_none {indexes : List IndexMeta} {maxMatchNum : Nat}
    {chosen : Option IndexMeta}
    (h : (matchIndexLoop indexes maxMatchNum conds chosen).2 = none) :
    (matchIndexLoop indexes maxMatchNum conds chosen).1 = conds ∧ chosen = none := by
  induction indexes generalizing maxMatchNum conds chosen with
  | nil => exact ⟨rfl, h⟩
  | cons index rest ih =>
    unfold matchIndexLoop at h ⊢
    split at h
    next hcol =>
      rw [if_pos hcol]
      split at h
      next newConds hmatch =>
        have hsome := (ih h).2
        cases hsome
      next => exact ih h
    next hcol =>
      rw [if_neg hcol]
      exact ih h

/-- An index that is chosen for some condition has a column. -/
theorem matchIndexLoop_cols {indexes : List IndexMeta} {maxMatchNum : Nat}
    {chosen : Option IndexMeta} (hne : conds ≠ [])
    (hchosen : ∀ index, chosen = some index → index.cols ≠ []) :
    ∀ index, (matchIndexLoop indexes maxMatchNum conds chosen).2 = some index →
      index.cols ≠ [] := by
  induction indexes generalizing maxMatchNum conds chosen with
  | nil => exact hchosen
  | cons index rest ih =>
    unfold matchIndexLoop
    split
    next =>
      split
      next newConds hmatch =>
        have hlen := (matchIndex_picks hmatch).2
        have hne' : newConds ≠ [] := by
          rintro rfl
          exact hne (List.length_eq_zero_iff.mp hlen.symm)
        refine ih hne' fun index' heq => ?_
        cases heq
        intro hcols
        unfold matchIndex at hmatch
        dsimp only at hmatch
        split at hmatch
        next =>
          cases hmatch
          rw [hcols] at hne'
          exact hne' rfl
        next => cases hmatch
      next => exact ih hne hchosen
    next => exact ih hne hchosen

/-- Without an index the conditions are left as they are. -/
theorem getIndexCols_of_none (h : getIndexCols cat tabName conds = some (newConds, none)) :
    newConds = conds := by
  have hmultiple : ∀ tab : TabMeta, conds ≠ [] →
      (tab.matchIndexMultiple conds).2.isEmpty = true →
      (tab.matchIndexMultiple conds).1 = conds := by
    intro tab hne hempty
    unfold matchIndexMultiple at hempty ⊢
    cases hchosen : (matchIndexLoop tab.indexes (IX_MAX_COL_LEN + 1) conds none).2 with
    | none => exact (matchIndexLoop_none hchosen).1
    | some index =>
      have hcols := matchIndexLoop_cols hne (by simp) index hchosen
      simp [hchosen, hcols] at hempty
  unfold getIndexCols at h
  split at h
  next =>
    cases h
    rfl
  next =>
    obtain ⟨tab, -, h⟩ := Option.map_eq_some_iff.mp h
    split at h
    · exact (congrArg Prod.fst h).symm
    · exact (congrArg Prod.fst h).symm
    · split at h
      next => exact (congrArg Prod.fst h).symm
      next =>
        have hconds := congrArg Prod.fst h
        have hnames := congrArg Prod.snd h
        simp only [ite_eq_left_iff, Bool.not_eq_true, reduceCtorEq, imp_false,
          Bool.not_eq_false] at hnames
        exact hconds.symm.trans (hmultiple tab (List.cons_ne_nil _ _) hnames)
    next hne _ _ =>
      have hconds := congrArg Prod.fst h
      have hnames := congrArg Prod.snd h
      simp only [ite_eq_left_iff, Bool.not_eq_true, reduceCtorEq, imp_false,
        Bool.not_eq_false] at hnames
      exact hconds.symm.trans (hmultiple tab hne hnames)

theorem getIndexCols_perm_iff {tab : TabMeta} (htab : cat tabName = some tab)
    (hon : ∀ cond ∈ conds, cond.lhsCol.tabName = tabName)
    (h : getIndexCols cat tabName conds = some (newConds, names)) :
    newConds.Perm conds ↔ tab.KeepsConds conds := by
  rcases getIndexCols_cases h with ⟨rfl, hwhy⟩ | ⟨tab', htab', hval, rfl⟩
  · refine iff_of_true (List.Perm.refl _) fun hval => ?_
    rcases hwhy with ⟨cond, hcond, hwhy⟩ | hshort | ⟨cond, cond', rfl, hsame⟩
    · have hlit := hval cond hcond
      simp [hlit, hon cond hcond] at hwhy
    · exact repeatFree_of_short hshort _ _
    · exact repeatFree_of_no_match (fun index _ => index.matchIndex_pair hsame) _
  · cases htab.symm.trans htab'
    unfold KeepsConds
    rw [forall_prop_of_true hval]
    exact matchIndexLoop_perm_iff (List.Perm.refl conds) _ _ none

end IndexCols

/-- A condition between two columns of one table. -/
def Condition.SameTable (cond : Condition) : Prop :=
  cond.isRhsVal = false ∧ cond.lhsCol.tabName = cond.rhsCol.tabName

theorem Condition.Checked.popped_iff {cond : Condition} (h : cond.Checked) (t : String) :
    cond.popped t = true ↔ cond.onTable t = true ∨ cond.SameTable := by
  unfold popped onTable SameTable
  cases hval : cond.isRhsVal with
  | true =>
    have hne : cond.lhsCol.tabName ≠ cond.rhsCol.tabName := by
      rw [h.val hval]
      exact h.lhs
    simp [hne]
  | false =>
    simp only [Bool.and_false, Bool.false_or, beq_iff_eq, Bool.and_eq_true, true_and]
    constructor
    · exact Or.inr
    · rintro (⟨hl, hr⟩ | heq)
      · rw [hl, hr]
      · exact heq

theorem Condition.onTable_lhs {cond : Condition} {t : String} (h : cond.onTable t = true) :
    cond.lhsCol.tabName = t := by
  simp only [onTable, Bool.and_eq_true, beq_iff_eq] at h
  exact h.1

/-- What `make_one_rel` makes of table `t` when the conditions on it are the ones popped. -/
structure ScanOf (cat : Catalog) (conds : List Condition) (t : String) (s : ScanPlan) :
    Prop where
  table : s.tabName = t
  cols : ∃ names, getIndexCols cat t (conds.filter fun cond => cond.onTable t) =
    some (s.conds, names) ∧ s.indexScan = names.isSome

section Scans

variable {cat : Catalog} {t : String} {tables : List String} {conds left : List Condition}
  {scans : List ScanPlan}

theorem scanTables_cons (h : scanTables cat (t :: tables) conds = some (scans, left)) :
    ∃ s rest names, (cat t).isSome ∧ scans = s :: rest ∧ s.tabName = t ∧
      s.indexScan = names.isSome ∧
      getIndexCols cat t (conds.filter fun cond => cond.popped t) = some (s.conds, names) ∧
      scanTables cat tables (conds.filter fun cond => !cond.popped t) = some (rest, left) := by
  unfold scanTables at h
  simp only [popConds, List.partition_eq_filter_filter] at h
  obtain ⟨⟨currConds, names⟩, hcols, h⟩ := Option.bind_eq_some_iff.mp h
  obtain ⟨tab, htab, h⟩ := Option.bind_eq_some_iff.mp h
  obtain ⟨⟨rest, left'⟩, hrest, h⟩ := Option.map_eq_some_iff.mp h
  cases h
  have hsome := Option.isSome_iff_exists.mpr ⟨tab, htab⟩
  exact ⟨_, rest, names, hsome, rfl, rfl, rfl, hcols, hrest⟩

theorem scanTables_names (h : scanTables cat tables conds = some (scans, left)) :
    scans.map ScanPlan.tabName = tables := by
  induction tables generalizing conds scans with
  | nil =>
    cases h
    rfl
  | cons t tables ih =>
    obtain ⟨s, rest, names, -, rfl, htable, -, -, hrest⟩ := scanTables_cons h
    rw [List.map_cons, htable, ih hrest]

theorem scanTables_cat (h : scanTables cat tables conds = some (scans, left)) :
    ∀ t ∈ tables, (cat t).isSome := by
  induction tables generalizing conds scans with
  | nil => simp
  | cons t tables ih =>
    obtain ⟨s, rest, names, hsome, -, -, -, -, hrest⟩ := scanTables_cons h
    intro u hu
    rcases List.mem_cons.mp hu with rfl | hu
    · exact hsome
    · exact ih hrest u hu

theorem scanTables_left (h : scanTables cat tables conds = some (scans, left)) :
    left = conds.filter fun cond => tables.all fun t => !cond.popped t := by
  induction tables generalizing conds scans with
  | nil =>
    cases h
    simp
  | cons t tables ih =>
    obtain ⟨s, rest, names, -, rfl, -, -, -, hrest⟩ := scanTables_cons h
    rw [ih hrest, List.filter_filter]
    refine List.filter_congr fun cond _ => ?_
    rw [List.all_cons, Bool.and_comm]

/-- The conditions of the scans and those that are left are as many as there were. -/
theorem scanTables_length (h : scanTables cat tables conds = some (scans, left)) :
    (scans.flatMap ScanPlan.conds).length + left.length = conds.length := by
  induction tables generalizing conds scans with
  | nil =>
    cases h
    simp
  | cons t tables ih =>
    obtain ⟨s, rest, names, -, rfl, -, -, hcols, hrest⟩ := scanTables_cons h
    have hhead := getIndexCols_length hcols
    have htail := ih hrest
    have hsplit := List.length_eq_length_filter_add (l := conds) fun cond => cond.popped t
    simp only [List.flatMap_cons, List.length_append]
    omega

/-- No condition comes back once it is popped. -/
theorem scanTables_subset (h : scanTables cat tables conds = some (scans, left)) :
    ∀ s ∈ scans, s.conds ⊆ conds := by
  induction tables generalizing conds scans with
  | nil =>
    cases h
    simp
  | cons t tables ih =>
    obtain ⟨s, rest, names, -, rfl, -, -, hcols, hrest⟩ := scanTables_cons h
    intro s' hs'
    rcases List.mem_cons.mp hs' with rfl | hs'
    · exact List.Subset.trans (getIndexCols_subset hcols) (List.filter_subset_self _)
    · exact List.Subset.trans (ih hrest s' hs') (List.filter_subset_self _)

theorem scanTables_scanOf (hchecked : ∀ cond ∈ conds, cond.Checked)
    (hsame : ∀ cond ∈ conds, cond.SameTable → tables.head? = some cond.lhsCol.tabName)
    (honce : ∀ cond ∈ conds, ∀ t, cond.onTable t = true → tables.count t ≤ 1)
    (h : scanTables cat tables conds = some (scans, left)) :
    List.Forall₂ (ScanOf cat conds) tables scans ∧
      ((tables.flatMap fun t => conds.filter fun cond => cond.onTable t) ++ left).Perm conds := by
  induction tables generalizing conds scans with
  | nil =>
    cases h
    exact ⟨List.Forall₂.nil, List.Perm.refl _⟩
  | cons t tables ih =>
    obtain ⟨s, rest, names, -, rfl, htable, hindex, hcols, hrest⟩ := scanTables_cons h
    have hpop : ∀ cond ∈ conds, cond.popped t = cond.onTable t := by
      intro cond hcond
      rw [Bool.eq_iff_iff, (hchecked cond hcond).popped_iff t, or_iff_left_iff_imp]
      intro htab
      have hhead := hsame cond hcond htab
      rw [List.head?_cons, Option.some_inj] at hhead
      simp [Condition.onTable, ← hhead, ← htab.2]
    have hmem : ∀ cond ∈ conds.filter (fun cond => !cond.popped t), cond ∈ conds :=
      fun cond hcond => List.mem_of_mem_filter hcond
    have hgone : ∀ cond ∈ conds.filter (fun cond => !cond.popped t), ¬cond.SameTable := by
      intro cond hcond htab
      obtain ⟨hin, hnot⟩ := List.mem_filter.mp hcond
      have := ((hchecked cond hin).popped_iff t).mpr (Or.inr htab)
      simp [this] at hnot
    obtain ⟨htail, hperm⟩ := ih (fun cond hcond => hchecked cond (hmem cond hcond))
      (fun cond hcond htab => absurd htab (hgone cond hcond))
      (fun cond hcond u hon => (List.count_le_count_cons).trans (honce cond (hmem cond hcond) u hon))
      hrest
    have hhere : conds.filter (fun cond => cond.onTable t) =
        conds.filter fun cond => cond.popped t :=
      List.filter_congr fun cond hcond => (hpop cond hcond).symm
    -- a condition on a later table is not popped for this one
    have hlater : ∀ u ∈ tables, (conds.filter fun cond => !cond.popped t).filter
        (fun cond => cond.onTable u) = conds.filter fun cond => cond.onTable u := by
      intro u hu
      rw [List.filter_filter]
      refine List.filter_congr fun cond hcond => ?_
      rw [hpop cond hcond]
      cases hon : cond.onTable u with
      | false => rfl
      | true =>
        have hne : t ≠ u := by
          rintro rfl
          have htwice := honce cond hcond t hon
          rw [List.count_cons_self] at htwice
          have := List.count_pos_iff.mpr hu
          omega
        have hoff : cond.onTable t = false := by
          rw [Bool.eq_false_iff]
          exact fun hont => hne ((Condition.onTable_lhs hont).symm.trans (Condition.onTable_lhs hon))
        simp [hoff]
    refine ⟨List.Forall₂.cons ⟨htable, names, by rw [hhere, hcols], hindex⟩ ?_, ?_⟩
    · have hboth := (List.forall₂_and_left tables rest).mpr ⟨hlater, htail⟩
      refine hboth.imp fun u s' hs' => ⟨hs'.2.table, ?_⟩
      rw [← hs'.1]
      exact hs'.2.cols
    · rw [List.flatMap_cons, hhere, List.append_assoc]
      rw [List.flatMap_congr hlater] at hperm
      exact (hperm.append_left _).trans (List.filter_append_perm _ conds)

/-- The scan of the first table has every condition between two columns of one table. -/
theorem scanTables_sameTable (hchecked : ∀ cond ∈ conds, cond.Checked)
    (h : scanTables cat tables conds = some (scans, left)) {cond : Condition} (hcond : cond ∈ conds)
    (hsame : cond.SameTable) {s : ScanPlan} (hs : scans.head? = some s) :
    tables.head? = some s.tabName ∧ cond ∈ s.conds := by
  cases tables with
  | nil =>
    cases h
    cases hs
  | cons t tables =>
    obtain ⟨s', rest, names, -, rfl, htable, -, hcols, -⟩ := scanTables_cons h
    cases hs
    have hpop : cond ∈ conds.filter fun cond => cond.popped t :=
      List.mem_filter.mpr ⟨hcond, ((hchecked cond hcond).popped_iff t).mpr (Or.inr hsame)⟩
    rw [getIndexCols_of_col hcols hpop hsame.1]
    exact ⟨by rw [htable, List.head?_cons], hpop⟩

/-- Only one scan can have a condition on its table. -/
theorem scanTables_once (hchecked : ∀ cond ∈ conds, cond.Checked)
    (h : scanTables cat tables conds = some (scans, left)) {cond : Condition} (hcond : cond ∈ conds)
    (hon : cond.onTable t = true) (hall : ∀ s ∈ scans, s.tabName = t → cond ∈ s.conds) :
    tables.count t ≤ 1 := by
  induction tables generalizing conds scans with
  | nil => simp
  | cons u tables ih =>
    obtain ⟨s, rest, names, -, rfl, -, -, -, hrest⟩ := scanTables_cons h
    have hrestAll : ∀ s' ∈ rest, s'.tabName = t → cond ∈ s'.conds :=
      fun s' hs' => hall s' (List.mem_cons_of_mem s hs')
    by_cases hpop : cond.popped u = true
    · have hgone : cond ∉ conds.filter fun cond => !cond.popped u := by simp [hpop]
      have hnone : t ∉ tables := by
        intro ht
        rw [← scanTables_names hrest] at ht
        obtain ⟨s', hs', hname⟩ := List.mem_map.mp ht
        exact hgone (scanTables_subset hrest s' hs' (hrestAll s' hs' hname))
      rw [List.count_cons, List.count_eq_zero_of_not_mem hnone]
      split
      · exact Nat.le_refl 1
      · exact Nat.zero_le 1
    · have hne : u ≠ t := by
        rintro rfl
        exact hpop (((hchecked cond hcond).popped_iff u).mpr (Or.inl hon))
      rw [List.count_cons_of_ne hne]
      refine ih (fun c hc => hchecked c (List.mem_of_mem_filter hc)) hrest ?_ hrestAll
      exact List.mem_filter.mpr ⟨hcond, by simp [hpop]⟩

end Scans

end Grmdb
