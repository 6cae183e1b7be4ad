import Grmdb.DropTable
import Grmdb.ScanConds

namespace Grmdb

/-- The catalogs that `create_table`, `create_index` and `drop_index` lead to, whether the calls
return or throw. -/
inductive SmManager.Made : SmManager → Prop
  | fresh : Made .fresh
  | createTable {s : SmManager} (h : Made s) (ctx : Option (Nat → Bool)) (fd : Fd) (tabName : String)
      (colDefs : List ColDef) : Made (s.createTable ctx fd tabName colDefs).1
  | createIndex {s : SmManager} (h : Made s) (ctx : Option (Nat → Bool)) (tabName : String)
      (colNames : List String) (rows : List (Rid × Bytes)) :
      Made (s.createIndex ctx tabName colNames rows).1
  | dropIndex {s : SmManager} (h : Made s) (ctx : Option (Nat → Bool)) (k : Nat) (tabName : String)
      (colNames : List String) : Made (s.dropIndex ctx k tabName colNames).1

/-- The indexes of the table count their columns. -/
def TabMeta.Counted (tab : TabMeta) : Prop :=
  ∀ index ∈ tab.indexes, index.colNum = index.cols.length

theorem TabMeta.Counted.rename {tab : TabMeta} (h : tab.Counted) (name : String) :
    TabMeta.Counted { tab with name := name } := h

section Made

variable {s : SmManager} {tab : TabMeta} {tabName : String} {colNames : List String}
  {ctx : Option (Nat → Bool)}

theorem indexCols_length {curOffset : Nat} {cols : List ColMeta}
    (h : indexCols tab curOffset colNames = .ok cols) : cols.length = colNames.length := by
  induction colNames generalizing curOffset cols with
  | nil =>
    cases h
    rfl
  | cons colName colNames ih =>
    unfold indexCols at h
    cases hcol : tab.getCol colName with
    | none => simp [hcol] at h
    | some col =>
      rw [hcol] at h
      cases hrest : indexCols tab (curOffset + col.len) colNames with
      | error e => simp [hrest, bind, Except.bind] at h
      | ok rest =>
        simp only [hrest, bind, Except.bind, pure, Except.pure, Except.ok.injEq] at h
        rw [← h, List.length_cons, List.length_cons, ih hrest]

theorem SmState.createIndex_counted {s : SmState} {granted : Bool} {rows : List (Rid × Bytes)}
    (h : s.tab.Counted) : (s.createIndex colNames granted rows).1.tab.Counted := by
  by_cases hearly : s.RefusedEarly colNames granted
  · obtain ⟨e, he⟩ := @createIndex_refused s colNames granted rows hearly
    rw [he]
    exact h
  · obtain ⟨idxCols, hcols, hrun⟩ := @createIndex_late s colNames granted rows hearly
    rw [hrun]
    split
    next => exact h
    next =>
      intro index hindex
      rcases List.mem_append.mp hindex with hindex | hindex
      · exact h index hindex
      · rw [List.mem_singleton.mp hindex]
        exact (indexCols_length hcols).symm

namespace SmManager

/-- What holds of the tables of a catalog. -/
def Counted (s : SmManager) : Prop := ∀ t tab, s.tabs t = some tab → tab.Counted

theorem counted_update (h : s.Counted) (htab : tab.Counted) (t : String) :
    ∀ u tab', Function.update s.tabs t (some tab) u = some tab' → tab'.Counted := by
  intro u tab' hu
  by_cases hut : u = t
  · subst hut
    rw [Function.update_self, Option.some_inj] at hu
    exact hu ▸ htab
  · rw [Function.update_of_ne hut] at hu
    exact h u tab' hu

/-- The entry that `operator[]` gives. -/
theorem Counted.entry (h : s.Counted) (t : String) : ((s.tabs t).getD .empty).Counted := by
  cases htab : s.tabs t with
  | none => exact fun index hindex => absurd hindex List.not_mem_nil
  | some tab => exact h t tab htab

theorem createTable_counted (h : s.Counted) (fd : Fd) (colDefs : List ColDef) :
    (s.createTable ctx fd tabName colDefs).1.Counted := by
  have hnew := @counted_update s ⟨tabName, tableCols tabName 0 colDefs, []⟩ h
    (fun index hindex => absurd hindex List.not_mem_nil) tabName
  unfold createTable
  split
  next => exact h
  next =>
    dsimp only
    split
    next => exact h
    next =>
      split
      next => exact h
      next =>
        split
        next =>
          split
          next => exact hnew
          next => exact hnew
        next => exact hnew

theorem createIndex_counted (h : s.Counted) (rows : List (Rid × Bytes)) :
    (s.createIndex ctx tabName colNames rows).1.Counted := by
  have hentry := h.entry tabName
  have hsame := @counted_update s _ h hentry tabName
  unfold createIndex
  dsimp only
  split
  next => exact hsame
  next =>
    have hcreate := @SmState.createIndex_counted colNames
      ⟨{ (s.tabs tabName).getD .empty with name := tabName }, s.ihs, s.files⟩
      ((SmManager.lockTable { s with
        tabs := Function.update s.tabs tabName (some ((s.tabs tabName).getD .empty)) } ctx 0
          tabName).isNone) (if (s.fhs tabName).isSome then rows else []) hentry
    rw [Function.update_idem]
    exact counted_update h (hcreate.rename _) tabName

theorem dropIndex_counted (h : s.Counted) (k : Nat) :
    (s.dropIndex ctx k tabName colNames).1.Counted := by
  have hentry := h.entry tabName
  have hsame := @counted_update s _ h hentry tabName
  have herased : TabMeta.Counted { (s.tabs tabName).getD .empty with
      indexes := ((s.tabs tabName).getD .empty).indexes.eraseP fun index =>
        index.hasCols colNames } :=
    fun index hindex => hentry index (List.mem_of_mem_eraseP hindex)
  unfold dropIndex
  dsimp only
  split
  next => exact hsame
  next =>
    split
    next => exact hsame
    next =>
      split
      next => exact hsame
      next =>
        split
        next => exact hsame
        next =>
          rw [Function.update_idem]
          exact counted_update h herased tabName

theorem Made.counted (h : s.Made) : s.Counted := by
  induction h with
  | fresh => exact fun t tab htab => by cases htab
  | createTable _ ctx fd tabName colDefs ih => exact createTable_counted ih fd colDefs
  | createIndex _ ctx tabName colNames rows ih => exact createIndex_counted ih rows
  | dropIndex _ ctx k tabName colNames ih => exact dropIndex_counted ih k

end SmManager

end Made

section Match

variable {tab : TabMeta} {index : IndexMeta} {conds newConds : List Condition}

/-- Conditions on the first columns of the index, one for each, all of them equalities except that
the last one may be a range. -/
structure IndexMeta.EqPrefix (index : IndexMeta) (conds : List Condition) : Prop where
  names : conds.map (fun cond => cond.lhsCol.colName) =
    (index.cols.map ColMeta.name).take conds.length
  equal : ∀ cond ∈ conds.dropLast, cond.op = .eq

/-- A lower and an upper bound on the only column of the index. -/
def IndexMeta.TwoBounds (index : IndexMeta) (conds : List Condition) : Prop :=
  ∃ cond cond', conds = [cond, cond'] ∧ index.cols.map ColMeta.name = [cond.lhsCol.colName] ∧
    cond'.lhsCol.colName = cond.lhsCol.colName ∧ TabMeta.validPair cond.op cond'.op = true

/-- What a scan needs of an index that is chosen for its conditions. -/
def TabMeta.Matched (tab : TabMeta) (conds newConds : List Condition) (names : List String) : Prop :=
  (∃ index ∈ tab.indexes, index.cols.map ColMeta.name = names ∧
    (index.EqPrefix newConds ∨ index.TwoBounds newConds)) ∧
  (∀ cond ∈ newConds, cond.op ≠ .ne) ∧ newConds.Perm conds

theorem IndexMeta.matchedConds_equal (conds : List Condition) (cols : List ColMeta) :
    ∀ cond ∈ (matchedConds conds cols).dropLast, cond.op = .eq := by
  induction cols with
  | nil => simp [matchedConds]
  | cons col cols ih =>
    unfold matchedConds
    dsimp only
    split
    next cond hone =>
      split
      next heq =>
        cases hrest : matchedConds conds cols with
        | nil => simp
        | cons next rest =>
          rw [hrest] at ih
          rw [List.dropLast_cons_cons]
          exact List.forall_mem_cons.mpr ⟨heq, ih⟩
      next => simp
    next => simp

theorem IndexMeta.eqPrefix_of_match (h : index.matchIndex conds = some newConds) :
    index.EqPrefix newConds := by
  obtain ⟨hpicks, hlen⟩ := matchIndex_picks h
  constructor
  · rw [hpicks.names, hlen]
  · unfold matchIndex at h
    dsimp only at h
    split at h
    next =>
      cases h
      exact matchedConds_equal conds index.cols
    next => cases h

/-- The index that the loop ends with matches the conditions that it ends with. -/
theorem TabMeta.matchIndexLoop_chosen {indexes : List IndexMeta} {maxMatchNum : Nat}
    {chosen : Option IndexMeta} (hmem : ∀ index ∈ indexes, index ∈ tab.indexes)
    (hchosen : ∀ index, chosen = some index → index ∈ tab.indexes ∧ index.EqPrefix conds) :
    ∀ index, (matchIndexLoop indexes maxMatchNum conds chosen).2 = some index →
      index ∈ tab.indexes ∧
        index.EqPrefix (matchIndexLoop indexes maxMatchNum conds chosen).1 := by
  induction indexes generalizing maxMatchNum conds chosen with
  | nil => exact hchosen
  | cons index rest ih =>
    obtain ⟨hindex, hrest⟩ := List.forall_mem_cons.mp hmem
    unfold matchIndexLoop
    split
    next =>
      split
      next newConds hmatch =>
        refine ih hrest fun index' heq => ?_
        cases heq
        exact ⟨hindex, IndexMeta.eqPrefix_of_match hmatch⟩
      next => exact ih hrest hchosen
    next => exact ih hrest hchosen

theorem TabMeta.Counted.single (h : tab.Counted) {name : String} (hindex : tab.isIndex [name] = true) :
    ∃ index ∈ tab.indexes, index.cols.map ColMeta.name = [name] := by
  obtain ⟨index, hmem, hhas⟩ := List.any_eq_true.mp hindex
  simp only [IndexMeta.hasCols, Bool.and_eq_true, beq_iff_eq, List.length_singleton] at hhas
  refine ⟨index, hmem, ?_⟩
  rw [← hhas.2, h index hmem, List.take_length]

/-- An index that `MatchIndexSingle` finds. -/
theorem TabMeta.matchIndexSingle_index {names : List String} (hcounted : tab.Counted)
    (hsame : ∀ cond ∈ conds, ∀ cond' ∈ conds, cond'.lhsCol.colName = cond.lhsCol.colName)
    (h : tab.matchIndexSingle conds = some names) :
    ∃ index ∈ tab.indexes, index.cols.map ColMeta.name = names ∧
      (index.EqPrefix conds ∨ index.TwoBounds conds) := by
  unfold matchIndexSingle at h
  split at h
  next cond =>
    dsimp only at h
    split at h
    next hindex =>
      cases h
      obtain ⟨index, hmem, hcols⟩ := hcounted.single hindex
      exact ⟨index, hmem, hcols, Or.inl ⟨by rw [hcols]; rfl, by simp⟩⟩
    next => cases h
  next cond cond' =>
    dsimp only at h
    split at h
    next hindex =>
      cases h
      obtain ⟨index, hmem, hcols⟩ := hcounted.single hindex.2
      exact ⟨index, hmem, hcols, Or.inr ⟨cond, cond', rfl, hcols,
        hsame cond (by simp) cond' (by simp), hindex.1⟩⟩
    next => cases h
  next => cases h

/-- An index that `MatchIndexMultiple` chooses. -/
theorem TabMeta.matchIndexMultiple_chosen
    (h : (tab.matchIndexMultiple conds).2.isEmpty = false) :
    ∃ index ∈ tab.indexes, index.cols.map ColMeta.name = (tab.matchIndexMultiple conds).2 ∧
      index.EqPrefix (tab.matchIndexMultiple conds).1 := by
  unfold matchIndexMultiple at h ⊢
  cases hchosen : (matchIndexLoop tab.indexes (IX_MAX_COL_LEN + 1) conds none).2 with
  | none => simp [hchosen] at h
  | some index =>
    obtain ⟨hmem, hprefix⟩ := @matchIndexLoop_chosen tab conds tab.indexes (IX_MAX_COL_LEN + 1) none
      (fun _ h => h) (by simp) index hchosen
    exact ⟨index, hmem, by simp [hchosen], hprefix⟩

theorem getIndexCols_index {cat : Catalog} {tabName : String} {names : List String}
    (htab : cat tabName = some tab) (hcounted : tab.Counted) (hne : conds ≠ [])
    (h : getIndexCols cat tabName conds = some (newConds, some names)) :
    (∀ cond ∈ conds, cond.lhsCol.tabName = tabName ∧ cond.op ≠ .ne) ∧
      ∃ index ∈ tab.indexes, index.cols.map ColMeta.name = names ∧
        (index.EqPrefix newConds ∨ index.TwoBounds newConds) := by
  have hmultiple : ∀ result, ((tab.matchIndexMultiple conds).1,
      if (tab.matchIndexMultiple conds).2.isEmpty then none
      else some (tab.matchIndexMultiple conds).2) = result → result = (newConds, some names) →
      ∃ index ∈ tab.indexes, index.cols.map ColMeta.name = names ∧
        (index.EqPrefix newConds ∨ index.TwoBounds newConds) := by
    rintro _ rfl heq
    have hconds := congrArg Prod.fst heq
    have hnames := congrArg Prod.snd heq
    dsimp only at hconds hnames
    split at hnames
    next => cases hnames
    next hempty =>
      rw [Bool.not_eq_true] at hempty
      obtain ⟨index, hmem, hcols, hprefix⟩ := TabMeta.matchIndexMultiple_chosen hempty
      exact ⟨index, hmem, hcols.trans (Option.some.inj hnames), Or.inl (hconds ▸ hprefix)⟩
  unfold getIndexCols at h
  split at h
  next => cases h
  next hall =>
    simp only [List.any_eq_true, not_exists, not_and, Bool.or_eq_true, not_or, Bool.not_eq_true',
      bne_iff_ne, ne_eq, not_not, beq_iff_eq, Bool.not_eq_false] at hall
    refine ⟨fun cond hcond => ⟨(hall cond hcond).1.2, (hall cond hcond).2⟩, ?_⟩
    rw [htab, Option.map_some, Option.some_inj] at h
    split at h
    · exact absurd rfl hne
    next cond =>
      obtain ⟨rfl, hsingle⟩ := Prod.mk.inj h
      exact TabMeta.matchIndexSingle_index hcounted (by simp) hsingle
    next cond cond' =>
      split at h
      next hsame =>
        obtain ⟨rfl, hsingle⟩ := Prod.mk.inj h
        refine TabMeta.matchIndexSingle_index hcounted ?_ hsingle
        simp [hsame]
      next => exact hmultiple _ rfl h
    · exact hmultiple _ rfl h

end Match

/-- Whenever an index is returned, it is matched as it should be exactly if the matching loses no
condition. -/
theorem getIndexCols_matched_iff (s : SmManager) (tabName : String) (tab : TabMeta)
    (conds newConds : List Condition) (names : List String) (hs : s.Made)
    (htab : s.tabs tabName = some tab) (hne : conds ≠ [])
    (h : getIndexCols s.tabs tabName conds = some (newConds, some names)) :
    tab.Matched conds newConds names ↔ tab.KeepsConds conds := by
  obtain ⟨hall, hindex⟩ := getIndexCols_index htab (hs.counted tabName tab htab) hne h
  have hperm := getIndexCols_perm_iff htab (fun cond hcond => (hall cond hcond).1) h
  constructor
  · exact fun hmatched => hperm.mp hmatched.2.2
  · intro hkeeps
    exact ⟨hindex, fun cond hcond => (hall cond (getIndexCols_subset h hcond)).2,
      hperm.mpr hkeeps⟩

/-- `CREATE TABLE t (a INT, b INT)` and an index on the columns named. -/
def indexedTable (colNames : List String) : SmManager :=
  ((SmManager.fresh.createTable none 5 "t" [⟨"a", .int, 4⟩, ⟨"b", .int, 4⟩]).1.createIndex none "t"
    colNames []).1

theorem indexedTable_made (colNames : List String) : (indexedTable colNames).Made :=
  .createIndex (.createTable .fresh none 5 "t" _) none "t" colNames []

/-- `b = 2 AND a = 1`. -/
def twoEqualities : List Condition :=
  [⟨⟨"t", "b"⟩, .eq, true, ⟨"", ""⟩, some (.int 2)⟩, ⟨⟨"t", "a"⟩, .eq, true, ⟨"", ""⟩, some (.int 1)⟩]

theorem getIndexCols_matched_ab :
    ∃ tab, (indexedTable ["a", "b"]).tabs "t" = some tab ∧
      getIndexCols (indexedTable ["a", "b"]).tabs "t" twoEqualities =
        some (twoEqualities.reverse, some ["a", "b"]) ∧
      tab.Matched twoEqualities twoEqualities.reverse ["a", "b"] := by
  have hrun : ∃ tab, (indexedTable ["a", "b"]).tabs "t" = some tab ∧
      getIndexCols (indexedTable ["a", "b"]).tabs "t" twoEqualities =
        some (twoEqualities.reverse, some ["a", "b"]) := ⟨_, rfl, by decide +kernel⟩
  obtain ⟨tab, htab, hcols⟩ := hrun
  have hkeeps : tab.KeepsConds twoEqualities :=
    (getIndexCols_perm_iff htab (by decide) hcols).mp (List.reverse_perm twoEqualities)
  exact ⟨tab, htab, hcols, (getIndexCols_matched_iff _ _ tab _ _ _ (indexedTable_made _) htab
    (by decide) hcols).mpr hkeeps⟩

/-- An index that names `a` twice takes `a = 1` twice, and `b = 2` is gone. -/
theorem getIndexCols_loses_condition :
    ∃ newConds tab, (indexedTable ["a", "a"]).Made ∧ (indexedTable ["a", "a"]).tabs "t" = some tab ∧
      getIndexCols (indexedTable ["a", "a"]).tabs "t" twoEqualities =
        some (newConds, some ["a", "a"]) ∧
      ¬tab.Matched twoEqualities newConds ["a", "a"] := by
  have hrun : ∃ tab, (indexedTable ["a", "a"]).tabs "t" = some tab ∧
      getIndexCols (indexedTable ["a", "a"]).tabs "t" twoEqualities =
        some (List.replicate 2 ⟨⟨"t", "a"⟩, .eq, true, ⟨"", ""⟩, some (.int 1)⟩, some ["a", "a"]) :=
    ⟨_, rfl, by decide +kernel⟩
  obtain ⟨tab, htab, hcols⟩ := hrun
  refine ⟨_, tab, indexedTable_made _, htab, hcols, fun hmatched => ?_⟩
  have hmem := hmatched.2.2.mem_iff (a := ⟨⟨"t", "b"⟩, .eq, true, ⟨"", ""⟩, some (.int 2)⟩)
  exact absurd (hmem.mpr (by decide)) (by decide)

end Grmdb
