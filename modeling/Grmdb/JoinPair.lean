import Grmdb.ExecutorProtocol
import Grmdb.IndexScanFilter

namespace Grmdb

section Scans

/-- The scan of a table for which there are no conditions. -/
def tableScan (cat : Catalog) (t : String) : ScanPlan :=
  let names := (cat t).bind fun tab =>
    tab.indexes.head?.map fun index => index.cols.map ColMeta.name
  ⟨names.isSome, t, [], names.getD []⟩

/-- Without conditions an index scan goes from the first leaf to the last one, whatever the memory
for its keys holds. -/
theorem IndexTree.settled_nil {index : IndexMeta} (tree : IndexTree index) : tree.Settled [] := by
  have hplaces : ∃ iids, ∀ bufs : GapBuffers index.ixCols,
      (IndexScanExecutor.gap tree.layout tree.file [] bufs).map
        (fun range => (range.1, decide (range.2.2 < range.2.1))) = some (iids, false) := by
    rcases tree.made.isIndex with h | ⟨g, ls, h⟩
    · refine ⟨(tree.file.leafBegin, tree.file.leafBegin), fun bufs => ?_⟩
      rw [IndexTree.layout, h.gap_nil tree.made.endsMeet bufs, Option.map_some]
      simp only [Option.some.injEq, Prod.mk.injEq, decide_eq_false_iff_not, true_and]
      exact (minKey_le _).not_gt
    · obtain ⟨last, -, hboth⟩ := gap_nil h.bTree tree.layout
      refine ⟨(tree.file.leafBegin, last), fun bufs => ?_⟩
      have hgap := (hboth bufs).1
      rw [copyValues_add (holds_map IxCol.holds_generateMin _)] at hgap
      obtain ⟨range, hrange⟩ := @gapAt_returns index ((tree.file.leafBegin, last),
        IxKey.ofValues index.ixCols (index.ixCols.map IxCol.generateMin)) [] (tree.file.pairs ls) []
        bufs (minKey_le _)
      have hlow : range.2.1 = IxKey.ofValues index.ixCols (index.ixCols.map IxCol.generateMin) := by
        rcases (gapAt_some hrange).2 with ⟨-, hkey⟩ | ⟨-, hkey⟩
        · exact hkey
        · exact hkey
      rw [hgap, hrange, Option.map_some, gapAt_places hrange, hlow]
      simp only [Option.some.injEq, Prod.mk.injEq, decide_eq_false_iff_not, true_and]
      exact (minKey_le _).not_gt
  obtain ⟨iids, hplaces⟩ := hplaces
  exact fun bufs bufs' => (hplaces bufs).trans (hplaces bufs').symm

theorem tableScan_settled (db : Database) (t : String) : db.Settled (tableScan db.cat t) := by
  intro _ tab index tree conds _ _ _ hconds
  cases hconds
  exact tree.settled_nil

theorem Plan.Yields.unique {db : Database} {fuel : Nat} {plan : Plan} {exec exec' : Executor}
    {rows rows' : List Bytes} (h : plan.Yields db fuel exec rows)
    (h' : plan.Yields db fuel exec' rows') : rows = rows' := by
  obtain ⟨hconvert, s, hstart, hdelivers⟩ := h
  obtain ⟨hconvert', s', hstart', hdelivers'⟩ := h'
  cases hconvert.symm.trans hconvert'
  cases hstart.symm.trans hstart'
  exact hdelivers.unique hdelivers'

theorem convert_scan_cols {db : Database} {fuel : Nat} {s : ScanPlan} {exec : Executor} {tab : TabMeta}
    (h : convertPlanExecutor db fuel (.scan s) = some exec) (htab : db.cat s.tabName = some tab) :
    exec.cols = tab.cols ∧ exec.tupleLen = tab.tupleLen := by
  obtain ⟨tab', htab', h⟩ := Option.bind_eq_some_iff.mp h
  cases htab.symm.trans htab'
  obtain ⟨file, -, h⟩ := Option.bind_eq_some_iff.mp h
  split at h
  next =>
    obtain ⟨index, tree, conds, -, -, -, rfl⟩ := indexScanExecutor_cases h
    exact ⟨rfl, rfl⟩
  next =>
    rw [eq_of_seqScanExecutor h]
    exact ⟨rfl, rfl⟩

end Scans

section Plans

variable {cat : Catalog} {knobs : JoinKnobs} {tables : List String} {a b : String}
  {cond c : Condition} {conds more : List Condition}

theorem getIndexCols_nil {t : String} (ht : (cat t).isSome) :
    getIndexCols cat t [] = some ([], (cat t).bind fun tab =>
      tab.indexes.head?.map fun index => index.cols.map ColMeta.name) := by
  obtain ⟨tab, htab⟩ := Option.isSome_iff_exists.mp ht
  simp [getIndexCols, htab]

/-- A column-to-column condition between the two tables. -/
structure Between (a b : String) (cond : Condition) : Prop where
  isCol : cond.isRhsVal = false
  tabs : cond.lhsCol.tabName = a ∧ cond.rhsCol.tabName = b ∨
    cond.lhsCol.tabName = b ∧ cond.rhsCol.tabName = a

theorem Between.popped (hne : a ≠ b) (h : Between a b cond) (t : String) :
    cond.popped t = false := by
  rcases h.tabs with ⟨rfl, rfl⟩ | ⟨rfl, rfl⟩
  · simp [Condition.popped, h.isCol, hne]
  · simp [Condition.popped, h.isCol, hne.symm]

theorem popConds_between (hne : a ≠ b) (h : ∀ cond ∈ conds, Between a b cond) (t : String) :
    popConds conds t = ([], conds) := by
  rw [popConds, List.partition_eq_filter_filter]
  congr 1
  · exact List.filter_eq_nil_iff.mpr fun cond hcond => by simp [(h cond hcond).popped hne t]
  · exact List.filter_eq_self.mpr fun cond hcond => by simp [(h cond hcond).popped hne t]

/-- The join of two scans on `cond` and the conditions that are pushed to it. -/
def joinPlan (knobs : JoinKnobs) (left right : Plan) (cond : Condition) (more : List Condition) :
    Plan :=
  if knobs.nestedloop then .join false left right (cond :: more)
  else if left.isIndexScan then .join true left right (cond :: more)
  else .join true (.sort left cond.lhsCol false) (.sort right cond.rhsCol false) [cond]

/-- A condition between the tables of a join goes to the conditions of the join or, where the inputs
are sorted first, nowhere. -/
theorem pushConds_between {s t : ScanPlan} (hne : s.tabName ≠ t.tabName)
    (hc : Between s.tabName t.tabName c) :
    ∃ more', (pushConds c (joinPlan knobs (.scan s) (.scan t) cond more)).1 =
      joinPlan knobs (.scan s) (.scan t) cond more' := by
  have hplain : ∀ sm, ∃ more', (pushConds c (.join sm (.scan s) (.scan t) (cond :: more))).1 =
      .join sm (.scan s) (.scan t) (cond :: more') := by
    intro sm
    rcases hc.tabs with ⟨hl, hr⟩ | ⟨hl, hr⟩
    · refine ⟨more ++ [c], ?_⟩
      simp [pushConds, pushScan, hl, hr, hne.symm]
    · refine ⟨more ++ [c.swap], ?_⟩
      simp [pushConds, pushScan, hl, hr, hne]
  unfold joinPlan
  cases knobs.nestedloop with
  | true => simpa using hplain false
  | false =>
    cases hidx : (Plan.scan s).isIndexScan with
    | true => simpa using hplain true
    | false => exact ⟨[], rfl⟩

/-- The conditions behind the first one find both tables joined. -/
theorem foldl_joinStep_between {s t : ScanPlan} {plans : List Plan} {st : JoinState}
    (hne : s.tabName ≠ t.tabName) (hconds : ∀ c ∈ conds, Between s.tabName t.tabName c)
    (hs : s.tabName ∈ st.joinedTables) (ht : t.tabName ∈ st.joinedTables)
    (hplan : st.plan = joinPlan knobs (.scan s) (.scan t) cond more) :
    ∃ more', conds.foldl (joinStep plans) st =
        { st with plan := joinPlan knobs (.scan s) (.scan t) cond more' } ∧
      (conds = [] → more' = more) := by
  induction conds generalizing st more with
  | nil => exact ⟨more, by rw [← hplan]; rfl, fun _ => rfl⟩
  | cons c conds ih =>
    have hc := hconds c List.mem_cons_self
    obtain ⟨more₁, hpush⟩ := @pushConds_between knobs cond c more s t hne hc
    have hstep : joinStep plans st c =
        { st with plan := joinPlan knobs (.scan s) (.scan t) cond more₁ } := by
      rw [← hpush, ← hplan]
      rcases hc.tabs with ⟨hl, hr⟩ | ⟨hl, hr⟩
      · simp [joinStep, hl, hr, hs, ht]
      · simp [joinStep, hl, hr, hs, ht]
    obtain ⟨more', hrest, -⟩ := @ih more₁
      { st with plan := joinPlan knobs (.scan s) (.scan t) cond more₁ }
      (fun c' hc' => hconds c' (List.mem_cons_of_mem c hc')) hs ht rfl
    exact ⟨more', by rw [List.foldl_cons, hstep, hrest], fun h => absurd h (List.cons_ne_nil _ _)⟩

/-- The plan for two tables and conditions between them, whichever table comes first. -/
theorem makeOneRel_between (hne : a ≠ b) (htables : tables = [a, b] ∨ tables = [b, a])
    (ha : (cat a).isSome) (hb : (cat b).isSome) (hlhs : cond.lhsCol.tabName = a)
    (hrhs : cond.rhsCol.tabName = b) (hconds : ∀ c ∈ cond :: conds, Between a b c)
    (hknobs : knobs.nestedloop = true ∨ knobs.sortmerge = true) :
    ∃ more, makeOneRel cat knobs (fun _ s => .scan s) tables (cond :: conds) =
        some (joinPlan knobs (.scan (tableScan cat a)) (.scan (tableScan cat b)) cond more) ∧
      (conds = [] → more = []) := by
  have hpop := popConds_between hne hconds
  obtain ⟨tabA, htabA⟩ := Option.isSome_iff_exists.mp ha
  obtain ⟨tabB, htabB⟩ := Option.isSome_iff_exists.mp hb
  have hfirst : ∃ scantbl joined plans, a ∈ joined ∧ b ∈ joined ∧ 0 ∈ scantbl ∧ 1 ∈ scantbl ∧
      plans.length = 2 ∧
      makeOneRel cat knobs (fun _ s => .scan s) tables (cond :: conds) =
        some (restJoins plans (conds.foldl (joinStep plans)
          ⟨joinPlan knobs (.scan (tableScan cat a)) (.scan (tableScan cat b)) cond [], scantbl,
            joined⟩)) := by
    have hsm : knobs.nestedloop = false → knobs.sortmerge = true := fun hnl =>
      hknobs.resolve_left (by simp [hnl])
    rcases htables with rfl | rfl
    · refine ⟨[0, 1], ["", "", a, b],
        [.scan (tableScan cat a), .scan (tableScan cat b)], by simp, by simp, by simp, by simp, rfl, ?_⟩
      cases hnl : knobs.nestedloop with
      | true =>
        simp [makeOneRel, scanTables, hpop, getIndexCols_nil ha, getIndexCols_nil hb, htabA, htabB,
          joinTables, firstJoin, popScan, Plan.tabName, hlhs, hrhs, hne, hnl, joinPlan, tableScan,
          List.findIdx?_cons]
      | false =>
        simp [makeOneRel, scanTables, hpop, getIndexCols_nil ha, getIndexCols_nil hb, htabA, htabB,
          joinTables, firstJoin, popScan, Plan.tabName, hlhs, hrhs, hne, hnl, hsm hnl, joinPlan,
          tableScan, List.findIdx?_cons, generateSortMergePlan]
    · refine ⟨[1, 0], ["", "", a, b],
        [.scan (tableScan cat b), .scan (tableScan cat a)], by simp, by simp, by simp, by simp, rfl, ?_⟩
      cases hnl : knobs.nestedloop with
      | true =>
        simp [makeOneRel, scanTables, hpop, getIndexCols_nil ha, getIndexCols_nil hb, htabA, htabB,
          joinTables, firstJoin, popScan, Plan.tabName, hlhs, hrhs, hne.symm, hnl, joinPlan, tableScan,
          List.findIdx?_cons]
      | false =>
        simp [makeOneRel, scanTables, hpop, getIndexCols_nil ha, getIndexCols_nil hb, htabA, htabB,
          joinTables, firstJoin, popScan, Plan.tabName, hlhs, hrhs, hne.symm, hnl, hsm hnl, joinPlan,
          tableScan, List.findIdx?_cons, generateSortMergePlan]
  obtain ⟨scantbl, joined, plans, hja, hjb, h0, h1, hlen, hplan⟩ := hfirst
  obtain ⟨more, hfold, hnil⟩ := @foldl_joinStep_between knobs cond conds [] (tableScan cat a)
    (tableScan cat b) plans
    ⟨joinPlan knobs (.scan (tableScan cat a)) (.scan (tableScan cat b)) cond [], scantbl, joined⟩ hne
    (fun c hc => hconds c (List.mem_cons_of_mem cond hc)) hja hjb rfl
  refine ⟨more, ?_, hnil⟩
  rw [hplan, hfold]
  simp [restJoins, hlen, List.range_succ, h0, h1]

end Plans

end Grmdb
