import Grmdb.QueryAnswers
import Grmdb.SelectPlan
import Grmdb.SortOrder

namespace Grmdb

open Environments

section Swap

variable {cat : Catalog} {env : String → Bytes} {cond cond' : Condition}

theorem CompOp.holds_swap {α : Type} [LT α] [DecidableEq α] [DecidableLT α] (op : CompOp)
    (l r : α) : op.swap.holds r l = op.holds l r := by
  cases op with
  | eq => simp [CompOp.swap, CompOp.holds, eq_comm]
  | ne => simp [CompOp.swap, CompOp.holds, eq_comm]
  | lt => rfl
  | gt => rfl
  | le => rfl
  | ge => rfl

theorem floatComp_swap (l r : UInt32) (op : CompOp) : floatComp r l op.swap = floatComp l r op := by
  unfold floatComp
  cases floatRank l with
  | none => cases floatRank r <;> cases op <;> rfl
  | some i =>
    cases floatRank r with
    | none => cases op <;> rfl
    | some j => exact CompOp.holds_swap op i j

theorem Value.comp_swap (l r : Value) (op : CompOp) : r.comp l op.swap = l.comp r op := by
  cases l with
  | int i =>
    cases r with
    | int j => exact congrArg some (CompOp.holds_swap op i j)
    | float y => exact congrArg some (floatComp_swap _ _ op)
    | string s => rfl
  | float x =>
    cases r with
    | int j => exact congrArg some (floatComp_swap _ _ op)
    | float y => exact congrArg some (floatComp_swap _ _ op)
    | string s => rfl
  | string s =>
    cases r with
    | int j => rfl
    | float y => rfl
    | string s' => exact congrArg some (CompOp.holds_swap op _ _)

theorem Condition.evalIn_swap (h : cond.isRhsVal = false) :
    cond.swap.evalIn cat env = cond.evalIn cat env := by
  have hswap : cond.swap.evalIn cat env = (valueIn cat env cond.rhsCol).bind fun right =>
      (valueIn cat env cond.lhsCol).bind fun left => right.comp left cond.op.swap := by
    have h' : cond.swap.isRhsVal = false := h
    rw [evalIn, h']
    rfl
  have hplain : cond.evalIn cat env = (valueIn cat env cond.lhsCol).bind fun left =>
      (valueIn cat env cond.rhsCol).bind fun right => left.comp right cond.op := by
    rw [evalIn, h]
    rfl
  rw [hswap, hplain]
  cases valueIn cat env cond.lhsCol with
  | none => cases valueIn cat env cond.rhsCol <;> rfl
  | some left =>
    cases valueIn cat env cond.rhsCol with
    | none => rfl
    | some right => rw [Option.bind_some, Option.bind_some, Option.bind_some, Option.bind_some,
        Value.comp_swap]

theorem Condition.holdsIn_swap (h : cond.isRhsVal = false) :
    cond.swap.holdsIn cat env = cond.holdsIn cat env := by
  rw [holdsIn, holdsIn, evalIn_swap h]

/-- Conditions in the form in which the planner has placed them say the same. -/
theorem all_holdsIn_mirrors {conds there : List Condition}
    (hmirrors : List.Forall₂ Condition.Mirrors conds there)
    (hval : ∀ cond ∈ conds, cond.isRhsVal = true → cond.swap ∈ there → False) :
    (there.all fun cond => cond.holdsIn cat env) = conds.all fun cond => cond.holdsIn cat env := by
  induction hmirrors with
  | nil => rfl
  | @cons cond cond' conds there hmirror _ ih =>
    have hrest := ih fun c hc hc' hmem =>
      hval c (List.mem_cons_of_mem _ hc) hc' (List.mem_cons_of_mem _ hmem)
    rw [List.all_cons, List.all_cons, hrest]
    rcases hmirror with rfl | rfl
    · rfl
    · cases hcond : cond.isRhsVal with
      | true => exact (hval cond List.mem_cons_self hcond List.mem_cons_self).elim
      | false => rw [Condition.holdsIn_swap hcond]

end Swap

section Loops

variable {plans : List Plan} {plan : Plan} {knobs : JoinKnobs} {cond : Condition}
  {conds : List Condition} {st : JoinState}

theorem pushConds_nestedLoops (cond : Condition) (h : plan.NestedLoops) :
    (pushConds cond plan).1.NestedLoops := by
  induction plan with
  | join sm left right conds ihLeft ihRight =>
    obtain ⟨hsm, hleft, hright⟩ := h
    unfold pushConds
    split
    next left' hl =>
      have hleft' := ihLeft hleft
      rw [hl] at hleft'
      exact ⟨hsm, hleft', hright⟩
    next =>
      split
      next right' hr =>
        have hright' := ihRight hright
        rw [hr] at hright'
        exact ⟨hsm, hleft, hright'⟩
      next =>
        split
        · exact ⟨hsm, hleft, hright⟩
        · exact ⟨hsm, hleft, hright⟩
  | null | scan | scanSub | values | sort | aggr | projection => exact h

section

variable (hplans : ∀ plan ∈ plans, plan.NestedLoops)

include hplans

theorem getD_nestedLoops (i : Nat) : (plans.getD i .null).NestedLoops := by
  by_cases hi : i < plans.length
  · rw [List.getD_eq_getElem _ _ hi]
    exact hplans _ (List.getElem_mem hi)
  · rw [List.getD_eq_default _ _ (Nat.le_of_not_lt hi)]
    trivial

theorem popScan_nestedLoops (st : JoinState) (t : String) :
    (popScan plans st t).1.NestedLoops := by
  unfold popScan
  split
  next i _ => exact getD_nestedLoops hplans i
  next => trivial

theorem joinStep_nestedLoops (hcond : cond.Joins plans) (h : st.plan.NestedLoops) :
    (joinStep plans st cond).plan.NestedLoops := by
  cases joinRound hcond st with
  | push _ _ hstep =>
    rw [show joinStep plans st cond = _ from hstep st.plan]
    exact pushConds_nestedLoops cond h
  | addRight j _ _ _ _ hstep | addLeft j _ _ _ _ hstep =>
    rw [show joinStep plans st cond = _ from hstep st.plan]
    exact ⟨rfl, getD_nestedLoops hplans j, h⟩
  | addBoth i j _ _ _ _ _ _ hstep =>
    rw [show joinStep plans st cond = _ from hstep st.plan]
    exact ⟨rfl, ⟨rfl, getD_nestedLoops hplans i, getD_nestedLoops hplans j⟩, h⟩

theorem joinSteps_nestedLoops (hconds : ∀ cond ∈ conds, cond.Joins plans)
    (h : st.plan.NestedLoops) : (conds.foldl (joinStep plans) st).plan.NestedLoops := by
  induction conds generalizing st with
  | nil => exact h
  | cons cond conds ih =>
    exact ih (fun c hc => hconds c (List.mem_cons_of_mem cond hc))
      (joinStep_nestedLoops hplans (hconds cond List.mem_cons_self) h)

theorem restJoins_nestedLoops (h : st.plan.NestedLoops) : (restJoins plans st).NestedLoops := by
  unfold restJoins
  generalize st.plan = plan at h
  induction List.range plans.length generalizing plan with
  | nil => exact h
  | cons i is ih =>
    rw [List.foldl_cons]
    split
    next => exact ih plan h
    next => exact ih _ ⟨rfl, getD_nestedLoops hplans i, h⟩

/-- With nested-loop joins there is no other join in the plan. -/
theorem joinTables_nestedLoops (hknobs : knobs.nestedloop = true)
    (hconds : ∀ cond ∈ conds, cond.Joins plans) (h : joinTables knobs plans conds = some plan) :
    plan.NestedLoops := by
  cases conds with
  | nil =>
    cases h
    exact restJoins_nestedLoops hplans (getD_nestedLoops hplans 0)
  | cons cond conds =>
    obtain ⟨st, hfirst, rfl⟩ := Option.map_eq_some_iff.mp h
    refine restJoins_nestedLoops hplans (joinSteps_nestedLoops hplans
      (fun c hc => hconds c (List.mem_cons_of_mem cond hc)) ?_)
    unfold firstJoin at hfirst
    simp only [hknobs, if_true] at hfirst
    cases hfirst
    exact ⟨rfl, popScan_nestedLoops hplans _ _, popScan_nestedLoops hplans _ _⟩

end

end Loops

section Relation

variable {db : Database} {knobs : JoinKnobs} {tables : List String} {conds : List Condition}
  {plan : Plan} {fuel : Nat} {exec : Executor}

theorem scanLeaf_scan : ScanLeaf fun _ s => Plan.scan s :=
  ⟨fun _ _ => rfl, fun _ _ => rfl, fun _ _ => rfl, fun _ _ => rfl, fun _ _ => trivial⟩

theorem makeOneRel_nestedLoops (hknobs : knobs.nestedloop = true) (hne : tables ≠ [])
    (hchecked : ∀ cond ∈ conds, cond.Checked)
    (hin : ∀ cond ∈ conds, ∀ t ∈ cond.tables, t ∈ tables)
    (h : makeOneRel db.cat knobs (fun _ s => .scan s) tables conds = some plan) :
    plan.NestedLoops := by
  obtain ⟨⟨scans, left⟩, hscans, -⟩ := Option.bind_eq_some_iff.mp h
  rcases makeOneRel_cases hne scanLeaf_scan hchecked hin hscans h with
    ⟨s, -, -, rfl⟩ | ⟨-, -, hjoins, htop⟩
  · trivial
  · refine joinTables_nestedLoops (fun p hp => ?_) hknobs hjoins htop
    obtain ⟨i, s, -, rfl⟩ := mapIdx_mem hp
    trivial

/-- The relation that the planner builds for the tables and conditions of a query delivers the
answers to it, if it gets through. -/
theorem makeOneRel_gives (hknobs : knobs.nestedloop = true) (hne : tables ≠ [])
    (hnodup : tables.Nodup) (hnamed : "" ∉ tables) (hchecked : ∀ cond ∈ conds, cond.Checked)
    (hcat : ∀ t ∈ tables, (db.cat t).isSome) (hplaces : PlacesConds db.cat knobs tables conds)
    (h : makeOneRel db.cat knobs (fun _ s => .scan s) tables conds = some plan)
    (hfit : db.TablesFit tables) (hindexes : db.IndexesFit plan)
    (hexec : convertPlanExecutor db fuel plan = some exec) :
    plan.order.Perm tables ∧ exec.Gives db.cat plan.order (db.answers plan.order conds) := by
  have hkeeps := hplaces.keeps hne scanLeaf_scan hchecked h
  have hloops := makeOneRel_nestedLoops hknobs hne hchecked hplaces.inFrom h
  have hperm := hloops.order_perm.trans hkeeps.tables
  have hon : ∀ s ∈ plan.scans, ∀ cond ∈ s.conds, cond.onTable s.tabName = true :=
    fun s hs cond hcond => (List.mem_filter.mp ((hkeeps.onScan s hs).mem_iff.mp hcond)).2
  obtain ⟨there, hmirrors, hthere⟩ := hkeeps.all
  have hsame : db.answers plan.order conds = db.answers plan.order plan.allConds := by
    rw [Database.answers_conds_perm (show plan.allConds.Perm there from hthere)]
    refine Database.answers_conds fun env =>
      (all_holdsIn_mirrors hmirrors fun cond hcond hval hswap => ?_).symm
    -- the mirror image of a condition with a literal would have no table
    have htab := Plan.allConds_tables hloops hkeeps.placed hon _ (hthere.mem_iff.mpr hswap)
      cond.rhsCol.tabName List.mem_cons_self
    rw [(hchecked cond hcond).val hval, hperm.mem_iff] at htab
    exact hnamed htab
  rw [hsame]
  exact ⟨hperm, plan_gives hfit hcat hloops (fun t ht => hperm.mem_iff.mp ht)
    (hperm.nodup_iff.mpr hnodup) hkeeps.placed hon hindexes hexec⟩

end Relation

section Rows

variable {db : Database} {fuel : Nat} {order : List String} {envs : List (String → Bytes)}
  {exec prev : Executor} {rows : List Bytes}

theorem Executor.Gives.firstPass (h : prev.Gives db.cat order envs) (hpass : prev.FirstPass rows) :
    rows.Perm (envs.map (flatRow order)) := by
  obtain ⟨rows', At, Taken, Again, hhonest, hperm⟩ := h.rows
  obtain ⟨s, hstart, hdelivers⟩ := hpass
  rw [hhonest.delivers (hhonest.start s hstart) hdelivers]
  exact hperm

theorem mem_of_findCol_rowCols {cat : Catalog} {env : String → Bytes} {target : TabCol}
    {col : ColMeta} (hfits : FitsIn cat order env)
    (h : findCol (rowCols cat order) target = some col) : target.tabName ∈ order := by
  have hmem := mem_rowCols hfits (List.mem_of_find?_eq_some h)
  have hfound := List.find?_some h
  simp only [Bool.and_eq_true, beq_iff_eq] at hfound
  rwa [hfound.1] at hmem

/-- The fields of the chosen columns. -/
theorem projectTuple_flatRow {cat : Catalog} {env : String → Bytes} {cols : List TabCol}
    {picked : List ColMeta} (hcat : ∀ t ∈ order, (cat t).isSome) (hfits : FitsIn cat order env)
    (h : cols.mapM (findCol (rowCols cat order)) = some picked) :
    projectTuple picked (flatRow order env) = cols.flatMap (fieldIn cat env) := by
  have hall := MapM.forall₂_of_mapM h
  clear h
  induction hall with
  | nil => rfl
  | @cons target col cols picked hcol _ ih =>
    have htarget := mem_of_findCol_rowCols hfits hcol
    have hfield : ((flatRow order env).drop col.offset).take col.len = fieldIn cat env target := by
      rcases findCol_rowCols hcat hfits htarget with
        ⟨-, hnone⟩ | ⟨col', col'', hcol', hfind, -, hbytes⟩
      · cases hcol.symm.trans hnone
      · cases hcol.symm.trans hfind
        rw [hbytes, fieldIn, hcol']
        rfl
    rw [projectTuple, List.flatMap_cons, List.flatMap_cons, ← ih, hfield]
    rfl

/-- What a sort delivers comes from a run of its input. -/
theorem sortExecutor_rows {selCol : TabCol} {isDesc : Bool} {tmpFd : Nat → Nat}
    {otherPages : Nat → Option (Nat → Option Bytes)}
    (hexec : sortExecutor fuel prev selCol isDesc tmpFd otherPages = some exec)
    (hpass : exec.FirstPass rows) :
    ∃ orderBy records, findCol prev.cols selCol = some orderBy ∧ exec.cols = prev.cols ∧
      prev.FirstPass records ∧
      ((∀ row ∈ records, (orderBy.key? row).isSome) →
        SortFits orderBy isDesc (PAGE_SIZE / prev.tupleLen) records →
          rows.Perm records ∧ rows.Pairwise (ordered orderBy isDesc)) := by
  have hexec' := hexec
  obtain ⟨orderBy, hcol, hexec'⟩ := Option.bind_eq_some_iff.mp hexec'
  dsimp only at hexec'
  split at hexec'
  next => cases hexec'
  next hpage =>
    cases hexec'
    have hpass' := hpass
    obtain ⟨s₀, hstart, -⟩ := hpass'
    obtain ⟨p, hp, hstart⟩ := Option.bind_eq_some_iff.mp hstart
    obtain ⟨⟨records, p'⟩, hcollect, hstart⟩ := Option.bind_eq_some_iff.mp hstart
    have hprev : prev.FirstPass records := ⟨p, hp, Cursor.collect_delivers hcollect⟩
    refine ⟨orderBy, records, hcol, rfl, hprev, fun hkeys hfits => ?_⟩
    have hpos : 0 < PAGE_SIZE / prev.tupleLen := Nat.pos_of_ne_zero hpage
    obtain ⟨sorted, hsort, hperm, hcase⟩ := sortBlocks_fits hpos hkeys hfits
    obtain ⟨exec', hexec', hpass'⟩ :=
      sortExecutor_firstPass hprev hcol hpos (Cursor.collect_length hcollect) hsort
    cases hexec.symm.trans hexec'
    obtain ⟨s₁, hs₁, hdelivers⟩ := hpass
    obtain ⟨s₂, hs₂, hdelivers'⟩ := hpass'
    cases hs₁.symm.trans hs₂
    obtain ⟨result, hresult, hpair, hdistrict⟩ := loadSorted_sorts hpos (fun _ _ => []) hcase
    rw [hdelivers.unique hdelivers', hdistrict]
    exact ⟨hresult.trans hperm, hpair⟩

/-- A projection delivers the chosen fields of what its input does. -/
theorem projectionExecutor_rows {cols names : List TabCol}
    (hexec : projectionExecutor prev cols names = some exec) (hpass : exec.FirstPass rows) :
    ∃ picked records, cols.mapM (findCol prev.cols) = some picked ∧ prev.FirstPass records ∧
      rows = records.map (projectTuple picked) := by
  obtain ⟨picked, hpicked, rfl⟩ := Option.map_eq_some_iff.mp hexec
  obtain ⟨s, hstart, hdelivers⟩ := hpass
  obtain ⟨records, hrecords, rfl⟩ := Cursor.Delivers.of_map hdelivers
  exact ⟨picked, records, hpicked, ⟨s, hstart, hrecords⟩, rfl⟩

end Rows

section Order

variable {cat : Catalog} {env : String → Bytes} {target : TabCol}

/-- The place of a column among those of its type. -/
def keyIn (cat : Catalog) (env : String → Bytes) (target : TabCol) : Option (List Int) :=
  (valueIn cat env target).bind Value.rank

/-- Two answers in the order of a column. -/
def orderedIn (cat : Catalog) (target : TabCol) (isDesc : Bool) (env env' : String → Bytes) :
    Prop :=
  let key := fun env => (keyIn cat env target).getD []
  if isDesc then key env' ≤ key env else key env ≤ key env'

theorem key_flatRow {order : List String} {orderBy : ColMeta}
    (hcat : ∀ t ∈ order, (cat t).isSome) (hfits : FitsIn cat order env)
    (h : findCol (rowCols cat order) target = some orderBy) :
    orderBy.key? (flatRow order env) = keyIn cat env target := by
  have htarget := mem_of_findCol_rowCols hfits h
  have hvalue := getValue_rowCols hcat hfits htarget
  rw [getValue, h, Option.bind_some] at hvalue
  rw [ColMeta.key?, hvalue, keyIn]

end Order

section Select

variable {σ ρ : Type} {cat : Catalog} {analyzeSub : σ → Option ρ} {x : SelectStmt σ}
  {query : SelectQuery ρ}

theorem addHaving_checked {allCols : List ColMeta} {groupBys : List TabCol}
    {st st' : List Condition × List HavingCond} {having : HavingExpr}
    (hst : ∀ cond ∈ st.1, cond.Checked) (h : addHaving allCols groupBys st having = some st') :
    ∀ cond ∈ st'.1, cond.Checked := by
  unfold addHaving at h
  split at h
  next =>
    cases h
    exact hst
  next =>
    obtain ⟨lhsCol, hlhs, h⟩ := Option.bind_eq_some_iff.mp h
    split at h
    next =>
      cases h
      intro cond hcond
      rcases List.mem_append.mp hcond with hold | hnew
      · exact hst cond hold
      · cases List.mem_singleton.mp hnew
        exact ⟨checkColumn_named hlhs, fun hval => absurd hval (by simp), fun _ => rfl⟩
    next => cases h
  next =>
    obtain ⟨tabCol, -, h⟩ := Option.bind_eq_some_iff.mp h
    obtain ⟨type, -, rfl⟩ := Option.map_eq_some_iff.mp h
    exact hst

theorem addHavings_checked {allCols : List ColMeta} {groupBys : List TabCol}
    {havings : List HavingExpr} {st st' : List Condition × List HavingCond}
    (hst : ∀ cond ∈ st.1, cond.Checked)
    (h : havings.foldlM (addHaving allCols groupBys) st = some st') :
    ∀ cond ∈ st'.1, cond.Checked := by
  induction havings generalizing st with
  | nil =>
    cases h
    exact hst
  | cons having havings ih =>
    obtain ⟨st₁, hst₁, h⟩ := Option.bind_eq_some_iff.mp h
    exact ih (addHaving_checked hst hst₁) h

theorem doAnalyze_eq (h : doAnalyze cat analyzeSub x = some query) :
    query.query.tables = x.tabs ∧ query.parse = x.orderBys ∧
      (∀ t ∈ x.tabs, (cat t).isSome) ∧ ∀ cond ∈ query.query.conds, cond.Checked := by
  obtain ⟨one, hone, rfl⟩ := Option.map_eq_some_iff.mp h
  obtain ⟨allCols, hcols, h⟩ := Option.bind_eq_some_iff.mp hone
  obtain ⟨sel, -, h⟩ := Option.bind_eq_some_iff.mp h
  obtain ⟨base, hbase, h⟩ := Option.bind_eq_some_iff.mp h
  obtain ⟨groupBys, -, h⟩ := Option.bind_eq_some_iff.mp h
  split at h
  next =>
    obtain ⟨⟨conds, havings⟩, hhavings, rfl⟩ := Option.map_eq_some_iff.mp h
    obtain ⟨-, -, -, -, htables⟩ := analyzeSelect_eq hbase
    exact ⟨htables, rfl, getAllCols_tables hcols,
      addHavings_checked (analyzeSelect_checked hbase) hhavings⟩
  next => cases h

/-- What ORDER BY is asked for, where the clause names a column: the answers take at most the pages
of one block, and each has a place in the order. -/
def OrderFits (db : Database) (tables : List String) (answers : List (String → Bytes))
    (orderBy : OrderBy) : Prop :=
  ∀ allCols, getAllCols db.cat tables = some allCols →
    (answers.length + PAGE_SIZE / rowLen db.cat tables - 1) / (PAGE_SIZE / rowLen db.cat tables) ≤
      BLOCK_SIZE_MIN ∧
    ∀ env ∈ answers, (keyIn db.cat env (sortCol allCols orderBy.cols.colName)).isSome

theorem OrderFits.perm {db : Database} {tables : List String} {orderBy : OrderBy}
    {answers answers' : List (String → Bytes)} (h : OrderFits db tables answers orderBy)
    (hperm : answers'.Perm answers) : OrderFits db tables answers' orderBy := by
  intro allCols hcols
  obtain ⟨hpages, hkeys⟩ := h allCols hcols
  exact ⟨hperm.length_eq ▸ hpages, fun env henv => hkeys env (hperm.mem_iff.mp henv)⟩

theorem rowLen_perm {order order' : List String} (h : order.Perm order') :
    rowLen cat order = rowLen cat order' := (h.map _).sum_eq

/-- The plan of a SELECT without aggregates, taken apart. -/
theorem generateSelectPlan_eq {knobs : JoinKnobs} {selectPlan : ρ → Nat → Option Plan} {plan : Plan}
    (hplain : query.query.subquery = none) (haggr : query.aggregates = [])
    (hgroup : query.groupBys = [])
    (h : generateSelectPlan cat knobs selectPlan query = some plan) :
    ∃ rel sub, makeOneRel cat knobs (fun _ s => .scan s) query.query.tables query.query.conds =
        some rel ∧ query.query.makeOneRel cat knobs selectPlan = some rel ∧
      generateSortPlan cat query rel = some sub ∧
      plan = .projection sub query.cols (aliasCols query.cols query.aliases) := by
  obtain ⟨sub, hsub, rfl⟩ := Option.map_eq_some_iff.mp h
  obtain ⟨rel, hrel, hsort⟩ := Option.bind_eq_some_iff.mp hsub
  rw [haggr, hgroup] at hrel
  rw [if_pos ⟨rfl, rfl⟩] at hrel
  refine ⟨rel, sub, ?_, hrel, hsort, rfl⟩
  unfold Query.makeOneRel at hrel
  rw [hplain] at hrel
  exact hrel

/-- What the input of the projection delivers, in the order that is asked for. -/
theorem sortPlan_answers {db : Database} {fuel : Nat} {rel sub : Plan} {prev : Executor}
    {records : List Bytes} {order : List String} {conds : List Condition}
    (horder : order.Perm query.query.tables) (hcat : ∀ t ∈ order, (db.cat t).isSome)
    (hfits : ∀ env ∈ db.answers order conds, FitsIn db.cat order env)
    (hgives : ∀ exec, convertPlanExecutor db fuel rel = some exec →
      exec.Gives db.cat order (db.answers order conds))
    (hparse : query.parse = x.orderBys)
    (hsorts : ∀ orderBy, x.orderBys = some orderBy →
      OrderFits db query.query.tables (db.answers order conds) orderBy)
    (hsub : generateSortPlan db.cat query rel = some sub)
    (hprev : convertPlanExecutor db fuel sub = some prev) (hpass : prev.FirstPass records) :
    prev.cols = rowCols db.cat order ∧
    ∃ answers : List (String → Bytes), answers.Perm (db.answers order conds) ∧
      answers.map (flatRow order) = records ∧
      ∀ orderBy allCols, x.orderBys = some orderBy →
        getAllCols db.cat query.query.tables = some allCols →
        answers.Pairwise
          (orderedIn db.cat (sortCol allCols orderBy.cols.colName) orderBy.isDesc) := by
  have hback : ∀ records : List Bytes, records.Perm ((db.answers order conds).map (flatRow order)) →
      ∃ answers : List (String → Bytes), answers.Perm (db.answers order conds) ∧
        answers.map (flatRow order) = records := by
    intro records hperm
    have hcomp := congrFun (congrFun (List.eq_map_comp_perm (flatRow order)) records)
      (db.answers order conds)
    obtain ⟨answers, hmap, hanswers⟩ := hcomp.mpr hperm
    exact ⟨answers, hanswers, hmap.symm⟩
  unfold generateSortPlan at hsub
  rw [hparse] at hsub
  cases hby : x.orderBys with
  | none =>
    rw [hby] at hsub
    cases hsub
    have h := hgives prev hprev
    obtain ⟨answers, hanswers, hmap⟩ := hback records (h.firstPass hpass)
    exact ⟨h.cols, answers, hanswers, hmap, fun orderBy allCols hsome => by cases hsome⟩
  | some orderBy =>
    rw [hby] at hsub
    obtain ⟨allCols, hcols, rfl⟩ := Option.map_eq_some_iff.mp hsub
    obtain ⟨input, hinput, hprev⟩ := Option.bind_eq_some_iff.mp hprev
    have h := hgives input hinput
    obtain ⟨col, unsorted, hcol, hsame, hunsorted, hsort⟩ := sortExecutor_rows hprev hpass
    have hperm := h.firstPass hunsorted
    obtain ⟨hpages, hkeys⟩ := hsorts orderBy hby allCols hcols
    rw [h.cols] at hcol
    have hkey : ∀ env ∈ db.answers order conds, col.key? (flatRow order env) =
        keyIn db.cat env (sortCol allCols orderBy.cols.colName) :=
      fun env henv => key_flatRow hcat (hfits env henv) hcol
    obtain ⟨hsorted, hpair⟩ := hsort (fun row hrow => by
      obtain ⟨env, henv, rfl⟩ := List.mem_map.mp (hperm.mem_iff.mp hrow)
      rw [hkey env henv]
      exact hkeys env henv) (Or.inl (by
        rw [sortNumPages, hperm.length_eq, List.length_map, h.tupleLen, rowLen_perm horder]
        exact hpages))
    obtain ⟨answers, hanswers, rfl⟩ := hback records (hsorted.trans hperm)
    refine ⟨hsame.trans h.cols, answers, hanswers, rfl, fun orderBy' allCols' hsome hcols' => ?_⟩
    cases hsome
    cases hcols.symm.trans hcols'
    refine (List.pairwise_map.mp hpair).imp_of_mem fun {env env'} henv henv' hle => ?_
    rw [ordered, ColMeta.key, ColMeta.key, hkey env (hanswers.mem_iff.mp henv),
      hkey env' (hanswers.mem_iff.mp henv')] at hle
    exact hle

/-- A SELECT without aggregates and subqueries whose conditions the planner can place delivers,
if its executors get through, the chosen fields of every answer once, in the order asked for. -/
theorem select_answers (db : Database) (fuel : Nat) (knobs : JoinKnobs) (analyzeSub : σ → Option ρ)
    (selectPlan : ρ → Nat → Option Plan) (x : SelectStmt σ) (query : SelectQuery ρ) (plan : Plan)
    (exec : Executor) (rows : List Bytes) (hknobs : knobs.nestedloop = true) (hne : x.tabs ≠ [])
    (hnodup : x.tabs.Nodup) (hnamed : "" ∉ x.tabs)
    (hquery : doAnalyze db.cat analyzeSub x = some query) (hplain : query.query.subquery = none)
    (haggr : query.aggregates = []) (hgroup : query.groupBys = [])
    (hplaces : PlacesConds db.cat knobs x.tabs query.query.conds) (hfit : db.TablesFit x.tabs)
    (hindexes : ∀ rel, query.query.makeOneRel db.cat knobs selectPlan = some rel →
      db.IndexesFit rel)
    (hsorts : ∀ orderBy, x.orderBys = some orderBy →
      OrderFits db x.tabs (db.answers x.tabs query.query.conds) orderBy)
    (hplan : generateSelectPlan db.cat knobs selectPlan query = some plan)
    (hyields : plan.Yields db fuel exec rows) :
    ∃ answers : List (String → Bytes), answers.Perm (db.answers x.tabs query.query.conds) ∧
      rows = answers.map (fun env => query.cols.flatMap (fieldIn db.cat env)) ∧
      ∀ orderBy allCols, x.orderBys = some orderBy → getAllCols db.cat x.tabs = some allCols →
        answers.Pairwise
          (orderedIn db.cat (sortCol allCols orderBy.cols.colName) orderBy.isDesc) := by
  obtain ⟨htables, hparse, hcat, hchecked⟩ := doAnalyze_eq hquery
  obtain ⟨rel, sub, hrel, hrel', hsub, rfl⟩ := generateSelectPlan_eq hplain haggr hgroup hplan
  obtain ⟨hconv, hpass⟩ := hyields
  obtain ⟨prev, hprev, hexec⟩ := Option.bind_eq_some_iff.mp hconv
  obtain ⟨picked, records, hpicked, hrecords, rfl⟩ := projectionExecutor_rows hexec hpass
  rw [htables] at hrel
  have hgives : ∀ exec, convertPlanExecutor db fuel rel = some exec →
      rel.order.Perm x.tabs ∧
        exec.Gives db.cat rel.order (db.answers rel.order query.query.conds) :=
    fun exec hexec => makeOneRel_gives hknobs hne hnodup hnamed hchecked hcat hplaces hrel hfit
      (hindexes rel hrel') hexec
  have horder : rel.order.Perm x.tabs :=
    (makeOneRel_nestedLoops hknobs hne hchecked hplaces.inFrom hrel).order_perm.trans
      (hplaces.keeps hne scanLeaf_scan hchecked hrel).tables
  have hsame := @Database.answers_perm db rel.order x.tabs query.query.conds horder
    (horder.nodup_iff.mpr hnodup)
  have hfits : ∀ env ∈ db.answers rel.order query.query.conds, FitsIn db.cat rel.order env :=
    fun env henv => hfit.fitsIn (fun t ht => horder.mem_iff.mp ht) (List.mem_filter.mp henv).1
  have hcat' : ∀ t ∈ rel.order, (db.cat t).isSome := fun t ht => hcat t (horder.mem_iff.mp ht)
  obtain ⟨hcols, answers, hanswers, rfl, hordered⟩ := sortPlan_answers (htables.symm ▸ horder) hcat'
    hfits (fun exec hexec => (hgives exec hexec).2) hparse (fun orderBy hby => by
      rw [htables]
      exact (hsorts orderBy hby).perm hsame) hsub hprev hrecords
  rw [hcols] at hpicked
  rw [htables] at hordered
  refine ⟨answers, hanswers.trans hsame, ?_, hordered⟩
  rw [List.map_map]
  refine List.map_congr_left fun env henv => ?_
  exact projectTuple_flatRow hcat' (hfits env (hanswers.mem_iff.mp henv)) hpicked

/-- `SELECT b.y AS n, a.y FROM a, b WHERE a.x = b.x AND b.y > 4 ORDER BY y DESC`. -/
def pairSelect : SelectStmt Unit where
  aggCols := [⟨⟨"b", "y"⟩, .noOp, true, "n"⟩, ⟨⟨"a", "y"⟩, .noOp, false, ""⟩]
  tabs := ["a", "b"]
  conds := [⟨⟨"a", "x"⟩, false, .eq, .col ⟨"b", "x"⟩⟩, ⟨⟨"b", "y"⟩, false, .gt, .value (.int 4)⟩]
  groupBys := []
  havings := []
  orderBys := some ⟨⟨"", "y"⟩, true⟩

def pairSelectConds : List Condition :=
  [sameX, ⟨⟨"b", "y"⟩, .gt, true, ⟨"", ""⟩, some (.int 4)⟩]

def pairSelectQuery : SelectQuery Unit where
  query := ⟨["a", "b"], pairSelectConds, none⟩
  cols := [⟨"b", "y"⟩, ⟨"a", "y"⟩]
  aliases := [⟨true, "n"⟩, ⟨false, ""⟩]
  aggregates := []
  groupBys := []
  havings := []
  parse := some ⟨⟨"", "y"⟩, true⟩

theorem select_answers_pairSelect :
    ∃ plan exec rows, generateSelectPlan pairCatalog ⟨true, false⟩ (fun _ _ => none)
        pairSelectQuery = some plan ∧ plan.Yields (joinDatabase sameXRows) 6 exec rows ∧
      ∃ answers : List (String → Bytes),
        answers.Perm ((joinDatabase sameXRows).answers ["a", "b"] pairSelectConds) ∧
        rows = answers.map (fun env =>
          pairSelectQuery.cols.flatMap (fieldIn (joinDatabase sameXRows).cat env)) ∧
        ∀ orderBy allCols, pairSelect.orderBys = some orderBy →
          getAllCols pairCatalog ["a", "b"] = some allCols →
          answers.Pairwise
            (orderedIn pairCatalog (sortCol allCols orderBy.cols.colName) orderBy.isDesc) := by
  refine ⟨_, _, [[7, 0, 0, 0, 5, 0, 0, 0], [5, 0, 0, 0, 5, 0, 0, 0]], rfl,
    ⟨rfl, _, rfl, .cons rfl rfl rfl (.cons rfl rfl rfl (.nil rfl))⟩, ?_⟩
  refine select_answers (joinDatabase sameXRows) 6 ⟨true, false⟩ (fun _ => some ())
    (fun _ _ => none) pairSelect pairSelectQuery _ _ _ rfl (by decide) (by decide) (by decide)
    (by decide +kernel) rfl rfl rfl ⟨by decide, ?_, ?_, ?_, Or.inl rfl⟩ ⟨?_, ?_⟩ ?_ ?_ rfl
    ⟨rfl, _, rfl, .cons rfl rfl rfl (.cons rfl rfl rfl (.nil rfl))⟩
  · intro cond hcond hsame
    have hnone : ∀ cond ∈ pairSelectConds, cond.isRhsVal = false →
        cond.lhsCol.tabName ≠ cond.rhsCol.tabName := by decide
    exact absurd hsame.2 (hnone cond hcond hsame.1)
  · intro cond _ t _
    exact List.nodup_iff_count_le_one.mp (by decide) t
  · intro t _ tab htab _
    cases htab
    trivial
  · intro t _ tab htab
    cases htab
    simp [TabMeta.tupleLen]
  · intro t ht tab htab
    cases htab
    revert t
    decide
  · intro rel _ s _ _ tab index tree file _ _ htree
    cases htree
  · intro orderBy hby allCols hcols
    cases hby
    cases hcols
    constructor
    · decide
    · decide

end Select

end Grmdb
