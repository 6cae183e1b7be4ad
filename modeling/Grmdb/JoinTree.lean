import Grmdb.QueryPlan

namespace Grmdb

namespace Plan

/-- The plans under the joins, from left to right. -/
def leaves : Plan → List Plan
  | .join _ left right _ => left.leaves ++ right.leaves
  | plan => [plan]

/-- The tables whose scans are leaves. -/
def tables (plan : Plan) : List String := plan.leaves.filterMap tabName

/-- The conditions on the join nodes. -/
def joinConds : Plan → List Condition
  | .join _ left right conds => left.joinConds ++ right.joinConds ++ conds
  | _ => []

/-- Every condition of a join node has its left table on the left and its right table on the right
of the node. -/
def Placed : Plan → Prop
  | .join _ left right conds =>
    left.Placed ∧ right.Placed ∧
      ∀ cond ∈ conds, cond.lhsCol.tabName ∈ left.tables ∧ cond.rhsCol.tabName ∈ right.tables
  | _ => True

@[simp] theorem tables_join (sm : Bool) (left right : Plan) (conds : List Condition) :
    (Plan.join sm left right conds).tables = left.tables ++ right.tables := by
  simp [tables, leaves]

theorem tables_of_tabName {plan : Plan} {t : String} (h : plan.tabName = some t) :
    plan.leaves = [plan] ∧ plan.tables = [t] ∧ plan.joinConds = [] ∧ plan.Placed := by
  cases plan with
  | scan s =>
    cases h
    exact ⟨rfl, rfl, rfl, trivial⟩
  | scanSub s clause sub =>
    cases h
    exact ⟨rfl, rfl, rfl, trivial⟩
  | null | values | join | sort | aggr | projection => cases h

end Plan

/-- The condition itself or its mirror image. -/
def Condition.Mirrors (cond cond' : Condition) : Prop := cond' = cond ∨ cond' = cond.swap

/-- What `push_conds` finds in a plan over `tables`. -/
def pushFinds (cond : Condition) (tables : List String) : Pushed :=
  if cond.lhsCol.tabName ∈ tables then
    if cond.rhsCol.tabName ∈ tables then .placed else .lhs
  else if cond.rhsCol.tabName ∈ tables then .rhs else .no

/-- `plan'` is `plan` with the condition on one of its joins. -/
structure PushedInto (cond : Condition) (plan plan' : Plan) : Prop where
  leaves : plan'.leaves = plan.leaves
  conds : ∃ cond', cond.Mirrors cond' ∧ plan'.joinConds.Perm (plan.joinConds ++ [cond'])
  placed : plan.Placed → plan'.Placed

theorem PushedInto.tables {cond : Condition} {plan plan' : Plan} (h : PushedInto cond plan plan') :
    plan'.tables = plan.tables := by
  simp [Plan.tables, h.leaves]

section Push

variable {cond : Condition} {sm : Bool} {l r plan' : Plan} {conds : List Condition}

theorem PushedInto.left (h : PushedInto cond l plan') :
    PushedInto cond (.join sm l r conds) (.join sm plan' r conds) := by
  refine ⟨by simp [Plan.leaves, h.leaves], ?_, ?_⟩
  · obtain ⟨cond', hmirror, hperm⟩ := h.conds
    refine ⟨cond', hmirror, ?_⟩
    simp only [Plan.joinConds, List.append_assoc]
    refine (hperm.append_right _).trans ?_
    rw [List.append_assoc, ← List.append_assoc r.joinConds]
    exact List.Perm.append_left _ List.perm_append_comm
  · rintro ⟨hleft, hright, hall⟩
    exact ⟨h.placed hleft, hright, by simpa [h.tables] using hall⟩

theorem PushedInto.right (h : PushedInto cond r plan') :
    PushedInto cond (.join sm l r conds) (.join sm l plan' conds) := by
  refine ⟨by simp [Plan.leaves, h.leaves], ?_, ?_⟩
  · obtain ⟨cond', hmirror, hperm⟩ := h.conds
    refine ⟨cond', hmirror, ?_⟩
    simp only [Plan.joinConds, List.append_assoc]
    refine List.Perm.append_left _ ?_
    refine (hperm.append_right _).trans ?_
    rw [List.append_assoc]
    exact List.Perm.append_left _ List.perm_append_comm
  · rintro ⟨hleft, hright, hall⟩
    exact ⟨hleft, h.placed hright, by simpa [h.tables] using hall⟩

theorem pushedInto_here {cond' : Condition} (hmirror : cond.Mirrors cond')
    (hleft : cond'.lhsCol.tabName ∈ l.tables) (hright : cond'.rhsCol.tabName ∈ r.tables) :
    PushedInto cond (.join sm l r conds) (.join sm l r (conds ++ [cond'])) := by
  refine ⟨rfl, ⟨cond', hmirror, by simp [Plan.joinConds]⟩, ?_⟩
  rintro ⟨hl, hr, hall⟩
  refine ⟨hl, hr, fun c hc => ?_⟩
  rcases List.mem_append.mp hc with hc | hc
  · exact hall c hc
  · cases List.mem_singleton.mp hc
    exact ⟨hleft, hright⟩

end Push

/-- The condition goes to the lowest join that has both of its tables below it. -/
theorem pushConds_spec {cond : Condition} (hne : cond.lhsCol.tabName ≠ cond.rhsCol.tabName)
    {plan : Plan} (hnodup : plan.tables.Nodup) :
    (pushConds cond plan).2 = pushFinds cond plan.tables ∧
      if pushFinds cond plan.tables = .placed then PushedInto cond plan (pushConds cond plan).1
      else (pushConds cond plan).1 = plan := by
  induction plan with
  | scan s =>
    have htables : (Plan.scan s).tables = [s.tabName] := rfl
    simp only [pushConds, pushScan, htables, pushFinds, List.mem_singleton]
    grind
  | scanSub s clause sub _ =>
    have htables : (Plan.scanSub s clause sub).tables = [s.tabName] := rfl
    simp only [pushConds, pushScan, htables, pushFinds, List.mem_singleton]
    grind
  | join sm left right conds ihLeft ihRight =>
    rw [Plan.tables_join] at hnodup ⊢
    obtain ⟨hnl, hnr, hdisj⟩ := List.nodup_append.mp hnodup
    obtain ⟨hleftRes, hleft⟩ := ihLeft hnl
    obtain ⟨hrightRes, hright⟩ := ihRight hnr
    have hlhs : cond.lhsCol.tabName ∈ left.tables → cond.lhsCol.tabName ∉ right.tables :=
      fun hl hr => hdisj _ hl _ hr rfl
    have hrhs : cond.rhsCol.tabName ∈ left.tables → cond.rhsCol.tabName ∉ right.tables :=
      fun hl hr => hdisj _ hl _ hr rfl
    generalize hl : pushConds cond left = pl at hleftRes hleft
    generalize hr : pushConds cond right = pr at hrightRes hright
    obtain ⟨left', leftRes⟩ := pl
    obtain ⟨right', rightRes⟩ := pr
    simp only at hleftRes hrightRes hleft hright
    subst hleftRes hrightRes
    by_cases hll : cond.lhsCol.tabName ∈ left.tables
    · have hlr := hlhs hll
      by_cases hrl : cond.rhsCol.tabName ∈ left.tables
      · -- both tables below the left child
        have hfound : pushFinds cond left.tables = .placed := by simp [pushFinds, hll, hrl]
        have htotal : pushFinds cond (left.tables ++ right.tables) = .placed := by
          simp [pushFinds, hll, hrl]
        rw [if_pos hfound] at hleft
        rw [hfound] at hl
        simp only [pushConds, hl, htotal, if_true, true_and]
        exact hleft.left
      · have hfound : pushFinds cond left.tables = .lhs := by simp [pushFinds, hll, hrl]
        rw [hfound] at hl
        by_cases hrr : cond.rhsCol.tabName ∈ right.tables
        · have hfoundRight : pushFinds cond right.tables = .rhs := by simp [pushFinds, hlr, hrr]
          have htotal : pushFinds cond (left.tables ++ right.tables) = .placed := by
            simp [pushFinds, hll, hrr]
          rw [hfoundRight] at hr
          simp only [pushConds, hl, hr, htotal, if_true]
          exact ⟨rfl, pushedInto_here (Or.inl rfl) hll hrr⟩
        · have hfoundRight : pushFinds cond right.tables = .no := by simp [pushFinds, hlr, hrr]
          have htotal : pushFinds cond (left.tables ++ right.tables) = .lhs := by
            simp [pushFinds, hll, hrl, hrr]
          rw [hfoundRight] at hr
          simp [pushConds, hl, hr, htotal, Pushed.add]
    · by_cases hrl : cond.rhsCol.tabName ∈ left.tables
      · have hrr := hrhs hrl
        have hfound : pushFinds cond left.tables = .rhs := by simp [pushFinds, hll, hrl]
        rw [hfound] at hl
        by_cases hlr : cond.lhsCol.tabName ∈ right.tables
        · have hfoundRight : pushFinds cond right.tables = .lhs := by simp [pushFinds, hlr, hrr]
          have htotal : pushFinds cond (left.tables ++ right.tables) = .placed := by
            simp [pushFinds, hlr, hrl]
          rw [hfoundRight] at hr
          simp only [pushConds, hl, hr, htotal, if_true]
          exact ⟨rfl, pushedInto_here (Or.inr rfl) hrl hlr⟩
        · have hfoundRight : pushFinds cond right.tables = .no := by simp [pushFinds, hlr, hrr]
          have htotal : pushFinds cond (left.tables ++ right.tables) = .rhs := by
            simp [pushFinds, hll, hlr, hrl]
          rw [hfoundRight] at hr
          simp [pushConds, hl, hr, htotal, Pushed.add]
      · -- neither table below the left child
        have hfound : pushFinds cond left.tables = .no := by simp [pushFinds, hll, hrl]
        have htotal : pushFinds cond (left.tables ++ right.tables) =
            pushFinds cond right.tables := by
          simp [pushFinds, hll, hrl]
        rw [hfound] at hl
        rw [htotal]
        cases hres : pushFinds cond right.tables with
        | placed =>
          rw [if_pos hres] at hright
          rw [hres] at hr
          simp only [pushConds, hl, hr, if_true, true_and]
          exact hright.right
        | no | lhs | rhs =>
          rw [hres] at hr
          simp [pushConds, hl, hr, Pushed.add]
  | null | values | sort | aggr | projection =>
    simp [pushConds, pushFinds, Plan.tables, Plan.leaves, Plan.tabName]

/-- A condition between two different ones of the tables that `plans` scan. -/
structure Condition.Joins (cond : Condition) (plans : List Plan) : Prop where
  lhs : some cond.lhsCol.tabName ∈ plans.map Plan.tabName
  rhs : some cond.rhsCol.tabName ∈ plans.map Plan.tabName
  ne : cond.lhsCol.tabName ≠ cond.rhsCol.tabName
  lhs_named : cond.lhsCol.tabName ≠ ""
  rhs_named : cond.rhsCol.tabName ≠ ""

/-- The state of the join loop when it has dealt with `conds`. -/
structure JoinInv (plans : List Plan) (conds : List Condition) (st : JoinState) : Prop where
  leaves : st.plan.leaves.Perm (st.scantbl.map fun i => plans.getD i .null)
  marked : st.scantbl.Nodup
  bound : ∀ i ∈ st.scantbl, i < plans.length
  tables : st.plan.tables.Nodup
  joined : ∀ t, t ≠ "" → (t ∈ st.joinedTables ↔ t ∈ st.plan.tables)
  conds : ∃ there, List.Forall₂ Condition.Mirrors conds there ∧ st.plan.joinConds.Perm there
  placed : st.plan.Placed

section Loop

variable {plans : List Plan} {conds : List Condition} {st : JoinState} {cond : Condition}

theorem popScan_eq {t : String} (ht : some t ∈ plans.map Plan.tabName) :
    ∃ i, i < plans.length ∧ (plans.getD i .null).tabName = some t ∧
      ∀ st, popScan plans st t = (plans.getD i .null,
        { st with scantbl := st.scantbl ++ [i], joinedTables := st.joinedTables ++ [t] }) := by
  obtain ⟨plan, hmem, hname⟩ := List.mem_map.mp ht
  cases hidx : plans.findIdx? fun plan => decide (plan.tabName = some t) with
  | none =>
    have hnone := List.findIdx?_eq_none_iff.mp hidx plan hmem
    simp [hname] at hnone
  | some i =>
    obtain ⟨hi, hfound, -⟩ := List.findIdx?_eq_some_iff_getElem.mp hidx
    refine ⟨i, hi, ?_, ?_⟩
    · rw [List.getD_eq_getElem _ _ hi]
      exact of_decide_eq_true hfound
    · intro st
      simp only [popScan, hidx]

theorem Plan.ne_null {plan : Plan} {t : String} (h : plan.tabName = some t) : plan ≠ .null := by
  rintro rfl
  cases h

/-- A marked position has its table in the plan. -/
theorem JoinInv.table_mem (h : JoinInv plans conds st) {i : Nat} (hi : i ∈ st.scantbl) {t : String}
    (ht : (plans.getD i .null).tabName = some t) : t ∈ st.plan.tables := by
  refine List.mem_filterMap.mpr ⟨plans.getD i .null, ?_, ht⟩
  exact h.leaves.mem_iff.mpr (List.mem_map_of_mem hi)

theorem JoinInv.new_position (h : JoinInv plans conds st) {i : Nat} {t : String}
    (ht : (plans.getD i .null).tabName = some t) (hnew : t ∉ st.plan.tables) : i ∉ st.scantbl :=
  fun hi => hnew (h.table_mem hi ht)

/-- One new table on top of the plan, with the condition that brought it in. -/
theorem JoinInv.joinLeaf (h : JoinInv plans conds st) {i : Nat} (hi : i < plans.length) {t : String}
    (ht : (plans.getD i .null).tabName = some t) (hnew : t ∉ st.plan.tables) {cond' : Condition}
    (hmirror : cond.Mirrors cond') (hlhs : cond'.lhsCol.tabName = t)
    (hrhs : cond'.rhsCol.tabName ∈ st.plan.tables) :
    JoinInv plans (conds ++ [cond])
      ⟨.join false (plans.getD i .null) st.plan [cond'], st.scantbl ++ [i],
        st.joinedTables ++ [t]⟩ := by
  obtain ⟨hleaves, htables, hconds, hplaced⟩ := Plan.tables_of_tabName ht
  refine ⟨?_, ?_, ?_, ?_, ?_, ?_, ?_⟩
  · simp only [Plan.leaves, hleaves, List.map_append, List.map_cons, List.map_nil]
    exact (h.leaves.append_left _).trans List.perm_append_comm
  · refine List.nodup_append.mpr ⟨h.marked, by simp, fun a ha b hb => ?_⟩
    cases List.mem_singleton.mp hb
    rintro rfl
    exact h.new_position ht hnew ha
  · intro a ha
    rcases List.mem_append.mp ha with ha | ha
    · exact h.bound a ha
    · cases List.mem_singleton.mp ha
      exact hi
  · rw [Plan.tables_join, htables, List.singleton_append, List.nodup_cons]
    exact ⟨hnew, h.tables⟩
  · intro u hu
    simp only [List.mem_append, Plan.tables_join, htables, List.mem_singleton, h.joined u hu]
    exact or_comm
  · obtain ⟨there, hall, hperm⟩ := h.conds
    refine ⟨there ++ [cond'], ?_, ?_⟩
    · exact List.rel_append hall (List.Forall₂.cons hmirror List.Forall₂.nil)
    · simp only [Plan.joinConds, hconds, List.nil_append]
      exact hperm.append_right [cond']
  · refine ⟨hplaced, h.placed, fun c hc => ?_⟩
    cases List.mem_singleton.mp hc
    rw [htables, hlhs]
    exact ⟨List.mem_singleton_self t, hrhs⟩

/-- Two new tables, joined with each other and put on top of the plan. -/
theorem JoinInv.joinPair (h : JoinInv plans conds st) (hcond : cond.Joins plans) {i j : Nat}
    (hi : i < plans.length) (hj : j < plans.length)
    (ht : (plans.getD i .null).tabName = some cond.lhsCol.tabName)
    (hu : (plans.getD j .null).tabName = some cond.rhsCol.tabName)
    (hlhs : cond.lhsCol.tabName ∉ st.plan.tables) (hrhs : cond.rhsCol.tabName ∉ st.plan.tables) :
    JoinInv plans (conds ++ [cond])
      ⟨.join false (.join false (plans.getD i .null) (plans.getD j .null) [cond]) st.plan [],
        st.scantbl ++ [i] ++ [j],
        st.joinedTables ++ [cond.lhsCol.tabName] ++ [cond.rhsCol.tabName]⟩ := by
  obtain ⟨hleaves, htables, hconds, hplaced⟩ := Plan.tables_of_tabName ht
  obtain ⟨hleaves', htables', hconds', hplaced'⟩ := Plan.tables_of_tabName hu
  have hij : i ≠ j := by
    rintro rfl
    exact hcond.ne (Option.some.inj (ht.symm.trans hu))
  refine ⟨?_, ?_, ?_, ?_, ?_, ?_, ?_⟩
  · simp only [Plan.leaves, hleaves, hleaves', List.map_append, List.map_cons, List.map_nil,
      List.append_assoc]
    rw [← List.append_assoc]
    exact (h.leaves.append_left _).trans List.perm_append_comm
  · have hni := h.new_position ht hlhs
    have hnj := h.new_position hu hrhs
    simp only [List.append_assoc, List.cons_append, List.nil_append]
    refine List.nodup_append.mpr ⟨h.marked, by simp [hij], ?_⟩
    intro a ha b hb
    simp only [List.mem_cons, List.not_mem_nil, or_false] at hb
    rcases hb with rfl | rfl
    · exact fun heq => hni (heq ▸ ha)
    · exact fun heq => hnj (heq ▸ ha)
  · intro a ha
    simp only [List.mem_append, List.mem_singleton] at ha
    rcases ha with (ha | rfl) | rfl
    · exact h.bound a ha
    · exact hi
    · exact hj
  · simp only [Plan.tables_join, htables, htables', List.cons_append, List.nil_append,
      List.nodup_cons, List.mem_cons, not_or]
    exact ⟨⟨hcond.ne, hlhs⟩, hrhs, h.tables⟩
  · intro u hne
    simp only [List.mem_append, Plan.tables_join, htables, htables', List.mem_singleton,
      h.joined u hne]
    grind
  · obtain ⟨there, hall, hperm⟩ := h.conds
    refine ⟨there ++ [cond], ?_, ?_⟩
    · exact List.rel_append hall (List.Forall₂.cons (Or.inl rfl) List.Forall₂.nil)
    · simp only [Plan.joinConds, hconds, hconds', List.nil_append, List.append_nil]
      exact List.perm_append_comm.trans (hperm.append_right [cond])
  · refine ⟨⟨hplaced, hplaced', fun c hc => ?_⟩, h.placed, by simp⟩
    cases List.mem_singleton.mp hc
    rw [htables, htables']
    exact ⟨List.mem_singleton_self _, List.mem_singleton_self _⟩

/-- What one round does to the state, whatever the plan so far. -/
inductive JoinRound (plans : List Plan) (cond : Condition) (st : JoinState) : Prop where
  | push (hlhs : cond.lhsCol.tabName ∈ st.joinedTables)
      (hrhs : cond.rhsCol.tabName ∈ st.joinedTables)
      (hstep : ∀ p, joinStep plans { st with plan := p } cond =
        { st with plan := (pushConds cond p).1 })
  | addRight (j : Nat) (hj : j < plans.length)
      (htable : (plans.getD j .null).tabName = some cond.rhsCol.tabName)
      (hlhs : cond.lhsCol.tabName ∈ st.joinedTables)
      (hrhs : cond.rhsCol.tabName ∉ st.joinedTables)
      (hstep : ∀ p, joinStep plans { st with plan := p } cond =
        ⟨.join false (plans.getD j .null) p [cond.swap], st.scantbl ++ [j],
          st.joinedTables ++ [cond.rhsCol.tabName]⟩)
  | addLeft (i : Nat) (hi : i < plans.length)
      (htable : (plans.getD i .null).tabName = some cond.lhsCol.tabName)
      (hlhs : cond.lhsCol.tabName ∉ st.joinedTables)
      (hrhs : cond.rhsCol.tabName ∈ st.joinedTables)
      (hstep : ∀ p, joinStep plans { st with plan := p } cond =
        ⟨.join false (plans.getD i .null) p [cond], st.scantbl ++ [i],
          st.joinedTables ++ [cond.lhsCol.tabName]⟩)
  | addBoth (i j : Nat) (hi : i < plans.length) (hj : j < plans.length)
      (hleft : (plans.getD i .null).tabName = some cond.lhsCol.tabName)
      (hright : (plans.getD j .null).tabName = some cond.rhsCol.tabName)
      (hlhs : cond.lhsCol.tabName ∉ st.joinedTables)
      (hrhs : cond.rhsCol.tabName ∉ st.joinedTables)
      (hstep : ∀ p, joinStep plans { st with plan := p } cond =
        ⟨.join false (.join false (plans.getD i .null) (plans.getD j .null) [cond]) p [],
          st.scantbl ++ [i] ++ [j],
          st.joinedTables ++ [cond.lhsCol.tabName] ++ [cond.rhsCol.tabName]⟩)

theorem joinRound (hcond : cond.Joins plans) (st : JoinState) : JoinRound plans cond st := by
  by_cases hl : cond.lhsCol.tabName ∈ st.joinedTables
  · by_cases hr : cond.rhsCol.tabName ∈ st.joinedTables
    · exact .push hl hr fun p => by simp [joinStep, hl, hr]
    · obtain ⟨j, hj, hu, hpop⟩ := popScan_eq hcond.rhs
      refine .addRight j hj hu hl hr fun p => ?_
      simp only [joinStep, hl, if_true, hr, not_false_eq_true, decide_true, hpop, ne_eq, not_true,
        false_and, if_false, false_or, Plan.ne_null hu]
  · obtain ⟨i, hi, ht, hpop⟩ := popScan_eq hcond.lhs
    by_cases hr : cond.rhsCol.tabName ∈ st.joinedTables
    · have hr' : cond.rhsCol.tabName ∈ st.joinedTables ++ [cond.lhsCol.tabName] :=
        List.mem_append_left _ hr
      refine .addLeft i hi ht hl hr fun p => ?_
      simp only [joinStep, hl, if_false, hpop, hr', not_true, decide_false, ne_eq, Plan.ne_null ht,
        not_false_eq_true, and_false, or_false, if_true, Bool.false_eq_true]
    · have hr' : cond.rhsCol.tabName ∉ st.joinedTables ++ [cond.lhsCol.tabName] := by
        simp only [List.mem_append, List.mem_singleton, not_or]
        exact ⟨hr, hcond.ne.symm⟩
      obtain ⟨j, hj, hu, hpop'⟩ := popScan_eq hcond.rhs
      refine .addBoth i j hi hj ht hu hl hr fun p => ?_
      simp only [joinStep, hl, if_false, hpop, hr', not_false_eq_true, decide_true, if_true, hpop',
        ne_eq, Plan.ne_null ht, Plan.ne_null hu, and_self]

theorem JoinInv.joinStep (h : JoinInv plans conds st) (hcond : cond.Joins plans) :
    JoinInv plans (conds ++ [cond]) (joinStep plans st cond) := by
  have hlhs := h.joined _ hcond.lhs_named
  have hrhs := h.joined _ hcond.rhs_named
  cases joinRound hcond st with
  | push hl hr hstep =>
    have hpush := (pushConds_spec hcond.ne h.tables).2
    rw [if_pos (by simp [pushFinds, hlhs.mp hl, hrhs.mp hr])] at hpush
    obtain ⟨cond', hmirror, hperm⟩ := hpush.conds
    obtain ⟨there, hall, hthere⟩ := h.conds
    rw [show Grmdb.joinStep plans st cond = _ from hstep st.plan]
    refine ⟨?_, h.marked, h.bound, ?_, ?_, ?_, hpush.placed h.placed⟩
    · simpa only [hpush.leaves] using h.leaves
    · simpa only [hpush.tables] using h.tables
    · simpa only [hpush.tables] using h.joined
    · exact ⟨there ++ [cond'], List.rel_append hall (List.Forall₂.cons hmirror List.Forall₂.nil),
        hperm.trans (hthere.append_right [cond'])⟩
  | addRight j hj htable hl hr hstep =>
    rw [show Grmdb.joinStep plans st cond = _ from hstep st.plan]
    exact h.joinLeaf hj htable (fun hmem => hr (hrhs.mpr hmem)) (Or.inr rfl) rfl (hlhs.mp hl)
  | addLeft i hi htable hl hr hstep =>
    rw [show Grmdb.joinStep plans st cond = _ from hstep st.plan]
    exact h.joinLeaf hi htable (fun hmem => hl (hlhs.mpr hmem)) (Or.inl rfl) rfl (hrhs.mp hr)
  | addBoth i j hi hj hleft hright hl hr hstep =>
    rw [show Grmdb.joinStep plans st cond = _ from hstep st.plan]
    exact h.joinPair hcond hi hj hleft hright (fun hmem => hl (hlhs.mpr hmem))
      fun hmem => hr (hrhs.mpr hmem)

theorem JoinInv.joinSteps (h : JoinInv plans conds st) {more : List Condition}
    (hmore : ∀ cond ∈ more, cond.Joins plans) :
    JoinInv plans (conds ++ more) (more.foldl (Grmdb.joinStep plans) st) := by
  induction more generalizing conds st with
  | nil => simpa using h
  | cons cond more ih =>
    have hstep := h.joinStep (hmore cond List.mem_cons_self)
    have hrest := ih hstep fun c hc => hmore c (List.mem_cons_of_mem cond hc)
    simpa using hrest

/-- The state after the first join, and the invariant for a join of the two scans themselves. -/
theorem firstJoin_eq (hcond : cond.Joins plans) :
    ∃ i j, plans.getD i .null ∈ plans ∧
      (plans.getD i .null).tabName = some cond.lhsCol.tabName ∧
      (plans.getD j .null).tabName = some cond.rhsCol.tabName ∧
      let state : Plan → JoinState := fun plan => ⟨plan, [i, j],
        List.replicate plans.length "" ++ [cond.lhsCol.tabName] ++ [cond.rhsCol.tabName]⟩
      (∀ knobs, firstJoin knobs plans cond =
        if knobs.nestedloop then
          some (state (.join false (plans.getD i .null) (plans.getD j .null) [cond]))
        else if knobs.sortmerge then
          some (state (generateSortMergePlan (plans.getD i .null) (plans.getD j .null) cond))
        else none) ∧
      ∀ sm, JoinInv plans [cond]
        (state (.join sm (plans.getD i .null) (plans.getD j .null) [cond])) := by
  obtain ⟨i, hi, ht, hpop⟩ := popScan_eq hcond.lhs
  obtain ⟨j, hj, hu, hpop'⟩ := popScan_eq hcond.rhs
  obtain ⟨hleaves, htables, hconds, hplaced⟩ := Plan.tables_of_tabName ht
  obtain ⟨hleaves', htables', hconds', hplaced'⟩ := Plan.tables_of_tabName hu
  have hij : i ≠ j := by
    rintro rfl
    exact hcond.ne (Option.some.inj (ht.symm.trans hu))
  refine ⟨i, j, ?_, ht, hu, fun knobs => ?_, fun sm => ⟨?_, ?_, ?_, ?_, ?_, ?_, ?_⟩⟩
  · rw [List.getD_eq_getElem _ _ hi]
    exact List.getElem_mem hi
  · simp only [firstJoin, hpop, hpop']
    rfl
  · simp only [Plan.leaves, hleaves, hleaves', List.map_cons, List.map_nil]
    exact List.Perm.refl _
  · simp [hij]
  · intro a ha
    simp only [List.mem_cons, List.not_mem_nil, or_false] at ha
    rcases ha with rfl | rfl
    · exact hi
    · exact hj
  · rw [Plan.tables_join, htables, htables']
    simpa using hcond.ne
  · intro t hne
    simp only [List.mem_append, List.mem_replicate, hne, and_false, false_or, List.mem_singleton,
      Plan.tables_join, htables, htables']
  · refine ⟨[cond], List.Forall₂.cons (Or.inl rfl) List.Forall₂.nil, ?_⟩
    simp only [Plan.joinConds, hconds, hconds', List.nil_append]
    exact List.Perm.refl _
  · refine ⟨hplaced, hplaced', fun c hc => ?_⟩
    cases List.mem_singleton.mp hc
    rw [htables, htables']
    exact ⟨List.mem_singleton_self _, List.mem_singleton_self _⟩

/-- The first join of `make_one_rel`, nested-loop. -/
theorem joinInv_first {knobs : JoinKnobs} (hknobs : knobs.nestedloop = true)
    (hcond : cond.Joins plans) :
    ∃ st, firstJoin knobs plans cond = some st ∧ JoinInv plans [cond] st := by
  obtain ⟨i, j, -, -, -, hfirst, hinv⟩ := firstJoin_eq hcond
  exact ⟨_, by rw [hfirst, if_pos hknobs], hinv false⟩

/-- The scans that are not marked come on top, without conditions. -/
theorem restJoins_fold {marked is : List Nat} {plan : Plan} (hplaced : plan.Placed)
    (hleaf : ∀ i ∈ is, ∃ t, (plans.getD i .null).tabName = some t) :
    let top := is.foldl (fun plan i =>
      if i ∈ marked then plan else .join false (plans.getD i .null) plan []) plan
    top.leaves.Perm
        (plan.leaves ++ (is.filter (· ∉ marked)).map fun i => plans.getD i .null) ∧
      top.joinConds = plan.joinConds ∧ top.Placed := by
  induction is generalizing plan with
  | nil => simpa using hplaced
  | cons i is ih =>
    have hrest : ∀ j ∈ is, ∃ t, (plans.getD j .null).tabName = some t :=
      fun j hj => hleaf j (List.mem_cons_of_mem i hj)
    obtain ⟨t, ht⟩ := hleaf i List.mem_cons_self
    obtain ⟨hleaves, -, hconds, hleafPlaced⟩ := Plan.tables_of_tabName ht
    simp only [List.foldl_cons]
    by_cases hi : i ∈ marked
    · simpa [hi] using ih hplaced hrest
    · have hjoin : (Plan.join false (plans.getD i .null) plan []).Placed :=
        ⟨hleafPlaced, hplaced, by simp⟩
      obtain ⟨hperm, hsame, htop⟩ := ih hjoin hrest
      rw [if_neg hi]
      refine ⟨hperm.trans ?_, ?_, htop⟩
      · rw [List.filter_cons_of_pos (by simpa using hi), List.map_cons, Plan.leaves, hleaves]
        exact List.perm_middle.symm
      · rw [hsame]
        simp only [Plan.joinConds, hconds, List.nil_append, List.append_nil]

/-- Marked positions and the others are all the positions. -/
theorem marked_perm {marked : List Nat} {n : Nat} (hnodup : marked.Nodup)
    (hbound : ∀ i ∈ marked, i < n) :
    (marked ++ (List.range n).filter (· ∉ marked)).Perm (List.range n) := by
  have hsplit : (marked ++ (List.range n).filter (· ∉ marked)).Nodup := by
    refine List.nodup_append.mpr ⟨hnodup, List.Nodup.filter _ List.nodup_range, ?_⟩
    intro a ha b hb heq
    subst heq
    simp [ha] at hb
  refine (List.perm_ext_iff_of_nodup hsplit List.nodup_range).mpr fun a => ?_
  simp only [List.mem_append, List.mem_filter, List.mem_range, decide_eq_true_eq]
  constructor
  · rintro (ha | ⟨ha, -⟩)
    · exact hbound a ha
    · exact ha
  · intro ha
    by_cases hmem : a ∈ marked
    · exact Or.inl hmem
    · exact Or.inr ⟨ha, hmem⟩

theorem map_getD_range (plans : List Plan) :
    ((List.range plans.length).map fun i => plans.getD i .null) = plans := by
  refine List.ext_getElem (by simp) fun i h₁ h₂ => ?_
  simp [List.getElem?_eq_getElem h₂]

theorem positions_perm {marked : List Nat} (hnodup : marked.Nodup)
    (hbound : ∀ i ∈ marked, i < plans.length) :
    ((marked.map fun i => plans.getD i .null) ++
      ((List.range plans.length).filter (· ∉ marked)).map fun i => plans.getD i .null).Perm
      plans := by
  rw [← List.map_append]
  exact ((marked_perm hnodup hbound).map _).trans (by rw [map_getD_range])

theorem leaf_at (hscans : ∀ plan ∈ plans, ∃ t, plan.tabName = some t) :
    ∀ i ∈ List.range plans.length, ∃ t, (plans.getD i .null).tabName = some t := by
  intro i hi
  rw [List.getD_eq_getElem _ _ (List.mem_range.mp hi)]
  exact hscans _ (List.getElem_mem _)

/-- With the other scans on top the plan covers every scan and every condition. -/
theorem JoinInv.restJoins (h : JoinInv plans conds st)
    (hscans : ∀ plan ∈ plans, ∃ t, plan.tabName = some t) :
    (restJoins plans st).leaves.Perm plans ∧
      (∃ there, List.Forall₂ Condition.Mirrors conds there ∧
        (restJoins plans st).joinConds.Perm there) ∧
      (restJoins plans st).Placed := by
  obtain ⟨hperm, hsame, htop⟩ := restJoins_fold h.placed (leaf_at hscans)
  obtain ⟨there, hmirrors, hthere⟩ := h.conds
  refine ⟨hperm.trans ?_, ⟨there, hmirrors, ?_⟩, htop⟩
  · exact (h.leaves.append_right _).trans (positions_perm h.marked h.bound)
  · exact (List.Perm.of_eq hsame).trans hthere

/-- Over the scans of at least one table the joins cover every scan and every condition. -/
theorem joinTables_covers {knobs : JoinKnobs} (hknobs : knobs.nestedloop = true)
    (hplans : plans ≠ []) (hscans : ∀ plan ∈ plans, ∃ t, plan.tabName = some t)
    (hconds : ∀ cond ∈ conds, cond.Joins plans) :
    ∃ top, joinTables knobs plans conds = some top ∧ top.leaves.Perm plans ∧
      (∃ there, List.Forall₂ Condition.Mirrors conds there ∧ top.joinConds.Perm there) ∧
      top.Placed := by
  cases conds with
  | nil =>
    have hpos : 0 < plans.length := List.length_pos_iff.mpr hplans
    obtain ⟨t, ht⟩ := leaf_at hscans 0 (List.mem_range.mpr hpos)
    obtain ⟨hleaves, -, hnone, hplaced⟩ := Plan.tables_of_tabName ht
    obtain ⟨hperm, hsame, htop⟩ := @restJoins_fold plans [0] _ _ hplaced (leaf_at hscans)
    refine ⟨_, rfl, hperm.trans ?_, ⟨[], List.Forall₂.nil, ?_⟩, htop⟩
    · rw [hleaves]
      exact @positions_perm plans [0] (by simp) (by simpa using hpos)
    · exact List.Perm.of_eq (hsame.trans hnone)
  | cons cond conds =>
    obtain ⟨st, hfirst, hinv⟩ := joinInv_first hknobs (hconds cond List.mem_cons_self)
    have hlast := hinv.joinSteps fun c hc => hconds c (List.mem_cons_of_mem cond hc)
    refine ⟨_, ?_, hlast.restJoins hscans⟩
    rw [joinTables, hfirst]
    rfl

end Loop

section Scans

variable {cat : Catalog} {tables : List String} {conds : List Condition}

theorem getIndexCols_isSome {t : String} (ht : (cat t).isSome) (currConds : List Condition) :
    (getIndexCols cat t currConds).isSome := by
  unfold getIndexCols
  split
  next => rfl
  next => simpa using ht

theorem popConds_snd (conds : List Condition) (t : String) :
    (popConds conds t).2 = conds.filter fun cond => !cond.popped t := by
  rw [popConds, List.partition_eq_filter_filter]
  rfl

/-- The conditions that no table of the list takes stay. -/
theorem scanTables_eq (hcat : ∀ t ∈ tables, (cat t).isSome) (conds : List Condition) :
    ∃ scans, scanTables cat tables conds =
        some (scans, conds.filter fun cond => tables.all fun t => !cond.popped t) ∧
      scans.map ScanPlan.tabName = tables := by
  induction tables generalizing conds with
  | nil => exact ⟨[], by simp [scanTables], rfl⟩
  | cons t tables ih =>
    have ht := hcat t List.mem_cons_self
    obtain ⟨tab, htab⟩ := Option.isSome_iff_exists.mp ht
    obtain ⟨⟨currConds, indexCols⟩, hcols⟩ :=
      Option.isSome_iff_exists.mp (getIndexCols_isSome ht (popConds conds t).1)
    obtain ⟨scans, hscans, hnames⟩ :=
      ih (fun u hu => hcat u (List.mem_cons_of_mem t hu)) (popConds conds t).2
    refine ⟨⟨indexCols.isSome, t, currConds, indexCols.getD []⟩ :: scans, ?_, by simp [hnames]⟩
    have hleft : (popConds conds t).2.filter (fun cond => tables.all fun u => !cond.popped u) =
        conds.filter fun cond => (t :: tables).all fun u => !cond.popped u := by
      rw [popConds_snd, List.filter_filter]
      refine List.filter_congr fun cond _ => ?_
      rw [List.all_cons, Bool.and_comm]
    rw [hleft] at hscans
    simp only [scanTables, hcols, htab, Option.bind_some, hscans, Option.map_some]

/-- With nested-loop joins the plan has the scan of every table once and every join condition, or
its mirror image, on a join between its two tables. -/
theorem makeOneRel_covers (cat : Catalog) (knobs : JoinKnobs) (leaf : Nat → ScanPlan → Plan)
    (tables : List String) (conds : List Condition)
    (hleaf : ∀ i s, (leaf i s).tabName = some s.tabName) (hknobs : knobs.nestedloop = true)
    (hcat : ∀ t ∈ tables, (cat t).isSome) (hnamed : "" ∉ tables) (hlen : 2 ≤ tables.length)
    (hconds : ∀ cond ∈ conds, cond.isRhsVal = false ∧ cond.lhsCol.tabName ∈ tables ∧
      cond.rhsCol.tabName ∈ tables ∧ cond.lhsCol.tabName ≠ cond.rhsCol.tabName) :
    ∃ (plan : Plan) (scans : List ScanPlan), makeOneRel cat knobs leaf tables conds = some plan ∧
      scans.map ScanPlan.tabName = tables ∧ plan.leaves.Perm (scans.mapIdx leaf) ∧
      (∃ there, List.Forall₂ Condition.Mirrors conds there ∧ plan.joinConds.Perm there) ∧
      plan.Placed := by
  obtain ⟨scans, hscans, hnames⟩ := scanTables_eq hcat conds
  have hstay : conds.filter (fun cond => tables.all fun t => !cond.popped t) = conds := by
    refine List.filter_eq_self.mpr fun cond hcond => ?_
    obtain ⟨hval, -, -, hne⟩ := hconds cond hcond
    simp [Condition.popped, hval, hne]
  rw [hstay] at hscans
  have hmap : (scans.mapIdx leaf).map Plan.tabName = tables.map some := by
    rw [← hnames]
    refine List.ext_getElem (by simp) fun i h₁ h₂ => ?_
    simp [hleaf]
  have hmem : ∀ t ∈ tables, some t ∈ (scans.mapIdx leaf).map Plan.tabName := by
    intro t ht
    rw [hmap]
    exact List.mem_map_of_mem ht
  have hjoins : ∀ cond ∈ conds, cond.Joins (scans.mapIdx leaf) := by
    intro cond hcond
    obtain ⟨-, hlhs, hrhs, hne⟩ := hconds cond hcond
    exact ⟨hmem _ hlhs, hmem _ hrhs, hne, fun h => hnamed (h ▸ hlhs), fun h => hnamed (h ▸ hrhs)⟩
  have hplans : scans.mapIdx leaf ≠ [] := by
    intro hnil
    rw [hnil, List.map_nil] at hmap
    have := congrArg List.length hmap
    simp only [List.length_nil, List.length_map] at this
    omega
  have htabs : ∀ plan ∈ scans.mapIdx leaf, ∃ t, plan.tabName = some t := by
    intro plan hplan
    have hname := List.mem_map_of_mem (f := Plan.tabName) hplan
    rw [hmap] at hname
    obtain ⟨t, -, ht⟩ := List.mem_map.mp hname
    exact ⟨t, ht.symm⟩
  obtain ⟨top, htop, hperm, hthere, hplaced⟩ := joinTables_covers hknobs hplans htabs hjoins
  refine ⟨top, scans, ?_, hnames, hperm, hthere, hplaced⟩
  simp only [makeOneRel, hscans, Option.bind_some]
  rw [if_neg (by omega), htop]

/-- A catalog in which every table has one column and no index. -/
def plainCatalog : Catalog := fun t => some ⟨t, [⟨t, "x", .int, 4, 0⟩], []⟩

/-- `a.x = b.x`, `c.x < d.x`, `b.x > c.x` and `b.x <= a.x`. -/
def chainConds : List Condition :=
  [⟨⟨"a", "x"⟩, .eq, false, ⟨"b", "x"⟩, none⟩, ⟨⟨"c", "x"⟩, .lt, false, ⟨"d", "x"⟩, none⟩,
    ⟨⟨"b", "x"⟩, .gt, false, ⟨"c", "x"⟩, none⟩, ⟨⟨"b", "x"⟩, .le, false, ⟨"a", "x"⟩, none⟩]

theorem makeOneRel_covers_chain :
    ∃ (plan : Plan) (scans : List ScanPlan),
      makeOneRel plainCatalog ⟨true, false⟩ (fun _ s => .scan s) ["a", "b", "c", "d", "e"]
        chainConds = some plan ∧
      scans.map ScanPlan.tabName = ["a", "b", "c", "d", "e"] ∧
      plan.leaves.Perm (scans.mapIdx fun _ s => .scan s) ∧
      (∃ there, List.Forall₂ Condition.Mirrors chainConds there ∧ plan.joinConds.Perm there) ∧
      plan.Placed :=
  makeOneRel_covers plainCatalog ⟨true, false⟩ (fun _ s => .scan s) ["a", "b", "c", "d", "e"]
    chainConds (fun _ _ => rfl) rfl (fun _ _ => rfl) (by decide) (by decide) (by decide)

end Scans

end Grmdb
