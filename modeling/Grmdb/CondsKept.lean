import Grmdb.ScanConds

namespace Grmdb

namespace Plan

/-- The scans of a plan, those below a sort too. -/
def scans : Plan → List ScanPlan
  | .scan s => [s]
  | .scanSub s _ _ => [s]
  | .join _ left right _ => left.scans ++ right.scans
  | .sort subplan _ _ => subplan.scans
  | _ => []

def scanTabs (plan : Plan) : List String := plan.scans.map ScanPlan.tabName

/-- Every condition of a join node has a scan of its left table on the left and one of its right
table on the right of the node. -/
def JoinsPlaced : Plan → Prop
  | .join _ left right conds =>
    left.JoinsPlaced ∧ right.JoinsPlaced ∧
      ∀ cond ∈ conds, cond.lhsCol.tabName ∈ left.scanTabs ∧ cond.rhsCol.tabName ∈ right.scanTabs
  | _ => True

theorem scans_leaves (plan : Plan) : plan.leaves.flatMap scans = plan.scans := by
  induction plan with
  | join sm left right conds ihLeft ihRight =>
    rw [leaves, List.flatMap_append, ihLeft, ihRight, scans]
  | null | scan | scanSub | values | sort | aggr | projection => simp [leaves]

theorem scanTabs_of_tabName {plan : Plan} {t : String} (h : plan.tabName = some t) :
    plan.scanTabs = [t] := by
  cases plan with
  | scan s =>
    cases h
    rfl
  | scanSub s clause sub =>
    cases h
    rfl
  | null | values | join | sort | aggr | projection => cases h

theorem tables_subset_scanTabs (plan : Plan) : plan.tables ⊆ plan.scanTabs := by
  intro t ht
  obtain ⟨leaf, hleaf, hname⟩ := List.mem_filterMap.mp ht
  have htab : t ∈ leaf.scanTabs := by
    rw [scanTabs_of_tabName hname]
    exact List.mem_singleton_self t
  obtain ⟨s, hs, hst⟩ := List.mem_map.mp htab
  rw [scanTabs, ← scans_leaves plan]
  exact List.mem_map.mpr ⟨s, List.mem_flatMap.mpr ⟨leaf, hleaf, hs⟩, hst⟩

theorem Placed.joinsPlaced {plan : Plan} (h : plan.Placed) : plan.JoinsPlaced := by
  induction plan with
  | join sm left right conds ihLeft ihRight =>
    obtain ⟨hleft, hright, hall⟩ := h
    refine ⟨ihLeft hleft, ihRight hright, fun cond hcond => ?_⟩
    obtain ⟨hl, hr⟩ := hall cond hcond
    exact ⟨left.tables_subset_scanTabs hl, right.tables_subset_scanTabs hr⟩
  | null | scan | scanSub | values | sort | aggr | projection => trivial

theorem JoinsPlaced.mem {plan : Plan} (h : plan.JoinsPlaced) {cond : Condition}
    (hcond : cond ∈ plan.joinConds) :
    cond.lhsCol.tabName ∈ plan.scanTabs ∧ cond.rhsCol.tabName ∈ plan.scanTabs := by
  induction plan with
  | join sm left right conds ihLeft ihRight =>
    obtain ⟨hleft, hright, hall⟩ := h
    have htabs : (Plan.join sm left right conds).scanTabs = left.scanTabs ++ right.scanTabs :=
      List.map_append
    simp only [joinConds, List.mem_append] at hcond
    simp only [htabs, List.mem_append]
    rcases hcond with (hcond | hcond) | hcond
    · exact ⟨Or.inl (ihLeft hleft hcond).1, Or.inl (ihLeft hleft hcond).2⟩
    · exact ⟨Or.inr (ihRight hright hcond).1, Or.inr (ihRight hright hcond).2⟩
    · exact ⟨Or.inl (hall cond hcond).1, Or.inr (hall cond hcond).2⟩
  | null | scan | scanSub | values | sort | aggr | projection => simp [joinConds] at hcond

end Plan

/-- `plan'` is `plan` with `base'` in the place of `base`, at the end of its right spine. -/
inductive Over (base base' : Plan) : Plan → Plan → Prop where
  | base : Over base base' base base'
  | join {plan plan' : Plan} (left : Plan) (conds : List Condition)
      (h : Over base base' plan plan') :
      Over base base' (.join false left plan conds) (.join false left plan' conds)

namespace Over

variable {base base' plan plan' : Plan} {cond : Condition}

theorem scans_eq (h : Over base base' plan plan') (hbase : base'.scans = base.scans) :
    plan'.scans = plan.scans := by
  induction h with
  | base => exact hbase
  | join left conds _ ih => rw [Plan.scans, Plan.scans, ih]

theorem joinConds_eq (h : Over base base' plan plan') (hbase : base'.joinConds = base.joinConds) :
    plan'.joinConds = plan.joinConds := by
  induction h with
  | base => exact hbase
  | join left conds _ ih => rw [Plan.joinConds, Plan.joinConds, ih]

theorem joinsPlaced (h : Over base base' plan plan') (hscans : base'.scans = base.scans)
    (hbase : base.JoinsPlaced → base'.JoinsPlaced) (hplan : plan.JoinsPlaced) :
    plan'.JoinsPlaced := by
  induction h with
  | base => exact hbase hplan
  | @join plan plan' left conds hover ih =>
    obtain ⟨hleft, hright, hall⟩ := hplan
    refine ⟨hleft, ih hright, fun cond hcond => ?_⟩
    rw [Plan.scanTabs.eq_1 plan', hover.scans_eq hscans]
    exact hall cond hcond

theorem tables_eq (h : Over base base' plan plan') :
    ∃ top, plan.tables = top ++ base.tables ∧ plan'.tables = top ++ base'.tables := by
  induction h with
  | base => exact ⟨[], rfl, rfl⟩
  | join left conds _ ih =>
    obtain ⟨top, hplan, hplan'⟩ := ih
    refine ⟨left.tables ++ top, ?_, ?_⟩
    · rw [Plan.tables_join, hplan, List.append_assoc]
    · rw [Plan.tables_join, hplan', List.append_assoc]

/-- A condition that has nothing to do with the base goes to the same place in both plans. -/
theorem push (h : Over base base' plan plan') (hbase : pushConds cond base = (base, .no))
    (hbase' : pushConds cond base' = (base', .no)) :
    Over base base' (pushConds cond plan).1 (pushConds cond plan').1 ∧
      (pushConds cond plan').2 = (pushConds cond plan).2 := by
  induction h with
  | base =>
    rw [hbase, hbase']
    exact ⟨.base, rfl⟩
  | @join plan plan' left conds hover ih =>
    obtain ⟨hright, hres⟩ := ih
    generalize hp : pushConds cond plan = p at hright hres
    generalize hp' : pushConds cond plan' = p' at hright hres
    obtain ⟨right, rightRes⟩ := p
    obtain ⟨right', rightRes'⟩ := p'
    cases hres
    cases hl : pushConds cond left with
    | mk left' leftRes =>
      cases leftRes with
      | placed =>
        simp only [pushConds, hl]
        exact ⟨.join left' conds hover, trivial⟩
      | no | lhs | rhs =>
        cases rightRes with
        | placed =>
          simp only [pushConds, hl, hp, hp']
          exact ⟨.join left conds hright, trivial⟩
        | no | lhs | rhs =>
          simp only [pushConds, hl, hp, hp']
          split
          · exact ⟨.join left _ hover, rfl⟩
          · exact ⟨.join left _ hover, rfl⟩

end Over

/-- A condition adds at most itself to the joins. -/
theorem pushConds_joinConds_le (cond : Condition) (plan : Plan) :
    (pushConds cond plan).1.joinConds.length ≤ plan.joinConds.length + 1 := by
  induction plan with
  | join sm left right conds ihLeft ihRight =>
    unfold pushConds
    split
    next left' hl =>
      rw [hl] at ihLeft
      simp only [Plan.joinConds, List.length_append] at ihLeft ⊢
      omega
    next =>
      split
      next right' hr =>
        rw [hr] at ihRight
        simp only [Plan.joinConds, List.length_append] at ihRight ⊢
        omega
      next =>
        split
        · exact Nat.le_succ _
        · simp only [Plan.joinConds, List.length_append, List.length_singleton]
          omega
  | null | scan | scanSub | values | sort | aggr | projection => simp [pushConds]

/-- No condition that comes when both of its tables are joined is on one of the `hidden` ones. -/
def JoinsVisible (hidden : List String) : List String → List Condition → Prop
  | _, [] => True
  | joined, cond :: conds =>
    (cond.lhsCol.tabName ∈ joined → cond.rhsCol.tabName ∈ joined →
      cond.lhsCol.tabName ∉ hidden ∧ cond.rhsCol.tabName ∉ hidden) ∧
    JoinsVisible hidden (cond.lhsCol.tabName :: cond.rhsCol.tabName :: joined) conds

section Steps

variable {plans : List Plan} {conds rest : List Condition} {cond : Condition} {st : JoinState}
  {base base' plan' : Plan} {hidden joined : List String}

theorem joinStep_joinConds_le (hcond : cond.Joins plans) (st : JoinState) :
    (joinStep plans st cond).plan.joinConds.length ≤ st.plan.joinConds.length + 1 := by
  cases joinRound hcond st with
  | push _ _ hstep =>
    rw [show joinStep plans st cond = _ from hstep st.plan]
    exact pushConds_joinConds_le cond st.plan
  | addRight j _ htable _ _ hstep | addLeft j _ htable _ _ hstep =>
    obtain ⟨-, -, hconds, -⟩ := Plan.tables_of_tabName htable
    rw [show joinStep plans st cond = _ from hstep st.plan]
    simp only [Plan.joinConds, hconds, List.nil_append, List.length_append, List.length_singleton]
    exact Nat.le_refl _
  | addBoth i j _ _ hleft hright _ _ hstep =>
    obtain ⟨-, -, hconds, -⟩ := Plan.tables_of_tabName hleft
    obtain ⟨-, -, hconds', -⟩ := Plan.tables_of_tabName hright
    rw [show joinStep plans st cond = _ from hstep st.plan]
    simp only [Plan.joinConds, hconds, hconds', List.nil_append, List.append_nil,
      List.length_append, List.length_singleton]
    omega

theorem joinSteps_joinConds_le (hrest : ∀ cond ∈ rest, cond.Joins plans) (st : JoinState) :
    (rest.foldl (joinStep plans) st).plan.joinConds.length ≤
      st.plan.joinConds.length + rest.length := by
  induction rest generalizing st with
  | nil => exact Nat.le_refl _
  | cons cond rest ih =>
    have hhead := joinStep_joinConds_le (hrest cond List.mem_cons_self) st
    have htail := ih (fun c hc => hrest c (List.mem_cons_of_mem cond hc)) (joinStep plans st cond)
    rw [List.foldl_cons, List.length_cons]
    omega

/-- `base'` shows `push_conds` none of the tables that `base` has. -/
structure Hides (base base' : Plan) : Prop where
  nodup : base.tables.Nodup
  tables : base'.tables = []
  scans : base'.scans = base.scans
  joinConds : base'.joinConds = base.joinConds
  placed : base.JoinsPlaced → base'.JoinsPlaced

theorem JoinInv.length_joinConds (h : JoinInv plans conds st) :
    st.plan.joinConds.length = conds.length := by
  obtain ⟨there, hall, hperm⟩ := h.conds
  rw [hperm.length_eq, hall.length_eq]

/-- One round over a hidden base: the two plans stay the same, or the condition is dropped. -/
theorem joinStep_hidden (hhides : Hides base base') (hinv : JoinInv plans conds st)
    (hover : Over base base' st.plan plan') (hcond : cond.Joins plans) :
    if cond.lhsCol.tabName ∈ st.joinedTables ∧ cond.rhsCol.tabName ∈ st.joinedTables ∧
        (cond.lhsCol.tabName ∈ base.tables ∨ cond.rhsCol.tabName ∈ base.tables) then
      joinStep plans { st with plan := plan' } cond = { st with plan := plan' }
    else ∃ next', joinStep plans { st with plan := plan' } cond =
        { joinStep plans st cond with plan := next' } ∧
      Over base base' (joinStep plans st cond).plan next' := by
  cases joinRound hcond st with
  | push hl hr hstep =>
    rw [show joinStep plans st cond = _ from hstep st.plan, hstep plan']
    simp only [hl, hr, true_and]
    split
    next hin =>
      obtain ⟨top, htop, htop'⟩ := hover.tables_eq
      rw [hhides.tables, List.append_nil] at htop'
      have hnodup := hinv.tables
      rw [htop] at hnodup
      obtain ⟨htopNodup, -, hdisj⟩ := List.nodup_append.mp hnodup
      have hnot : pushFinds cond plan'.tables ≠ .placed := by
        rw [htop']
        unfold pushFinds
        rcases hin with hin | hin
        · have hout : cond.lhsCol.tabName ∉ top := fun ht => hdisj _ ht _ hin rfl
          rw [if_neg hout]
          split <;> simp
        · have hout : cond.rhsCol.tabName ∉ top := fun ht => hdisj _ ht _ hin rfl
          rw [if_neg hout, if_neg hout]
          split <;> simp
      have hspec := (pushConds_spec hcond.ne (htop'.symm ▸ htopNodup)).2
      rw [if_neg hnot] at hspec
      rw [hspec]
    next hout =>
      obtain ⟨hlout, hrout⟩ := not_or.mp hout
      have hbase : pushConds cond base = (base, .no) := by
        have hspec := pushConds_spec hcond.ne hhides.nodup
        have hno : pushFinds cond base.tables = .no := by simp [pushFinds, hlout, hrout]
        rw [hno] at hspec
        exact Prod.ext hspec.2 hspec.1
      have hbase' : pushConds cond base' = (base', .no) := by
        have hspec := @pushConds_spec cond hcond.ne base' (by simp [hhides.tables])
        have hno : pushFinds cond base'.tables = .no := by simp [pushFinds, hhides.tables]
        rw [hno] at hspec
        exact Prod.ext hspec.2 hspec.1
      exact ⟨_, rfl, (hover.push hbase hbase').1⟩
  | addRight j _ htable hl hr hstep =>
    rw [if_neg (by simp [hr]), show joinStep plans st cond = _ from hstep st.plan, hstep plan']
    exact ⟨_, rfl, .join _ _ hover⟩
  | addLeft j _ htable hl hr hstep =>
    rw [if_neg (by simp [hl]), show joinStep plans st cond = _ from hstep st.plan, hstep plan']
    exact ⟨_, rfl, .join _ _ hover⟩
  | addBoth i j _ _ hleft hright hl hr hstep =>
    rw [if_neg (by simp [hl]), show joinStep plans st cond = _ from hstep st.plan, hstep plan']
    exact ⟨_, rfl, .join _ _ hover⟩

theorem joinStep_joined (hcond : cond.Joins plans) (st : JoinState) (t : String) :
    t ∈ (joinStep plans st cond).joinedTables ↔
      t = cond.lhsCol.tabName ∨ t = cond.rhsCol.tabName ∨ t ∈ st.joinedTables := by
  cases joinRound hcond st with
  | push hl hr hstep =>
    rw [show joinStep plans st cond = _ from hstep st.plan]
    grind
  | addRight j _ _ hl hr hstep | addLeft j _ _ hl hr hstep =>
    rw [show joinStep plans st cond = _ from hstep st.plan]
    grind
  | addBoth i j _ _ _ _ hl hr hstep =>
    rw [show joinStep plans st cond = _ from hstep st.plan]
    grind

theorem joinSteps_hidden (hhides : Hides base base') (hinv : JoinInv plans conds st)
    (hover : Over base base' st.plan plan') (hrest : ∀ cond ∈ rest, cond.Joins plans)
    (hjoined : ∀ t ≠ "", t ∈ joined ↔ t ∈ st.joinedTables) :
    (JoinsVisible base.tables joined rest → ∃ next', rest.foldl (joinStep plans)
        { st with plan := plan' } = { rest.foldl (joinStep plans) st with plan := next' } ∧
      Over base base' (rest.foldl (joinStep plans) st).plan next') ∧
    (¬JoinsVisible base.tables joined rest →
      (rest.foldl (joinStep plans) { st with plan := plan' }).plan.joinConds.length <
        conds.length + rest.length) := by
  induction rest generalizing conds st plan' joined with
  | nil => exact ⟨fun _ => ⟨plan', rfl, hover⟩, fun hnot => absurd trivial hnot⟩
  | cons cond rest ih =>
    have hcond := hrest cond List.mem_cons_self
    have hmore : ∀ c ∈ rest, c.Joins plans := fun c hc => hrest c (List.mem_cons_of_mem cond hc)
    have hround := joinStep_hidden hhides hinv hover hcond
    simp only [JoinsVisible, List.foldl_cons, List.length_cons, hjoined _ hcond.lhs_named,
      hjoined _ hcond.rhs_named]
    split at hround
    next hdrop =>
      obtain ⟨hl, hr, hin⟩ := hdrop
      refine ⟨fun hvis => ?_, fun _ => ?_⟩
      · obtain ⟨hlout, hrout⟩ := hvis.1 hl hr
        exact absurd hin (not_or.mpr ⟨hlout, hrout⟩)
      · rw [hround]
        have hle := joinSteps_joinConds_le hmore { st with plan := plan' }
        have hbase := hinv.length_joinConds
        rw [← hover.joinConds_eq hhides.joinConds] at hbase
        simp only at hle
        omega
    next hkeep =>
      obtain ⟨next', hstep, hnext⟩ := hround
      have hhere : cond.lhsCol.tabName ∈ st.joinedTables → cond.rhsCol.tabName ∈ st.joinedTables →
          cond.lhsCol.tabName ∉ base.tables ∧ cond.rhsCol.tabName ∉ base.tables :=
        fun hl hr => not_or.mp fun hin => hkeep ⟨hl, hr, hin⟩
      rw [hstep, and_iff_right hhere]
      have hjoined' : ∀ t ≠ "", t ∈ cond.lhsCol.tabName :: cond.rhsCol.tabName :: joined ↔
          t ∈ (joinStep plans st cond).joinedTables := by
        intro t ht
        rw [joinStep_joined hcond st t, List.mem_cons, List.mem_cons, hjoined t ht]
      have hlater := ih (hinv.joinStep hcond) hnext hmore hjoined'
      refine ⟨hlater.1, fun hnot => Nat.lt_of_lt_of_eq (hlater.2 hnot) ?_⟩
      rw [List.length_append, List.length_singleton]
      omega

theorem Over.restJoins (h : Over base base' st.plan plan') :
    Over base base' (restJoins plans st) (restJoins plans { st with plan := plan' }) := by
  unfold Grmdb.restJoins
  simp only
  generalize st.plan = plan at h
  induction List.range plans.length generalizing plan plan' with
  | nil => exact h
  | cons i is ih =>
    rw [List.foldl_cons, List.foldl_cons]
    split
    next => exact ih plan h
    next => exact ih _ (.join _ _ h)

theorem restJoins_joinConds (hscans : ∀ plan ∈ plans, ∃ t, plan.tabName = some t)
    (st : JoinState) : (restJoins plans st).joinConds = st.plan.joinConds := by
  have hleaf : ∀ i ∈ List.range plans.length, (plans.getD i .null).joinConds = [] := by
    intro i hi
    obtain ⟨t, ht⟩ := leaf_at hscans i hi
    exact (Plan.tables_of_tabName ht).2.2.1
  unfold restJoins
  generalize st.plan = plan
  generalize List.range plans.length = positions at hleaf
  induction positions generalizing plan with
  | nil => rfl
  | cons i is ih =>
    rw [List.foldl_cons, ih _ fun j hj => hleaf j (List.mem_cons_of_mem i hj)]
    split
    next => rfl
    next =>
      simp only [Plan.joinConds, hleaf i List.mem_cons_self, List.nil_append, List.append_nil]

theorem pushConds_scans (cond : Condition) (plan : Plan) :
    (pushConds cond plan).1.scans = plan.scans := by
  induction plan with
  | join sm left right conds ihLeft ihRight =>
    unfold pushConds
    split
    next left' hl =>
      rw [hl] at ihLeft
      rw [Plan.scans, Plan.scans, ihLeft]
    next =>
      split
      next right' hr =>
        rw [hr] at ihRight
        rw [Plan.scans, Plan.scans, ihRight]
      next =>
        split
        · rfl
        · rfl
  | null | scan | scanSub | values | sort | aggr | projection => rfl

/-- The scans of the plan do not depend on how the conditions are placed. -/
theorem joinStep_scans (hcond : cond.Joins plans) (hscans : plan'.scans = st.plan.scans) :
    ∃ next', joinStep plans { st with plan := plan' } cond =
        { joinStep plans st cond with plan := next' } ∧
      next'.scans = (joinStep plans st cond).plan.scans := by
  cases joinRound hcond st with
  | push _ _ hstep =>
    rw [show joinStep plans st cond = _ from hstep st.plan, hstep plan']
    refine ⟨_, rfl, ?_⟩
    rw [pushConds_scans, pushConds_scans, hscans]
  | addRight j _ _ _ _ hstep | addLeft j _ _ _ _ hstep =>
    rw [show joinStep plans st cond = _ from hstep st.plan, hstep plan']
    refine ⟨_, rfl, ?_⟩
    simp only [Plan.scans, hscans]
  | addBoth i j _ _ _ _ _ _ hstep =>
    rw [show joinStep plans st cond = _ from hstep st.plan, hstep plan']
    refine ⟨_, rfl, ?_⟩
    simp only [Plan.scans, hscans]

theorem joinSteps_scans (hrest : ∀ cond ∈ rest, cond.Joins plans)
    (hscans : plan'.scans = st.plan.scans) :
    ∃ next', rest.foldl (joinStep plans) { st with plan := plan' } =
        { rest.foldl (joinStep plans) st with plan := next' } ∧
      next'.scans = (rest.foldl (joinStep plans) st).plan.scans := by
  induction rest generalizing st plan' with
  | nil => exact ⟨plan', rfl, hscans⟩
  | cons cond rest ih =>
    obtain ⟨next', hstep, hnext⟩ := joinStep_scans (hrest cond List.mem_cons_self) hscans
    rw [List.foldl_cons, List.foldl_cons, hstep]
    exact ih (fun c hc => hrest c (List.mem_cons_of_mem cond hc)) hnext

theorem restJoins_scans (hscans : plan'.scans = st.plan.scans) :
    (restJoins plans { st with plan := plan' }).scans = (restJoins plans st).scans := by
  unfold restJoins
  simp only
  generalize st.plan = plan at hscans
  induction List.range plans.length generalizing plan plan' with
  | nil => exact hscans
  | cons i is ih =>
    rw [List.foldl_cons, List.foldl_cons]
    split
    next => exact ih plan hscans
    next =>
      have hjoin : (Plan.join false (plans.getD i .null) plan' []).scans =
          (Plan.join false (plans.getD i .null) plan []).scans := by
        simp only [Plan.scans, hscans]
      exact ih _ hjoin

/-- A plan over `plans` with every condition on a join of its two tables. -/
structure JoinsKept (plans : List Plan) (conds : List Condition) (top : Plan) : Prop where
  scans : top.scans.Perm (plans.flatMap Plan.scans)
  conds : ∃ there, List.Forall₂ Condition.Mirrors conds there ∧ top.joinConds.Perm there
  placed : top.JoinsPlaced

theorem JoinsKept.of_leaves {top : Plan} (hleaves : top.leaves.Perm plans)
    (hconds : ∃ there, List.Forall₂ Condition.Mirrors conds there ∧ top.joinConds.Perm there)
    (hplaced : top.Placed) : JoinsKept plans conds top := by
  refine ⟨?_, hconds, hplaced.joinsPlaced⟩
  rw [← top.scans_leaves]
  exact hleaves.flatMap_right _

theorem JoinsKept.over {top top' : Plan} (h : JoinsKept plans conds top)
    (hhides : Hides base base') (hover : Over base base' top top') :
    JoinsKept plans conds top' := by
  refine ⟨?_, ?_, hover.joinsPlaced hhides.scans hhides.placed h.placed⟩
  · rw [hover.scans_eq hhides.scans]
    exact h.scans
  · rw [hover.joinConds_eq hhides.joinConds]
    exact h.conds

/-- The conditions that the joins of `make_one_rel` can place; `indexed` are the tables whose scan
is an index scan. -/
def JoinsReach (knobs : JoinKnobs) (indexed : String → Bool) : List Condition → Prop
  | [] => True
  | first :: rest =>
    knobs.nestedloop = true ∨ indexed first.lhsCol.tabName = true ∨
      JoinsVisible [first.lhsCol.tabName, first.rhsCol.tabName]
        [first.lhsCol.tabName, first.rhsCol.tabName] rest

theorem hides_sort {left right : Plan} {t u : String} (hleft : left.tabName = some t)
    (hright : right.tabName = some u) (hne : t ≠ u) (sm : Bool) (cond : Condition) :
    Hides (.join sm left right [cond])
      (.join true (.sort left cond.lhsCol false) (.sort right cond.rhsCol false) [cond]) := by
  obtain ⟨-, htables, hconds, -⟩ := Plan.tables_of_tabName hleft
  obtain ⟨-, htables', hconds', -⟩ := Plan.tables_of_tabName hright
  refine ⟨?_, rfl, rfl, ?_, fun h => ⟨trivial, trivial, h.2.2⟩⟩
  · rw [Plan.tables_join, htables, htables']
    simpa using hne
  · simp only [Plan.joinConds, hconds, hconds']

/-- The plan that the first join of `make_one_rel` builds over its two scans. -/
inductive FirstPlan (knobs : JoinKnobs) (cond : Condition) (left right : Plan) : Plan → Prop where
  | nestedloop (hknobs : knobs.nestedloop = true) :
      FirstPlan knobs cond left right (.join false left right [cond])
  | indexed (hknobs : ¬knobs.nestedloop = true) (hindex : left.isIndexScan = true) :
      FirstPlan knobs cond left right (.join true left right [cond])
  | sorted (hknobs : ¬knobs.nestedloop = true) (hindex : left.isIndexScan = false) :
      FirstPlan knobs cond left right
        (.join true (.sort left cond.lhsCol false) (.sort right cond.rhsCol false) [cond])

/-- The state after the first join, with `plan` for the join. -/
def firstState (plans : List Plan) (cond : Condition) (i j : Nat) (plan : Plan) : JoinState :=
  ⟨plan, [i, j],
    List.replicate plans.length "" ++ [cond.lhsCol.tabName] ++ [cond.rhsCol.tabName]⟩

theorem joinTables_cons {knobs : JoinKnobs} {top : Plan} (hcond : cond.Joins plans)
    (htop : joinTables knobs plans (cond :: conds) = some top) :
    ∃ i j plan, plans.getD i .null ∈ plans ∧
      (plans.getD i .null).tabName = some cond.lhsCol.tabName ∧
      (plans.getD j .null).tabName = some cond.rhsCol.tabName ∧
      FirstPlan knobs cond (plans.getD i .null) (plans.getD j .null) plan ∧
      top = restJoins plans (conds.foldl (joinStep plans) (firstState plans cond i j plan)) ∧
      ∀ sm, JoinInv plans [cond] (firstState plans cond i j
        (.join sm (plans.getD i .null) (plans.getD j .null) [cond])) := by
  obtain ⟨i, j, hmem, hleft, hright, hfirst, hinv⟩ := firstJoin_eq hcond
  simp only at hfirst hinv
  obtain ⟨st, hst, rfl⟩ := Option.map_eq_some_iff.mp htop
  rw [hfirst] at hst
  split at hst
  next hknobs =>
    cases hst
    exact ⟨i, j, _, hmem, hleft, hright, .nestedloop hknobs, rfl, hinv⟩
  next hknobs =>
    split at hst
    next =>
      cases hst
      refine ⟨i, j, _, hmem, hleft, hright, ?_, rfl, hinv⟩
      unfold generateSortMergePlan
      cases hindex : (plans.getD i .null).isIndexScan with
      | true =>
        rw [if_pos rfl]
        exact .indexed hknobs hindex
      | false =>
        rw [if_neg Bool.false_ne_true]
        exact .sorted hknobs hindex
    next => cases hst

theorem joinTables_first_kept (hscans : ∀ plan ∈ plans, ∃ t, plan.tabName = some t)
    {plan : Plan} (hinv : JoinInv plans [cond] st) (hmore : ∀ c ∈ conds, c.Joins plans)
    (hplan : plan = restJoins plans (conds.foldl (joinStep plans) st)) :
    JoinsKept plans (cond :: conds) plan := by
  obtain ⟨hleaves, hthere, hplaced⟩ := (hinv.joinSteps hmore).restJoins hscans
  rw [hplan]
  exact .of_leaves hleaves hthere hplaced

/-- The joins have every scan, however the conditions are placed. -/
theorem joinTables_scans {knobs : JoinKnobs} {top : Plan} (hplans : plans ≠ [])
    (hscans : ∀ plan ∈ plans, ∃ t, plan.tabName = some t)
    (hconds : ∀ cond ∈ conds, cond.Joins plans) (htop : joinTables knobs plans conds = some top) :
    top.scans.Perm (plans.flatMap Plan.scans) := by
  cases conds with
  | nil =>
    obtain ⟨top', htop', hleaves, hthere, hplaced⟩ :=
      @joinTables_covers plans [] ⟨true, true⟩ rfl hplans hscans (by simp)
    cases htop'.symm.trans htop
    exact (JoinsKept.of_leaves hleaves hthere hplaced).scans
  | cons cond conds =>
    have hcond := hconds cond List.mem_cons_self
    have hmore : ∀ c ∈ conds, c.Joins plans := fun c hc => hconds c (List.mem_cons_of_mem cond hc)
    obtain ⟨i, j, plan, -, hleft, hright, hfirst, rfl, hinv⟩ := joinTables_cons hcond htop
    have hkept := joinTables_first_kept hscans (hinv true) hmore rfl
    have hsame : plan.scans =
        (Plan.join true (plans.getD i .null) (plans.getD j .null) [cond]).scans := by
      cases hfirst with
      | nestedloop => rfl
      | indexed => rfl
      | sorted => rfl
    obtain ⟨next', hnext, hsame'⟩ := @joinSteps_scans plans conds
      (firstState plans cond i j (.join true (plans.getD i .null) (plans.getD j .null) [cond])) plan
      hmore hsame
    rw [show conds.foldl (joinStep plans) (firstState plans cond i j plan) = _ from hnext,
      restJoins_scans hsame']
    exact hkept.scans

/-- The joins keep every condition exactly when each is one that they can place. -/
theorem joinTables_keeps {knobs : JoinKnobs} {top : Plan} {indexed : String → Bool}
    (hplans : plans ≠ []) (hscans : ∀ plan ∈ plans, ∃ t, plan.tabName = some t)
    (hindexed : ∀ plan ∈ plans, ∀ t, plan.tabName = some t → plan.isIndexScan = indexed t)
    (hconds : ∀ cond ∈ conds, cond.Joins plans) (htop : joinTables knobs plans conds = some top) :
    (JoinsReach knobs indexed conds → JoinsKept plans conds top) ∧
      (¬JoinsReach knobs indexed conds → top.joinConds.length < conds.length) := by
  cases conds with
  | nil =>
    obtain ⟨top', htop', hleaves, hthere, hplaced⟩ :=
      @joinTables_covers plans [] ⟨true, true⟩ rfl hplans hscans (by simp)
    cases htop'.symm.trans htop
    exact ⟨fun _ => .of_leaves hleaves hthere hplaced, fun hnot => absurd trivial hnot⟩
  | cons cond conds =>
    have hcond := hconds cond List.mem_cons_self
    have hmore : ∀ c ∈ conds, c.Joins plans := fun c hc => hconds c (List.mem_cons_of_mem cond hc)
    obtain ⟨i, j, plan, hmem, hleft, hright, hfirst, htop, hinv⟩ := joinTables_cons hcond htop
    have hindex := hindexed _ hmem _ hleft
    cases hfirst with
    | nestedloop hknobs =>
      exact ⟨fun _ => joinTables_first_kept hscans (hinv false) hmore htop,
        fun hnot => absurd (Or.inl hknobs) hnot⟩
    | indexed _ hidx =>
      rw [hindex] at hidx
      exact ⟨fun _ => joinTables_first_kept hscans (hinv true) hmore htop,
        fun hnot => absurd (Or.inr (Or.inl hidx)) hnot⟩
    | sorted hknobs hidx =>
      rw [hindex] at hidx
      have hhides := hides_sort hleft hright hcond.ne true cond
      have hjoined : ∀ t ≠ "", t ∈ [cond.lhsCol.tabName, cond.rhsCol.tabName] ↔
          t ∈ (firstState plans cond i j (.join true (plans.getD i .null) (plans.getD j .null)
            [cond])).joinedTables := by
        intro t ht
        simp [firstState, ht]
      have hsteps := joinSteps_hidden hhides (hinv true) .base hmore hjoined
      have htables : (Plan.join true (plans.getD i .null) (plans.getD j .null) [cond]).tables =
          [cond.lhsCol.tabName, cond.rhsCol.tabName] := by
        rw [Plan.tables_join, (Plan.tables_of_tabName hleft).2.1,
          (Plan.tables_of_tabName hright).2.1]
        rfl
      rw [htables] at hsteps
      subst htop
      refine ⟨fun hreach => ?_, fun hnot => ?_⟩
      · have hvis := (hreach.resolve_left hknobs).resolve_left (by simp [hidx])
        obtain ⟨next', hnext, hover⟩ := hsteps.1 hvis
        rw [show conds.foldl (joinStep plans) (firstState plans cond i j _) = _ from hnext]
        exact (joinTables_first_kept hscans (hinv true) hmore rfl).over hhides hover.restJoins
      · rw [restJoins_joinConds hscans]
        have hlt := hsteps.2 fun hvis => hnot (Or.inr (Or.inr hvis))
        rw [List.length_cons]
        exact Nat.lt_of_lt_of_eq hlt (Nat.add_comm _ _)

end Steps

end Grmdb
