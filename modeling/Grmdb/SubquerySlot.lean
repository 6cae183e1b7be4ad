import Grmdb.QueryAnalyze

namespace Grmdb

section

variable {σ ρ : Type}

/-- A condition with a subquery or a list of values. -/
def BinaryExpr.isSub (expr : BinaryExpr σ) : Bool :=
  match expr.rhs with
  | .value _ => false
  | .col _ => false
  | .subquery _ => true
  | .valueList _ => true

/-- The slot is the condition `expr`. -/
structure Subquery.Holds (analyzeSub : σ → Option ρ) (allCols : List ColMeta)
    (slot : Subquery ρ) (expr : BinaryExpr σ) : Prop where
  lhs : checkColumn allCols expr.lhs = some slot.lhs
  inClause : slot.inClause = expr.inClause
  op : expr.inClause = false → slot.op = some expr.op
  sub : match expr.rhs with
    | .value _ => False
    | .col _ => False
    | .subquery subQuery =>
      slot.valueList = false ∧ ∃ query, analyzeSub subQuery = some query ∧ slot.sub = .inl query
    | .valueList values => slot.valueList = true ∧ slot.sub = .inr values

/-- The two are one condition for the analyzer. -/
structure BinaryExpr.Same (analyzeSub : σ → Option ρ) (allCols : List ColMeta)
    (expr expr' : BinaryExpr σ) : Prop where
  lhs : checkColumn allCols expr.lhs = checkColumn allCols expr'.lhs
  inClause : expr.inClause = expr'.inClause
  op : expr.inClause = false → expr.op = expr'.op
  sub : match expr.rhs, expr'.rhs with
    | .subquery subQuery, .subquery subQuery' => analyzeSub subQuery = analyzeSub subQuery'
    | .valueList values, .valueList values' => values = values'
    | _, _ => False

/-- The slot of a query is enough: all conditions for it are the same, and a list of values comes
with IN. -/
structure OneSubquery (analyzeSub : σ → Option ρ) (allCols : List ColMeta)
    (svConds : List (BinaryExpr σ)) : Prop where
  listIn : ∀ expr ∈ svConds, ∀ values, expr.rhs = .valueList values → expr.inClause = true
  same : ∀ expr ∈ svConds, ∀ expr' ∈ svConds, expr.isSub = true → expr'.isSub = true →
    expr.Same analyzeSub allCols expr'

variable {analyzeSub : σ → Option ρ} {allCols : List ColMeta} {slot : Subquery ρ}
  {old new : Option (Subquery ρ)} {expr expr' : BinaryExpr σ} {svConds : List (BinaryExpr σ)}

theorem addSubquery_of_not_isSub (hsub : expr.isSub = false) (old : Option (Subquery ρ)) :
    addSubquery analyzeSub allCols old expr = some old := by
  unfold BinaryExpr.isSub at hsub
  unfold addSubquery
  cases hrhs : expr.rhs with
  | value val => rfl
  | col col => rfl
  | subquery subQuery => simp [hrhs] at hsub
  | valueList values => simp [hrhs] at hsub

theorem Subquery.Holds.of_same (h : slot.Holds analyzeSub allCols expr)
    (hsame : expr.Same analyzeSub allCols expr') : slot.Holds analyzeSub allCols expr' := by
  refine ⟨hsame.lhs ▸ h.lhs, h.inClause.trans hsame.inClause, fun hin => ?_, ?_⟩
  · rw [← hsame.inClause] at hin
    rw [← hsame.op hin]
    exact h.op hin
  · have hs := hsame.sub
    have hh := h.sub
    cases hrhs : expr.rhs with
    | value val => simp [hrhs] at hh
    | col col => simp [hrhs] at hh
    | subquery subQuery =>
      cases hrhs' : expr'.rhs with
      | subquery subQuery' =>
        simp only [hrhs, hrhs'] at hs hh
        rw [hs] at hh
        exact hh
      | value val | col col | valueList values => simp [hrhs, hrhs'] at hs
    | valueList values =>
      cases hrhs' : expr'.rhs with
      | valueList values' =>
        simp only [hrhs, hrhs'] at hs hh
        rw [hs] at hh
        exact hh
      | value val | col col | subquery subQuery' => simp [hrhs, hrhs'] at hs

/-- A slot that holds both conditions shows that they are the same. -/
theorem Subquery.Holds.same (h : slot.Holds analyzeSub allCols expr)
    (h' : slot.Holds analyzeSub allCols expr') : expr.Same analyzeSub allCols expr' := by
  have hin : expr.inClause = expr'.inClause := h.inClause.symm.trans h'.inClause
  refine ⟨h.lhs.trans h'.lhs.symm, hin, fun hfalse => ?_, ?_⟩
  · exact Option.some.inj ((h.op hfalse).symm.trans (h'.op (hin ▸ hfalse)))
  · have hh := h.sub
    have hh' := h'.sub
    cases hrhs : expr.rhs with
    | value val => simp [hrhs] at hh
    | col col => simp [hrhs] at hh
    | subquery subQuery =>
      simp only [hrhs] at hh
      obtain ⟨hflag, query, hquery, hslot⟩ := hh
      cases hrhs' : expr'.rhs with
      | subquery subQuery' =>
        simp only [hrhs'] at hh'
        obtain ⟨-, query', hquery', hslot'⟩ := hh'
        cases hslot.symm.trans hslot'
        exact hquery.trans hquery'.symm
      | value val | col col => simp [hrhs'] at hh'
      | valueList values => simp [hrhs', hflag] at hh'
    | valueList values =>
      simp only [hrhs] at hh
      obtain ⟨hflag, hslot⟩ := hh
      cases hrhs' : expr'.rhs with
      | valueList values' =>
        simp only [hrhs'] at hh'
        exact Sum.inr.inj (hslot.symm.trans hh'.2)
      | value val | col col => simp [hrhs'] at hh'
      | subquery subQuery' => simp [hrhs', hflag] at hh'

/-- The round for `expr`, when the slot is empty or already holds the same condition. -/
theorem addSubquery_holds (hsub : expr.isSub = true)
    (hlist : ∀ values, expr.rhs = .valueList values → expr.inClause = true)
    (hold : ∀ slot, old = some slot → slot.Holds analyzeSub allCols expr)
    (h : addSubquery analyzeSub allCols old expr = some new) :
    ∃ slot, new = some slot ∧ slot.Holds analyzeSub allCols expr := by
  have hin : (expr.inClause || old.any Subquery.inClause) = expr.inClause := by
    cases old with
    | none => simp
    | some slot => simp [(hold slot rfl).inClause]
  unfold addSubquery at h
  cases hrhs : expr.rhs with
  | value val => simp [BinaryExpr.isSub, hrhs] at hsub
  | col col => simp [BinaryExpr.isSub, hrhs] at hsub
  | subquery subQuery =>
    simp only [hrhs, hin] at h
    obtain ⟨lhs, hlhs, h⟩ := Option.bind_eq_some_iff.mp h
    obtain ⟨query, hquery, rfl⟩ := Option.map_eq_some_iff.mp h
    refine ⟨_, rfl, hlhs, rfl, fun hfalse => by simp [hfalse], ?_⟩
    simp only [hrhs]
    refine ⟨?_, query, hquery, rfl⟩
    cases old with
    | none => rfl
    | some slot =>
      have hsame := (hold slot rfl).sub
      simp only [hrhs] at hsame
      simpa using hsame.1
  | valueList values =>
    have htrue := hlist values hrhs
    simp only [hrhs, hin] at h
    split at h
    next => cases h
    next =>
      obtain ⟨lhs, hlhs, rfl⟩ := Option.map_eq_some_iff.mp h
      refine ⟨_, rfl, hlhs, rfl, fun hfalse => ?_, ?_⟩
      · rw [htrue] at hfalse
        cases hfalse
      · simp only [hrhs, and_self]

/-- What the loop over the subqueries leaves when the slot is enough. -/
theorem foldSubquery_holds {all : List (BinaryExpr σ)} (hone : OneSubquery analyzeSub allCols all)
    (hmem : ∀ expr ∈ svConds, expr ∈ all)
    (hold : ∀ slot, old = some slot →
      ∀ expr ∈ all, expr.isSub = true → slot.Holds analyzeSub allCols expr)
    (h : svConds.foldlM (addSubquery analyzeSub allCols) old = some new) :
    (∀ slot, new = some slot →
      ∀ expr ∈ all, expr.isSub = true → slot.Holds analyzeSub allCols expr) ∧
    ((old.isSome ∨ ∃ expr ∈ svConds, expr.isSub = true) → new.isSome) := by
  induction svConds generalizing old with
  | nil =>
    cases h
    exact ⟨hold, by simp⟩
  | cons expr svConds ih =>
    rw [List.foldlM_cons] at h
    obtain ⟨next, hnext, h⟩ := Option.bind_eq_some_iff.mp h
    have hhere := hmem expr List.mem_cons_self
    have hrest : ∀ e ∈ svConds, e ∈ all := fun e he => hmem e (List.mem_cons_of_mem expr he)
    cases hsub : expr.isSub with
    | false =>
      rw [addSubquery_of_not_isSub hsub] at hnext
      cases hnext
      simpa [hsub] using ih hrest hold h
    | true =>
      obtain ⟨slot, rfl, hslot⟩ := addSubquery_holds hsub (hone.listIn expr hhere)
        (fun slot hslot => hold slot hslot expr hhere hsub) hnext
      have hall : ∀ slot', some slot = some slot' →
          ∀ e ∈ all, e.isSub = true → slot'.Holds analyzeSub allCols e := by
        intro slot' heq e he hsub'
        cases heq
        exact hslot.of_same (hone.same expr hhere e he hsub hsub')
      obtain ⟨hfinal, hsome⟩ := ih hrest hall h
      exact ⟨hfinal, fun _ => hsome (Or.inl rfl)⟩

/-- Lists of values never set the operator. -/
theorem foldSubquery_op (hlist : ∀ expr ∈ svConds, expr.isSub = true →
      ∃ values, expr.rhs = .valueList values) (hold : old.bind Subquery.op = none)
    (h : svConds.foldlM (addSubquery analyzeSub allCols) old = some new) :
    new.bind Subquery.op = none := by
  induction svConds generalizing old with
  | nil =>
    cases h
    exact hold
  | cons expr svConds ih =>
    rw [List.foldlM_cons] at h
    obtain ⟨next, hnext, h⟩ := Option.bind_eq_some_iff.mp h
    refine ih (fun e he => hlist e (List.mem_cons_of_mem expr he)) ?_ h
    cases hsub : expr.isSub with
    | false =>
      rw [addSubquery_of_not_isSub hsub] at hnext
      cases hnext
      exact hold
    | true =>
      obtain ⟨values, hrhs⟩ := hlist expr List.mem_cons_self hsub
      simp only [addSubquery, hrhs] at hnext
      split at hnext
      next => cases hnext
      next =>
        obtain ⟨lhs, -, rfl⟩ := Option.map_eq_some_iff.mp hnext
        exact hold

/-- The slot ends up holding every condition for it exactly when it is enough for them. -/
theorem slot_holds_iff (h : svConds.foldlM (addSubquery analyzeSub allCols) none = some new) :
    (∀ expr ∈ svConds, expr.isSub = true →
      ∃ slot, new = some slot ∧ slot.Holds analyzeSub allCols expr) ↔
    OneSubquery analyzeSub allCols svConds := by
  constructor
  · intro hall
    have hsame : ∀ expr ∈ svConds, ∀ expr' ∈ svConds, expr.isSub = true → expr'.isSub = true →
        expr.Same analyzeSub allCols expr' := by
      intro expr hexpr expr' hexpr' hsub hsub'
      obtain ⟨slot, rfl, hslot⟩ := hall expr hexpr hsub
      obtain ⟨slot', heq, hslot'⟩ := hall expr' hexpr' hsub'
      cases heq
      exact hslot.same hslot'
    refine ⟨fun expr hexpr values hrhs => ?_, hsame⟩
    have hsub : expr.isSub = true := by simp [BinaryExpr.isSub, hrhs]
    obtain ⟨slot, rfl, hslot⟩ := hall expr hexpr hsub
    have hlist : ∀ e ∈ svConds, e.isSub = true → ∃ values, e.rhs = .valueList values := by
      intro e he hsub'
      have hs := (hsame expr hexpr e he hsub hsub').sub
      cases hrhs' : e.rhs with
      | valueList values' => exact ⟨values', rfl⟩
      | value val | col col | subquery subQuery => simp [hrhs, hrhs'] at hs
    have hop : slot.op = none := foldSubquery_op hlist rfl h
    cases hin : expr.inClause with
    | true => rfl
    | false =>
      have := hslot.op hin
      rw [hop] at this
      cases this
  · intro hone expr hexpr hsub
    obtain ⟨hfinal, hsome⟩ := foldSubquery_holds hone (fun e he => he) (by simp) h
    obtain ⟨slot, hslot⟩ := Option.isSome_iff_exists.mp (hsome (Or.inr ⟨expr, hexpr, hsub⟩))
    exact ⟨slot, hslot, hfinal slot hslot expr hexpr hsub⟩

end

end Grmdb
