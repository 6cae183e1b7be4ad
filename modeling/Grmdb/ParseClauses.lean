import Grmdb.ParseSelect

namespace Grmdb

open LR

namespace Ast

section Where

variable {sub : TreeNode → List YyToken} {Sub : TreeNode → Prop} {m : Nat}

theorem parses_expr
    (hsub : ∀ q, Sub q → Parses true 0 (.nonterminal .dql) (sub q) m (·.svNode = some q))
    (hm : 4 ≤ m) {rhs : Expr TreeNode} (hwritten : WrittenExpr Sub rhs) :
    Parses rhs.isSubquery 0 (.nonterminal .expr) (exprTokens sub rhs) (m + 1) (·.svExpr = rhs) := by
  cases rhs with
  | value val =>
    refine (Parses.of_one 84 rfl (parses_value val) Nat.one_pos le_rfl ?_).cast rfl rfl (by omega)
    intro v hv
    exact ⟨_, rfl, congrArg Expr.value hv, .of_eq ⟨rfl, rfl, rfl, rfl⟩⟩
  | col col =>
    refine (Parses.of_one 85 rfl (parses_col col) (Nat.succ_pos 2) le_rfl ?_).cast rfl rfl
      (by omega)
    intro v hv
    exact ⟨_, rfl, congrArg Expr.col hv, .of_eq ⟨rfl, rfl, rfl, rfl⟩⟩
  | subquery q =>
    have hclose := ParsesAll.token_cons (tok .rparen) (blank_tok _) (ParsesAll.nil (r := 0))
    refine (Parses.node 86 rfl (.token (tok .lparen) (blank_tok _)) (.cons (hsub q hwritten) hclose
      (Or.inr rfl)) (Or.inl rfl) le_rfl ?_).cast rfl rfl (by omega)
    intro v vs hv hvs
    obtain ⟨w, _, rfl, hw, _, rfl, rfl⟩ := hvs
    refine ⟨_, rfl, ?_, .of_eq ⟨rfl, rfl, rfl, rfl⟩⟩
    change Expr.subquery (w.svNode.getD .help) = _
    rw [hw, Option.getD_some]
  | valueList values =>
    have hclose := ParsesAll.token_cons (tok .rparen) (blank_tok _) (ParsesAll.nil (r := 0))
    refine (Parses.node 87 rfl (.token (tok .lparen) (blank_tok _)) (.cons
      (parses_valueList hwritten) hclose (Or.inl rfl)) (Or.inl rfl) le_rfl ?_).cast rfl rfl
      (by omega)
    intro v vs hv hvs
    obtain ⟨w, _, rfl, hw, _, rfl, rfl⟩ := hvs
    exact ⟨_, rfl, congrArg Expr.valueList hw, .of_eq ⟨rfl, rfl, rfl, rfl⟩⟩

theorem parses_condition
    (hsub : ∀ q, Sub q → Parses true 0 (.nonterminal .dql) (sub q) m (·.svNode = some q))
    (hm : 4 ≤ m) {cond : BinaryExpr TreeNode} (hwritten : WrittenCond Sub cond) :
    Parses cond.rhs.isSubquery 0 (.nonterminal .condition) (conditionTokens sub cond) (m + 3)
      (·.svCond = cond) := by
  have hexpr := (parses_expr hsub hm hwritten.rhs).all (by omega)
  obtain ⟨lhs, inClause, op, rhs⟩ := cond
  cases inClause with
  | true =>
    refine (Parses.node 69 rfl (parses_col lhs) (.token_cons (tok .IN) (blank_tok _) hexpr)
      (Or.inl rfl) le_rfl ?_).cast rfl rfl (by omega)
    intro v vs hv hvs
    obtain ⟨_, rfl, e, rfl, he⟩ := hvs
    subst hv
    have hop : op = .eq := hwritten.op rfl
    have hin : BinaryExpr.inList v.svCol e.svExpr = .ok ⟨v.svCol, true, op, rhs⟩ := by
      have hlist := hwritten.isList rfl
      rw [he, hop]
      cases rhs with
      | value val => cases hlist
      | col col => cases hlist
      | subquery q => rfl
      | valueList values => rfl
    refine ⟨{ v with svCond := ⟨v.svCol, true, op, rhs⟩ }, ?_, rfl, .of_eq ⟨rfl, rfl, rfl, rfl⟩⟩
    change (BinaryExpr.inList v.svCol e.svExpr).map _ = _
    rw [hin]
    rfl
  | false =>
    refine (Parses.node 68 rfl (parses_col lhs) (.cons (parses_op op) hexpr (Or.inl rfl))
      (Or.inl rfl) le_rfl ?_).cast rfl (by simp) (by omega)
    intro v vs hv hvs
    obtain ⟨o, _, rfl, ho, e, rfl, he⟩ := hvs
    refine ⟨_, rfl, ?_, .of_eq ⟨rfl, rfl, rfl, rfl⟩⟩
    change BinaryExpr.mk v.svCol false o.svCompOp e.svExpr = _
    rw [hv, ho, he]

theorem parses_whereClause
    (hsub : ∀ q, Sub q → Parses true 0 (.nonterminal .dql) (sub q) m (·.svNode = some q))
    (hm : 4 ≤ m) {conds : List (BinaryExpr TreeNode)} (hnil : conds ≠ [])
    (hwritten : WrittenWhere Sub conds) :
    Parses (conds.any fun cond => cond.rhs.isSubquery) 1 (.nonterminal .whereClause)
      (sepBy .AND (conditionTokens sub) conds) (m + 5) (·.svConds = conds) := by
  have hkeeps : ∀ (v : SemValue) (conds : List (BinaryExpr TreeNode)),
      Keeps 1 v { v with svConds := conds } := fun _ _ =>
    .of_same (fun h => by omega) (fun _ => rfl) (fun _ => rfl) rfl
  have hrules : ListRules 72 73 .whereClause .condition .AND 1 SemValue.svCond SemValue.svConds :=
    ⟨rfl, rfl, fun v => ⟨_, rfl, rfl, hkeeps v _⟩, fun v _ _ => ⟨_, rfl, rfl, hkeeps v _⟩⟩
  exact hrules.parses (by omega) hnil
    (fun cond hin => parses_condition hsub hm (hwritten.written cond hin)) hwritten.once

end Where

/-- The slots that the optional clauses from the `k`th on begin in are blank for them. -/
def Ready (k : Nat) (slots : List SemValue) : Prop := ∀ i v, slots[i]? = some v → Blank (k + i) v

/-- The tokens of the `k`th optional clause, or none if it is left out. -/
def ParsesClause (nested : Bool) (k : Nat) (symbol : Symbol Terminal Nonterminal)
    (tokens : List YyToken) (need : Nat) (P : SemValue → Prop) : Prop :=
  ∀ s slots, need ≤ slots.length → Blank k s → (nested = true → Blanks (s :: slots)) →
    ∃ v values, yyparser.Reads [symbol] tokens (s :: slots) (v :: values) ∧ P v ∧
      Leaves nested (k + 1) (s :: slots) (v :: values)

/-- The last clauses of a statement. -/
def ParsesClauses (nested : Bool) (k : Nat) (symbols : List (Symbol Terminal Nonterminal))
    (tokens : List YyToken) (need : Nat) (Q : List SemValue → Prop) : Prop :=
  ∀ slots, need < slots.length → Ready k slots → (nested = true → Blanks slots) →
    ∃ vs values, yyparser.Reads symbols tokens slots (vs ++ values) ∧
      vs.length = symbols.length ∧ Q vs ∧ (vs ++ values).length = slots.length

variable {nested : Bool} {k need need' : Nat} {symbol : Symbol Terminal Nonterminal}
  {symbols : List (Symbol Terminal Nonterminal)} {tokens tokens' : List YyToken}
  {P : SemValue → Prop} {Q : List SemValue → Prop} {slots values : List SemValue} {s v : SemValue}

theorem Blanks.ready (h : Blanks slots) (k : Nat) : Ready k slots :=
  fun _ v hv => h v (List.mem_of_getElem? hv) _

/-- Behind a clause the slots are as blank as the next ones need them. -/
theorem Ready.tail (h : Ready k (s :: slots)) (hleaves : Leaves nested (k + 1) (s :: slots)
    (v :: values)) : Ready (k + 1) values := by
  intro i w hw
  by_cases hi : i + 1 < 4
  · have hkeeps := hleaves.keeps 4 fun _ => le_rfl
    have hlength := hleaves.length
    have hlt : i + 1 < (v :: values).length :=
      Nat.succ_lt_succ (List.getElem?_eq_some_iff.mp hw).1
    have hlt' : i + 1 < (s :: slots).length := hlength ▸ hlt
    have hold : (s :: slots)[i + 1]? = some ((s :: slots)[i + 1]) := List.getElem?_eq_getElem hlt'
    have hboth := hkeeps.get (i := i + 1) (by rw [List.length_take]; omega)
      (by rw [List.length_take]; omega)
    rw [List.get_eq_getElem, List.get_eq_getElem, List.getElem_take, List.getElem_take] at hboth
    have hblank := hboth (k + 1 + i) (by omega)
      (by have := h (i + 1) _ hold; rwa [Nat.add_right_comm k 1 i])
    have hsame : (v :: values)[i + 1] = w := (List.getElem?_eq_some_iff.mp hw).2
    rwa [hsame] at hblank
  · have hbeyond : ∃ j, k + 1 + i = j + 4 := ⟨k + 1 + i - 4, by omega⟩
    obtain ⟨j, hj⟩ := hbeyond
    rw [hj]
    trivial

theorem ParsesClauses.nil : ParsesClauses false k [] [] 0 (· = []) := by
  intro slots _ _ _
  exact ⟨[], slots, .nil slots, rfl, rfl, rfl⟩

theorem ParsesClauses.cons (h : ParsesClause nested k symbol tokens need P)
    (h' : ParsesClauses false (k + 1) symbols tokens' need' Q) :
    ParsesClauses nested k (symbol :: symbols) (tokens ++ tokens') (max need (need' + 1))
      (fun vs => ∃ v ws, vs = v :: ws ∧ P v ∧ Q ws) := by
  intro slots hneed hready hblanks
  cases slots with
  | nil => cases hneed
  | cons s slots =>
    rw [List.length_cons] at hneed
    obtain ⟨v, values, hreads, hv, hleaves⟩ := h s slots (by omega) (hready 0 s rfl) hblanks
    have hlength := hleaves.length
    rw [List.length_cons, List.length_cons] at hlength
    obtain ⟨ws, rest, hreads', hcount, hws, hsame⟩ := h' values (by omega)
      (hready.tail hleaves) fun hfalse => Bool.noConfusion hfalse
    refine ⟨v :: ws, rest, hreads.append hreads', congrArg (· + 1) hcount,
      ⟨v, ws, rfl, hv, hws⟩, ?_⟩
    rw [List.cons_append, List.length_cons, List.length_cons]
    omega

theorem ParsesClause.weaken (h : ParsesClause nested k symbol tokens need P) (hle : need ≤ need') :
    ParsesClause nested k symbol tokens need' P :=
  fun s slots hslots => h s slots (hle.trans hslots)

/-- A clause that is left out gets its value from the slot. -/
theorem ParsesClause.empty (yyn : Nat) {A : Nonterminal} (hrule : yyrule yyn = some ⟨A, []⟩)
    (hmake : ∀ s, yyaction yyn [] s = .ok s) (hP : ∀ s, Blank k s → P s) :
    ParsesClause false k (.nonterminal A) [] 1 P := by
  intro s slots hneed hblank _
  obtain ⟨next, slots, rfl⟩ := List.exists_cons_of_length_pos hneed
  have hrule' : yyparser.rules yyn = some ⟨A, []⟩ := hrule
  refine ⟨s, next :: slots, .node hrule' (.nil _) ?_ rfl, hP s hblank, .refl _ _ _⟩
  rw [Parser.result_cons hrule']
  exact hmake s

/-- A clause that is written. -/
theorem ParsesClause.written (yyn : Nat) {A : Nonterminal} (hrule : yyrule yyn = some ⟨A, symbols⟩)
    (h : ParsesAll nested (k + 1) symbols tokens need Q) (hsymbols : 0 < symbols.length)
    (hneed : 0 < need) (hmake : ∀ v vs, Q (v :: vs) →
      ∃ w, yyaction yyn (v :: vs) v = .ok w ∧ P w ∧ Keeps (k + 1) v w) :
    ParsesClause nested k (.nonterminal A) tokens need P := by
  intro s slots hslots _ hblanks
  obtain ⟨vs, values, hreads, hcount, hvs, hleaves⟩ :=
    h (s :: slots) (Nat.lt_succ_of_le hslots) hblanks
  cases vs with
  | nil => rw [← hcount] at hsymbols; cases hsymbols
  | cons v vs =>
    obtain ⟨w, hw, hP, hkeeps⟩ := hmake v vs hvs
    have hlength := hleaves.length
    rw [List.cons_append, List.length_cons, List.length_cons] at hlength
    obtain ⟨next, more, hmore⟩ := List.exists_cons_of_length_pos (l := vs ++ values) (by omega)
    have hrule' : yyparser.rules yyn = some ⟨A, symbols⟩ := hrule
    refine ⟨w, vs ++ values, .node hrule' hreads ?_ ?_, hP, ?_⟩
    · rw [List.cons_append, Parser.result_cons hrule', ← List.cons_append]
      change yyaction yyn ((v :: vs ++ values).take symbols.length) v = .ok w
      rw [← hcount, List.take_left, hw]
    · rw [List.cons_append, hmore]
      rfl
    · have hlast := hleaves.trans (.cons hkeeps (.refl false _ _))
      rwa [Bool.or_false] at hlast

end Ast

end Grmdb
