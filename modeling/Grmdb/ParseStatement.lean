import Grmdb.ParseClauses

namespace Grmdb

open LR

namespace Ast

theorem parses_groupBy (cols : List TabCol) :
    ParsesClause false 1 (.nonterminal .optGroupByClause) (groupByTokens cols) 7
      (·.svGroupby = cols) := by
  cases cols with
  | nil => exact (ParsesClause.empty 46 rfl (fun _ => rfl) fun s h => h).weaken (by omega)
  | cons col cols =>
    have hlist := ((parses_colList (List.cons_ne_nil col cols)).lift 2 (by omega)).all (by omega)
    refine ParsesClause.written 45 rfl (.token_cons (tok .GROUP) (blank_tok _)
      (.token_cons (tok .BY) (blank_tok _) hlist)) (by simp) (by omega) ?_
    intro v vs hvs
    obtain ⟨ws, heq, us, rfl, w, rfl, hw⟩ := hvs
    cases heq
    exact ⟨_, rfl, hw, .of_same (fun h => by omega) (fun h => by omega) (fun _ => rfl) rfl⟩

theorem parses_having {havings : List HavingExpr}
    (hwritten : ∀ having ∈ havings, WrittenHavingExpr having) :
    ParsesClause false 2 (.nonterminal .optHavingClause) (havingTokens havings) 8
      (·.svHavings = havings) := by
  cases havings with
  | nil => exact (ParsesClause.empty 50 rfl (fun _ => rfl) fun s h => h).weaken (by omega)
  | cons having havings =>
    have hlist := (parses_havingClause (List.cons_ne_nil having havings) hwritten).all (by omega)
    refine ParsesClause.written 51 rfl (.token_cons (tok .HAVING) (blank_tok _) hlist) (by simp)
      (by omega) ?_
    intro v vs hvs
    obtain ⟨ws, heq, w, rfl, hw⟩ := hvs
    cases heq
    exact ⟨_, rfl, hw, .of_same (fun h => by omega) (fun h => by omega) (fun h => by omega) rfl⟩

theorem parses_ascDesc (dir : OrderByDir) :
    Parses false 0 (.nonterminal .optAscDesc) (ascDescTokens dir) 1 (·.svOrderbyDir = dir) := by
  cases dir with
  | default =>
    intro s slots hneed _
    obtain ⟨next, slots, rfl⟩ := List.exists_cons_of_length_pos hneed
    have hrule : yyparser.rules 99 = some ⟨.optAscDesc, []⟩ := rfl
    exact ⟨{ s with svOrderbyDir := .default }, next :: slots, .node hrule (.nil _) rfl rfl, rfl,
      .of_eq ⟨rfl, rfl, rfl, rfl⟩, .refl _ _ _⟩
  | asc =>
    exact .of_token 97 (tok .ASC) rfl (blank_tok _) ⟨_, rfl, rfl, .of_eq ⟨rfl, rfl, rfl, rfl⟩⟩
  | desc =>
    exact .of_token 98 (tok .DESC) rfl (blank_tok _) ⟨_, rfl, rfl, .of_eq ⟨rfl, rfl, rfl, rfl⟩⟩

theorem parses_order (order : Option OrderBy) :
    ParsesClause false 3 (.nonterminal .optOrderClause) (orderTokens order) 5
      (·.svOrderby = order) := by
  cases order with
  | none => exact (ParsesClause.empty 95 rfl (fun _ => rfl) fun s h => h).weaken (by omega)
  | some order =>
    have hclause : Parses false 4 (.nonterminal .orderClause)
        (colTokens order.cols ++ ascDescTokens order.orderbyDir) 3 (·.svOrderby = some order) := by
      refine (Parses.node 96 rfl (parses_col order.cols)
        ((parses_ascDesc order.orderbyDir).all (by omega)) (Or.inl rfl) (Nat.zero_le 4) ?_).cast rfl
        rfl (by omega)
      intro v vs hv hvs
      obtain ⟨w, rfl, hw⟩ := hvs
      refine ⟨_, rfl, ?_, fun k hk _ => ?_⟩
      · change some (OrderBy.mk v.svCol w.svOrderbyDir) = some order
        rw [hv, hw]
      · obtain ⟨j, rfl⟩ := Nat.exists_eq_add_of_le' hk
        trivial
    refine ParsesClause.written 94 rfl (.token_cons (tok .ORDER) (blank_tok _)
      (.token_cons (tok .BY) (blank_tok _) (hclause.all (by omega)))) (by simp) (by omega) ?_
    intro v vs hvs
    obtain ⟨ws, heq, us, rfl, w, rfl, hw⟩ := hvs
    cases heq
    refine ⟨_, rfl, hw, fun k hk _ => ?_⟩
    obtain ⟨j, rfl⟩ := Nat.exists_eq_add_of_le' hk
    trivial

section Select

variable {sub : TreeNode → List YyToken} {Sub : TreeNode → Prop} {m : Nat}

theorem parses_where
    (hsub : ∀ q, Sub q → Parses true 0 (.nonterminal .dql) (sub q) m (·.svNode = some q))
    (hm : 4 ≤ m) {conds : List (BinaryExpr TreeNode)} (hwritten : WrittenWhere Sub conds) :
    ParsesClause (conds.any fun cond => cond.rhs.isSubquery) 0 (.nonterminal .optWhereClause)
      (whereTokens sub conds) (m + 6) (·.svConds = conds) := by
  cases conds with
  | nil => exact (ParsesClause.empty 70 rfl (fun _ => rfl) fun s h => h).weaken (by omega)
  | cons cond conds =>
    have hlist := (parses_whereClause hsub hm (List.cons_ne_nil cond conds) hwritten).all (by omega)
    refine ParsesClause.written 71 rfl (.token_cons (tok .WHERE) (blank_tok _) hlist) (by simp)
      (by omega) ?_
    intro v vs hvs
    obtain ⟨ws, heq, w, rfl, hw⟩ := hvs
    cases heq
    exact ⟨_, rfl, hw, .of_same (fun h => by omega) (fun _ => rfl) (fun _ => rfl) rfl⟩

/-- The slots that a SELECT leaves, where its clauses lie behind its tables. -/
structure ReadsSelect (tokens : List YyToken) (stmt : SelectStmt TreeNode) (s : SemValue)
    (slots : List SemValue) (selectors tables c₁ c₂ c₃ c₄ : SemValue) (rest : List SemValue) :
    Prop where
  reads : yyparser.Reads [.nonterminal .dql] tokens (s :: slots)
    ({ (tok .SELECT).2 with svNode := some (.selectStmt stmt) } :: selectors :: (tok .FROM).2 ::
      tables :: c₁ :: c₂ :: c₃ :: c₄ :: rest)
  conds : c₁.svConds = stmt.conds
  groupBys : c₂.svGroupby = stmt.groupBys
  havings : c₃.svHavings = stmt.havings
  orderBys : c₄.svOrderby = stmt.orderBys
  length : rest.length + 7 = slots.length
  keeps : ∃ values, Leaves false 0 (s :: slots)
    ((tok .SELECT).2 :: selectors :: (tok .FROM).2 :: tables :: values)

/-- A WHERE clause behind which the other clauses can be left out. -/
def ReadsWhere (tokens : List YyToken) (need : Nat) (conds : List (BinaryExpr TreeNode)) : Prop :=
  ∀ s slots, need ≤ slots.length → Blanks (s :: slots) →
    ∃ w values, yyparser.Reads [.nonterminal .optWhereClause] tokens (s :: slots) (w :: values) ∧
      w.svConds = conds ∧ values.length = slots.length ∧ Ready 1 values

theorem readsWhere_of_written
    (hsub : ∀ q, Sub q → Parses true 0 (.nonterminal .dql) (sub q) m (·.svNode = some q))
    (hm : 4 ≤ m) {conds : List (BinaryExpr TreeNode)} (hwritten : WrittenWhere Sub conds) :
    ReadsWhere (whereTokens sub conds) (m + 6) conds := by
  intro s slots hneed hblanks
  obtain ⟨w, values, hreads, hw, hleaves⟩ := parses_where hsub hm hwritten s slots hneed
    (hblanks s List.mem_cons_self 0) fun _ => hblanks
  have hlength := hleaves.length
  rw [List.length_cons, List.length_cons] at hlength
  exact ⟨w, values, hreads, hw, by omega, (hblanks.ready 0).tail hleaves⟩

theorem exists_readsSelect (stmt : SelectStmt TreeNode) {tokens : List YyToken} {need : Nat}
    (haggCols : stmt.aggCols ≠ []) (hselectors : ∀ col ∈ stmt.aggCols, WrittenAggCol col)
    (htabs : stmt.tabs ≠ []) (hhavings : ∀ having ∈ stmt.havings, WrittenHavingExpr having)
    (hwhere : ReadsWhere tokens need stmt.conds) (hneed : 10 ≤ need) {s : SemValue}
    {slots : List SemValue} (hslots : need + 4 ≤ slots.length) (hblanks : Blanks (s :: slots)) :
    ∃ selectors tables c₁ c₂ c₃ c₄ rest, ReadsSelect
      (tok .SELECT :: (sepBy .comma selectorTokens stmt.aggCols ++
        tok .FROM :: (sepBy .comma (fun name => [identifier name]) stmt.tabs ++
          (tokens ++ (groupByTokens stmt.groupBys ++
            (havingTokens stmt.havings ++ orderTokens stmt.orderBys))))))
      stmt s slots selectors tables c₁ c₂ c₃ c₄ rest := by
  have hfront := ParsesAll.token_cons (tok .SELECT) (blank_tok _) (ParsesAll.cons
    (parses_selectors haggCols hselectors) (ParsesAll.token_cons (tok .FROM)
      (blank_tok _) ((parses_tableList htabs).all (by omega))) (Or.inl rfl))
  have hclauses := ParsesClauses.cons (parses_groupBy stmt.groupBys) (.cons
    (parses_having hhavings) (.cons (parses_order stmt.orderBys) .nil))
  obtain ⟨vs, values, hreads, hcount, hvs, hleaves⟩ :=
    hfront (s :: slots) (by rw [List.length_cons]; omega) fun hfalse => Bool.noConfusion hfalse
  obtain ⟨ws, rfl, selectors, us, rfl, hsel, ts, rfl, tables, rfl, htab⟩ := hvs
  have hafter : Blanks values := fun w hw =>
    hleaves.blanks hblanks w (List.mem_append_right _ hw)
  have hlength := hleaves.length
  simp only [List.cons_append, List.nil_append, List.length_cons] at hlength
  obtain ⟨s₁, slots₁, rfl⟩ := List.exists_cons_of_length_pos (l := values) (by omega)
  rw [List.length_cons] at hlength
  obtain ⟨c₁, values₁, hreads₁, hc₁, hlength₁, hready⟩ := hwhere s₁ slots₁ (by omega) hafter
  obtain ⟨cs, rest, hreads', -, hcs, hsame⟩ := hclauses values₁ (by omega) hready
    fun hfalse => Bool.noConfusion hfalse
  obtain ⟨c₂, _, rfl, hc₂, c₃, _, rfl, hc₃, c₄, _, rfl, hc₄, rfl⟩ := hcs
  have hrule : yyparser.rules 33 = some ⟨.dql, [.terminal .SELECT, .nonterminal .selectors,
    .terminal .FROM, .nonterminal .tableList, .nonterminal .optWhereClause,
    .nonterminal .optGroupByClause, .nonterminal .optHavingClause,
    .nonterminal .optOrderClause]⟩ := rfl
  have hdone : yyparser.Reads [.terminal .SELECT, .nonterminal .selectors, .terminal .FROM,
      .nonterminal .tableList, .nonterminal .optWhereClause, .nonterminal .optGroupByClause,
      .nonterminal .optHavingClause, .nonterminal .optOrderClause]
      (tok .SELECT :: (sepBy .comma selectorTokens stmt.aggCols ++
        tok .FROM :: (sepBy .comma (fun name => [identifier name]) stmt.tabs ++
          (tokens ++ (groupByTokens stmt.groupBys ++
            (havingTokens stmt.havings ++ orderTokens stmt.orderBys))))))
      (s :: slots) ((tok .SELECT).2 :: selectors :: (tok .FROM).2 :: tables :: c₁ :: c₂ :: c₃ ::
        c₄ :: rest) := by
    have hall := hreads.append (hreads₁.append hreads')
    simp only [List.cons_append, List.nil_append, List.append_assoc, List.append_nil,
      List.length_cons, List.length_nil, List.take_succ_cons, List.take_zero, Nat.zero_add,
      Nat.reduceAdd] at hall
    exact hall
  refine ⟨selectors, tables, c₁, c₂, c₃, c₄, rest, ⟨.node hrule hdone ?_ rfl, hc₁, hc₂, hc₃, hc₄,
    ?_, ⟨_, hleaves⟩⟩⟩
  · change Except.ok { (tok .SELECT).2 with svNode := some (TreeNode.selectStmt
      ⟨selectors.svAggCols, tables.svStrs, c₁.svConds, c₂.svGroupby, c₃.svHavings,
        c₄.svOrderby⟩) } = _
    rw [hsel, htab, hc₁, hc₂, hc₃, hc₄]
  · simp only [List.cons_append, List.nil_append, List.length_cons] at hsame
    omega

theorem parses_select
    (hsub : ∀ q, Sub q → Parses true 0 (.nonterminal .dql) (sub q) m (·.svNode = some q))
    (hm : 4 ≤ m) {stmt : SelectStmt TreeNode} (hwritten : WrittenSelect Sub stmt) :
    Parses true 0 (.nonterminal .dql) (selectTokens sub stmt) (m + 10)
      (·.svNode = some (.selectStmt stmt)) := by
  intro s slots hneed hblanks
  obtain ⟨selectors, tables, c₁, c₂, c₃, c₄, rest, hselect⟩ := exists_readsSelect stmt
    hwritten.aggCols hwritten.selectors hwritten.tabs hwritten.havings
    (readsWhere_of_written hsub hm hwritten.conds)
    (by omega) hneed (hblanks rfl)
  refine ⟨_, _, hselect.reads, rfl, fun k _ _ => Blank.of_empty ⟨rfl, rfl, rfl, rfl⟩ k, ?_,
    fun n hn => ?_⟩
  · have hlength := hselect.length
    simp only [List.length_cons]
    omega
  · obtain ⟨values, hleaves⟩ := hselect.keeps
    have hkeeps := hleaves.keeps n fun hfalse => Bool.noConfusion hfalse
    have hn' := hn rfl
    cases n with
    | zero => exact .nil
    | succ n =>
      obtain ⟨-, htail⟩ := List.forall₂_cons.mp hkeeps
      refine .cons (.refl 0 s) ?_
      have hfront : ∀ more : List SemValue,
          ([selectors, (tok .FROM).2, tables] ++ more).take n =
            [selectors, (tok .FROM).2, tables].take n := fun more =>
        List.take_append_of_le_length (by simp only [List.length_cons, List.length_nil]; omega)
      have hleft := hfront values ▸ htail
      exact (hfront (c₁ :: c₂ :: c₃ :: c₄ :: rest)).symm ▸ hleft

end Select

end Ast

end Grmdb
