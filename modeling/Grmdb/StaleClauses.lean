import Grmdb.SqlParse

namespace Grmdb

open LR

namespace Ast

variable {s t₀ t₁ t₂ t₃ : SemValue} {slots ts : List SemValue}

theorem ready_cons {k : Nat} (h : Blank k s) (h' : Ready (k + 1) slots) : Ready k (s :: slots) := by
  intro i v hv
  cases i with
  | zero =>
    cases hv
    exact h
  | succ i =>
    have hblank := h' i v hv
    rwa [Nat.add_right_comm] at hblank

theorem ready_of_ge {k : Nat} (h : 4 ≤ k) : Ready k slots := by
  intro i v _
  obtain ⟨j, hj⟩ := Nat.exists_eq_add_of_le' (h.trans (Nat.le_add_right k i))
  rw [hj]
  trivial

theorem reads_length {symbols : List (Symbol Terminal Nonterminal)} {tokens : List YyToken}
    {values : List SemValue} (h : yyparser.Reads symbols tokens slots values) :
    values.length = slots.length := by
  obtain ⟨forest, -, -, heval⟩ := h
  exact Parser.eval_length heval

theorem reads_name (yyn : Nat) {A : Nonterminal} (name : String)
    (hrule : yyrule yyn = some ⟨A, [.terminal .IDENTIFIER]⟩)
    (hmake : ∀ v, yyaction yyn [v] v = .ok v) :
    yyparser.Reads [.nonterminal A] [identifier name] (t₀ :: t₁ :: ts)
      ((identifier name).2 :: t₁ :: ts) := by
  have hrule' : yyparser.rules yyn = some ⟨A, [.terminal .IDENTIFIER]⟩ := hrule
  refine .node hrule' (.leaf (identifier name) t₀ t₁ ts) ?_ rfl
  rw [Parser.result_cons hrule']
  exact hmake _

/-- A column changes three slots. -/
theorem reads_col (col : TabCol) (t₀ t₁ t₂ t₃ : SemValue) (ts : List SemValue) :
    ∃ c u₁ u₂, yyparser.Reads [.nonterminal .col] (colTokens col) (t₀ :: t₁ :: t₂ :: t₃ :: ts)
      (c :: u₁ :: u₂ :: t₃ :: ts) ∧ c.svCol = col ∧ ∀ k, Blank k c := by
  obtain ⟨tabName, colName⟩ := col
  by_cases htab : tabName = ""
  · subst htab
    have hrule : yyparser.rules 75 = some ⟨.col, [.nonterminal .colName]⟩ := rfl
    rw [colTokens, if_pos rfl]
    exact ⟨_, t₁, t₂, .node hrule (reads_name 104 colName rfl fun _ => rfl) rfl rfl, rfl,
      Blank.of_empty ⟨rfl, rfl, rfl, rfl⟩⟩
  · have hrule : yyparser.rules 74 =
        some ⟨.col, [.nonterminal .tbName, .terminal .dot, .nonterminal .colName]⟩ := rfl
    have hcol : yyparser.Reads [.nonterminal .colName] [identifier colName] (t₂ :: t₃ :: ts)
        ((identifier colName).2 :: t₃ :: ts) := reads_name 104 colName rfl fun _ => rfl
    have hdot : yyparser.Reads [.terminal .dot, .nonterminal .colName]
        [tok .dot, identifier colName] (t₁ :: t₂ :: t₃ :: ts)
        ((tok .dot).2 :: (identifier colName).2 :: t₃ :: ts) :=
      Parser.Reads.append (.leaf (tok .dot) t₁ t₂ (t₃ :: ts)) hcol
    have htable : yyparser.Reads [.nonterminal .tbName] [identifier tabName]
        (t₀ :: t₁ :: t₂ :: t₃ :: ts) ((identifier tabName).2 :: t₁ :: t₂ :: t₃ :: ts) :=
      reads_name 103 tabName rfl fun _ => rfl
    have hall : yyparser.Reads [.nonterminal .tbName, .terminal .dot, .nonterminal .colName]
        [identifier tabName, tok .dot, identifier colName] (t₀ :: t₁ :: t₂ :: t₃ :: ts)
        ((identifier tabName).2 :: (tok .dot).2 :: (identifier colName).2 :: t₃ :: ts) :=
      htable.append hdot
    rw [colTokens, if_neg htab]
    exact ⟨_, _, _, .node hrule hall rfl rfl, rfl, Blank.of_empty ⟨rfl, rfl, rfl, rfl⟩⟩

/-- The tokens of a condition with a subquery. -/
def inTokens (lhs : TabCol) (sub : List YyToken) : List YyToken :=
  colTokens lhs ++ tok .IN :: tok .lparen :: (sub ++ [tok .rparen])

/-- A condition with a subquery leaves the slots behind the subquery as it has left them. -/
theorem reads_in {sub : List YyToken} {q : TreeNode} {w x y : SemValue} {more : List SemValue}
    (lhs : TabCol) (hsub : yyparser.Reads [.nonterminal .dql] sub (t₃ :: ts) (w :: x :: y :: more))
    (hw : w.svNode = some q) :
    ∃ c i e r, yyparser.Reads [.nonterminal .condition] (inTokens lhs sub)
      (t₀ :: t₁ :: t₂ :: t₃ :: ts) (c :: i :: e :: w :: r :: y :: more) ∧
      c.svCond = ⟨lhs, true, .eq, .subquery q⟩ ∧ ∀ k, Blank k c := by
  obtain ⟨c, u₁, u₂, hcol, hc, hblank⟩ := reads_col lhs t₀ t₁ t₂ t₃ ts
  have hclose : yyparser.Reads [.terminal .rparen] [tok .rparen] (x :: y :: more)
      ((tok .rparen).2 :: y :: more) := .leaf (tok .rparen) x y more
  have hbody : yyparser.Reads [.nonterminal .dql, .terminal .rparen] (sub ++ [tok .rparen])
      (t₃ :: ts) (w :: (tok .rparen).2 :: y :: more) := hsub.append hclose
  have hparens : yyparser.Reads [.terminal .lparen, .nonterminal .dql, .terminal .rparen]
      (tok .lparen :: (sub ++ [tok .rparen])) (u₂ :: t₃ :: ts)
      ((tok .lparen).2 :: w :: (tok .rparen).2 :: y :: more) :=
    Parser.Reads.append (.leaf (tok .lparen) u₂ t₃ ts) hbody
  have hruleExpr : yyparser.rules 86 =
      some ⟨.expr, [.terminal .lparen, .nonterminal .dql, .terminal .rparen]⟩ := rfl
  have hexpr : yyparser.Reads [.nonterminal .expr] (tok .lparen :: (sub ++ [tok .rparen]))
      (u₂ :: t₃ :: ts) ({ (tok .lparen).2 with svExpr := .subquery q } :: w ::
        (tok .rparen).2 :: y :: more) := by
    refine .node hruleExpr hparens ?_ rfl
    change Except.ok { (tok .lparen).2 with svExpr := Expr.subquery (w.svNode.getD .help) } = _
    rw [hw, Option.getD_some]
  have hin : yyparser.Reads [.terminal .IN, .nonterminal .expr]
      (tok .IN :: tok .lparen :: (sub ++ [tok .rparen])) (u₁ :: u₂ :: t₃ :: ts)
      ((tok .IN).2 :: { (tok .lparen).2 with svExpr := .subquery q } :: w ::
        (tok .rparen).2 :: y :: more) :=
    Parser.Reads.append (.leaf (tok .IN) u₁ u₂ (t₃ :: ts)) hexpr
  have hall : yyparser.Reads [.nonterminal .col, .terminal .IN, .nonterminal .expr]
      (inTokens lhs sub) (t₀ :: t₁ :: t₂ :: t₃ :: ts) (c :: (tok .IN).2 ::
        { (tok .lparen).2 with svExpr := .subquery q } :: w :: (tok .rparen).2 :: y :: more) :=
    hcol.append hin
  have hrule : yyparser.rules 69 =
      some ⟨.condition, [.nonterminal .col, .terminal .IN, .nonterminal .expr]⟩ := rfl
  have hkeeps : Keeps 0 c { c with svCond := ⟨c.svCol, true, .eq, .subquery q⟩ } :=
    .of_eq ⟨rfl, rfl, rfl, rfl⟩
  refine ⟨{ c with svCond := ⟨c.svCol, true, .eq, .subquery q⟩ }, _, _, _,
    .node hrule hall rfl rfl, ?_, fun k => hkeeps k (Nat.zero_le k) (hblank k)⟩
  rw [hc]

/-- A column in a selector. -/
def plainCol (col : TabCol) : AggCol := ⟨col, .noOp, false, ""⟩

/-- The clauses that a subquery leaves out are the ones that the slots behind its table hold. -/
theorem reads_stale (col : TabCol) (tabName : String) {c₁ c₂ c₃ c₄ next : SemValue}
    {rest : List SemValue} :
    ∃ w x y more, yyparser.Reads [.nonterminal .dql]
      (tok .SELECT :: (colTokens col ++ [tok .FROM, identifier tabName]))
      (t₀ :: t₁ :: t₂ :: t₃ :: c₁ :: c₂ :: c₃ :: c₄ :: next :: rest) (w :: x :: y :: more) ∧
      w.svNode = some (.selectStmt ⟨[plainCol col], [tabName], c₁.svConds, c₂.svGroupby,
        c₃.svHavings, c₄.svOrderby⟩) := by
  obtain ⟨c, u₁, u₂, hcol, hc, -⟩ := reads_col col t₁ t₂ t₃ c₁ (c₂ :: c₃ :: c₄ :: next :: rest)
  have hagg : yyparser.Reads [.nonterminal .aggCol] (colTokens col)
      (t₁ :: t₂ :: t₃ :: c₁ :: c₂ :: c₃ :: c₄ :: next :: rest)
      ({ c with svAggCol := plainCol c.svCol } :: u₁ :: u₂ :: c₁ :: c₂ :: c₃ :: c₄ :: next ::
        rest) :=
    .node (show yyparser.rules 34 = some ⟨.aggCol, [.nonterminal .col]⟩ from rfl) hcol rfl rfl
  have hselector : yyparser.Reads [.nonterminal .selector] (colTokens col)
      (t₁ :: t₂ :: t₃ :: c₁ :: c₂ :: c₃ :: c₄ :: next :: rest)
      ({ c with svAggCol := plainCol c.svCol } :: u₁ :: u₂ :: c₁ :: c₂ :: c₃ :: c₄ :: next ::
        rest) :=
    .node (show yyparser.rules 41 = some ⟨.selector, [.nonterminal .aggCol]⟩ from rfl) hagg rfl rfl
  have hselectors : yyparser.Reads [.nonterminal .selectors] (colTokens col)
      (t₁ :: t₂ :: t₃ :: c₁ :: c₂ :: c₃ :: c₄ :: next :: rest)
      ({ c with svAggCol := plainCol c.svCol, svAggCols := [plainCol c.svCol] } :: u₁ :: u₂ ::
        c₁ :: c₂ :: c₃ :: c₄ :: next :: rest) :=
    .node (show yyparser.rules 43 = some ⟨.selectors, [.nonterminal .selector]⟩ from rfl) hselector
      rfl rfl
  have htables : yyparser.Reads [.nonterminal .tableList] [identifier tabName]
      (u₂ :: c₁ :: c₂ :: c₃ :: c₄ :: next :: rest)
      ({ (identifier tabName).2 with svStrs := [tabName] } :: c₁ :: c₂ :: c₃ :: c₄ :: next ::
        rest) :=
    .node (show yyparser.rules 91 = some ⟨.tableList, [.nonterminal .tbName]⟩ from rfl)
      (reads_name 103 tabName rfl fun _ => rfl) rfl rfl
  have horder : yyparser.Reads [.nonterminal .optOrderClause] [] (c₄ :: next :: rest)
      (c₄ :: next :: rest) :=
    .node (show yyparser.rules 95 = some ⟨.optOrderClause, []⟩ from rfl) (.nil _) rfl rfl
  have hhaving : yyparser.Reads [.nonterminal .optHavingClause] [] (c₃ :: c₄ :: next :: rest)
      (c₃ :: c₄ :: next :: rest) :=
    .node (show yyparser.rules 50 = some ⟨.optHavingClause, []⟩ from rfl) (.nil _) rfl rfl
  have hgroupBy : yyparser.Reads [.nonterminal .optGroupByClause] []
      (c₂ :: c₃ :: c₄ :: next :: rest) (c₂ :: c₃ :: c₄ :: next :: rest) :=
    .node (show yyparser.rules 46 = some ⟨.optGroupByClause, []⟩ from rfl) (.nil _) rfl rfl
  have hwhere : yyparser.Reads [.nonterminal .optWhereClause] []
      (c₁ :: c₂ :: c₃ :: c₄ :: next :: rest) (c₁ :: c₂ :: c₃ :: c₄ :: next :: rest) :=
    .node (show yyparser.rules 70 = some ⟨.optWhereClause, []⟩ from rfl) (.nil _) rfl rfl
  have hclauses : yyparser.Reads [.nonterminal .optWhereClause, .nonterminal .optGroupByClause,
      .nonterminal .optHavingClause, .nonterminal .optOrderClause] []
      (c₁ :: c₂ :: c₃ :: c₄ :: next :: rest) (c₁ :: c₂ :: c₃ :: c₄ :: next :: rest) :=
    hwhere.append (hgroupBy.append (hhaving.append horder))
  have hfrom : yyparser.Reads [.terminal .FROM, .nonterminal .tableList,
      .nonterminal .optWhereClause, .nonterminal .optGroupByClause, .nonterminal .optHavingClause,
      .nonterminal .optOrderClause] [tok .FROM, identifier tabName]
      (u₁ :: u₂ :: c₁ :: c₂ :: c₃ :: c₄ :: next :: rest)
      ((tok .FROM).2 :: { (identifier tabName).2 with svStrs := [tabName] } :: c₁ :: c₂ :: c₃ ::
        c₄ :: next :: rest) :=
    Parser.Reads.append (.leaf (tok .FROM) u₁ u₂ (c₁ :: c₂ :: c₃ :: c₄ :: next :: rest))
      (htables.append hclauses)
  have hselect : yyparser.Reads [.terminal .SELECT, .nonterminal .selectors, .terminal .FROM,
      .nonterminal .tableList, .nonterminal .optWhereClause, .nonterminal .optGroupByClause,
      .nonterminal .optHavingClause, .nonterminal .optOrderClause]
      (tok .SELECT :: (colTokens col ++ [tok .FROM, identifier tabName]))
      (t₀ :: t₁ :: t₂ :: t₃ :: c₁ :: c₂ :: c₃ :: c₄ :: next :: rest)
      ((tok .SELECT).2 :: { c with svAggCol := plainCol c.svCol, svAggCols := [plainCol c.svCol] }
        :: (tok .FROM).2 :: { (identifier tabName).2 with svStrs := [tabName] } :: c₁ :: c₂ ::
        c₃ :: c₄ :: next :: rest) :=
    Parser.Reads.append (.leaf (tok .SELECT) t₀ t₁ (t₂ :: t₃ :: c₁ :: c₂ :: c₃ :: c₄ :: next ::
      rest)) (hselectors.append hfrom)
  have hrule : yyparser.rules 33 = some ⟨.dql, [.terminal .SELECT, .nonterminal .selectors,
    .terminal .FROM, .nonterminal .tableList, .nonterminal .optWhereClause,
    .nonterminal .optGroupByClause, .nonterminal .optHavingClause,
    .nonterminal .optOrderClause]⟩ := rfl
  refine ⟨_, _, _, _, .node hrule hselect rfl rfl, ?_⟩
  change some (TreeNode.selectStmt ⟨[plainCol c.svCol], [tabName], c₁.svConds, c₂.svGroupby,
    c₃.svHavings, c₄.svOrderby⟩) = _
  rw [hc]

theorem reads_and {tokens tokens' : List YyToken} {l a t c : SemValue} {more : List SemValue}
    (hlist : yyparser.Reads [.nonterminal .whereClause] tokens slots (l :: a :: t :: ts))
    (hcond : yyparser.Reads [.nonterminal .condition] tokens' (t :: ts) (c :: more)) :
    ∃ l', yyparser.Reads [.nonterminal .whereClause] (tokens ++ tok .AND :: tokens') slots
      (l' :: (tok .AND).2 :: c :: more) ∧ l'.svConds = l.svConds ++ [c.svCond] ∧
      l'.svGroupby = l.svGroupby := by
  have hrule : yyparser.rules 73 = some ⟨.whereClause,
    [.nonterminal .whereClause, .terminal .AND, .nonterminal .condition]⟩ := rfl
  have hlast : yyparser.Reads [.terminal .AND, .nonterminal .condition] (tok .AND :: tokens')
      (a :: t :: ts) ((tok .AND).2 :: c :: more) :=
    Parser.Reads.append (.leaf (tok .AND) a t ts) hcond
  have hall : yyparser.Reads [.nonterminal .whereClause, .terminal .AND, .nonterminal .condition]
      (tokens ++ tok .AND :: tokens') slots (l :: (tok .AND).2 :: c :: more) := hlist.append hlast
  exact ⟨_, .node hrule hall rfl rfl, rfl, rfl⟩

/-- A statement with two more conditions, each with a subquery. -/
def SelectStmt.addIns (stmt : SelectStmt TreeNode) (lhs : TabCol) (q : SelectStmt TreeNode)
    (lhs' : TabCol) (q' : SelectStmt TreeNode) : SelectStmt TreeNode :=
  { stmt with conds := stmt.conds ++ [⟨lhs, true, .eq, .subquery (.selectStmt q)⟩,
    ⟨lhs', true, .eq, .subquery (.selectStmt q')⟩] }

/-- `SELECT col FROM tabName`. -/
def bareSelect (col : TabCol) (tabName : String) : SelectStmt TreeNode :=
  ⟨[plainCol col], [tabName], [], [], [], none⟩

theorem selectTokens_bareSelect (sub : TreeNode → List YyToken) (col : TabCol) (tabName : String) :
    selectTokens sub (bareSelect col tabName) =
      tok .SELECT :: (colTokens col ++ [tok .FROM, identifier tabName]) := by
  simp [selectTokens, bareSelect, plainCol, sepBy, selectorTokens, aggColTokens, whereTokens,
    groupByTokens, havingTokens, orderTokens]

theorem whereTokens_addIns (n : Nat) {stmt : SelectStmt TreeNode} (hpre : stmt.conds ≠ [])
    (lhs lhs' col : TabCol) (q : SelectStmt TreeNode) (tabName : String) :
    whereTokens (subqueryTokens (n + 1)) (stmt.addIns lhs q lhs' (bareSelect col tabName)).conds =
      tok .WHERE :: (sepBy .AND (conditionTokens (subqueryTokens (n + 1))) stmt.conds ++
        tok .AND :: inTokens lhs (selectTokens (subqueryTokens n) q) ++
        tok .AND :: inTokens lhs' (tok .SELECT ::
          (colTokens col ++ [tok .FROM, identifier tabName]))) := by
  have hcond : ∀ (lhs : TabCol) (q : SelectStmt TreeNode),
      conditionTokens (subqueryTokens (n + 1)) ⟨lhs, true, .eq, .subquery (.selectStmt q)⟩ =
        inTokens lhs (selectTokens (subqueryTokens n) q) := fun _ _ => rfl
  rw [← selectTokens_bareSelect (subqueryTokens n)]
  obtain ⟨cond, conds, hconds⟩ := List.exists_cons_of_ne_nil hpre
  simp [SelectStmt.addIns, hconds, whereTokens, sepBy, hcond]

theorem readsWhere_stale (n : Nat) {stmt q : SelectStmt TreeNode} (hpre : stmt.conds ≠ [])
    (hwritten : ∀ cond ∈ stmt.conds, WrittenCond (WrittenSubquery (n + 1)) cond)
    (hplain : ∀ cond ∈ stmt.conds, cond.rhs.isSubquery = false)
    (hq : WrittenSelect (WrittenSubquery n) q) (lhs lhs' col : TabCol) (tabName : String) :
    ReadsWhere (whereTokens (subqueryTokens (n + 1))
      (stmt.addIns lhs q lhs' (bareSelect col tabName)).conds) (20 + 10 * n)
      (stmt.addIns lhs q lhs' { q with aggCols := [plainCol col], tabs := [tabName] }).conds := by
  intro s slots hneed hblanks
  have hnone : stmt.conds.countP (fun cond => cond.rhs.isSubquery) = 0 := by
    rw [List.countP_eq_zero]
    intro cond hin
    rw [hplain cond hin]
    exact Bool.false_ne_true
  have hany : (stmt.conds.any fun cond => cond.rhs.isSubquery) = false := by
    rw [List.any_eq_false]
    intro cond hin
    rw [hplain cond hin]
    exact Bool.false_ne_true
  have hlist := parses_whereClause (parses_subquery (n + 1)) (by omega) hpre
    ⟨hwritten, by rw [hnone]; exact Nat.zero_le 1⟩
  rw [hany] at hlist
  obtain ⟨s₁, slots₁, rfl⟩ := List.exists_cons_of_length_pos (l := slots) (by omega)
  rw [List.length_cons] at hneed
  have hblanks₁ : Blanks (s₁ :: slots₁) := fun w hw => hblanks w (List.mem_cons_of_mem s hw)
  obtain ⟨l, values, hreads, hl, hkeeps, hleaves⟩ := hlist s₁ slots₁ (by omega) fun _ => hblanks₁
  have hlength := hleaves.length
  rw [List.length_cons, List.length_cons] at hlength
  have hvalues : Blanks values := fun w hw =>
    hleaves.blanks hblanks₁ w (List.mem_cons_of_mem s₁ hw)
  -- the first condition with a subquery begins two slots behind the list
  obtain ⟨a, values, rfl⟩ := List.exists_cons_of_length_pos (l := values) (by omega)
  rw [List.length_cons] at hlength
  obtain ⟨t₀, values, rfl⟩ := List.exists_cons_of_length_pos (l := values) (by omega)
  rw [List.length_cons] at hlength
  obtain ⟨t₁, values, rfl⟩ := List.exists_cons_of_length_pos (l := values) (by omega)
  rw [List.length_cons] at hlength
  obtain ⟨t₂, values, rfl⟩ := List.exists_cons_of_length_pos (l := values) (by omega)
  rw [List.length_cons] at hlength
  obtain ⟨t₃, values, rfl⟩ := List.exists_cons_of_length_pos (l := values) (by omega)
  rw [List.length_cons] at hlength
  have hsub : Blanks (t₃ :: values) := by
    intro w hw
    refine hvalues w ?_
    simp only [List.mem_cons] at hw ⊢
    tauto
  obtain ⟨selectors, tables, c₁, c₂, c₃, c₄, rest, hselect⟩ := exists_readsSelect q hq.aggCols
    hq.selectors hq.tabs hq.havings (readsWhere_of_written (parses_subquery n) (by omega) hq.conds)
    (by omega) (by omega) hsub
  obtain ⟨next, rest, rfl⟩ := List.exists_cons_of_length_pos (l := rest) (by
    have hrest := hselect.length
    omega)
  obtain ⟨c, i, e, r, hfirst, hc, hblank⟩ := reads_in lhs hselect.reads rfl
  obtain ⟨l₁, hreads₁, hl₁, hgroupBy₁⟩ := reads_and hreads hfirst
  -- the second one begins in the same slot, and its clauses are those of the first subquery
  obtain ⟨w, x, y, more, hstale, hw⟩ := reads_stale col tabName
  obtain ⟨c', i', e', r', hsecond, hc', hblank'⟩ := reads_in lhs' hstale hw
  obtain ⟨l₂, hreads₂, hl₂, hgroupBy₂⟩ := reads_and hreads₁ hsecond
  have hrule : yyparser.rules 71 =
    some ⟨.optWhereClause, [.terminal .WHERE, .nonterminal .whereClause]⟩ := rfl
  have hboth : yyparser.Reads [.terminal .WHERE, .nonterminal .whereClause] _ (s :: s₁ :: slots₁)
      ((tok .WHERE).2 :: l₂ :: (tok .AND).2 :: c' :: i' :: e' :: w :: r' :: y :: more) :=
    Parser.Reads.append (.leaf (tok .WHERE) s s₁ slots₁) hreads₂
  have hwhere : yyparser.Reads [.nonterminal .optWhereClause] _ (s :: s₁ :: slots₁)
      ({ (tok .WHERE).2 with svConds := l₂.svConds } :: l₂ :: (tok .AND).2 :: c' :: i' :: e' :: w ::
        r' :: y :: more) := .node hrule hboth rfl rfl
  rw [whereTokens_addIns n hpre]
  refine ⟨_, _, hwhere, ?_, ?_, ?_⟩
  · change l₂.svConds = _
    rw [hl₂, hl₁, hl, hc, hc', List.append_assoc, hselect.conds, hselect.groupBys, hselect.havings,
      hselect.orderBys]
    rfl
  · have hsame := reads_length hwhere
    simp only [List.length_cons] at hsame ⊢
    omega
  · have hgroupBy : Blank 1 l₂ := (hgroupBy₂.trans hgroupBy₁).trans
      (hkeeps 1 le_rfl (hblanks₁ s₁ List.mem_cons_self 1))
    exact ready_cons hgroupBy (ready_cons (blank_tok .AND 2) (ready_cons (hblank' 3)
      (ready_of_ge le_rfl)))

theorem ends_stale {n : Nat} (hn : n ≤ 17) {stmt q : SelectStmt TreeNode}
    (hstmt : WrittenSelect (WrittenSubquery (n + 1)) stmt) (hpre : stmt.conds ≠ [])
    (hplain : ∀ cond ∈ stmt.conds, cond.rhs.isSubquery = false)
    (hq : WrittenSelect (WrittenSubquery n) q) (lhs lhs' col : TabCol) (tabName : String)
    (rest : Stream' YyToken) :
    ∃ v, v.svNode = some (.selectStmt
        (stmt.addIns lhs q lhs' { q with aggCols := [plainCol col], tabs := [tabName] })) ∧
      yyparser.Ends ⟨[], yyslots, (TreeNode.selectStmt
        (stmt.addIns lhs q lhs' (bareSelect col tabName))).tokens (n + 1) ++ₛ rest⟩ (.ok v) := by
  have hwhere := readsWhere_stale n hpre hstmt.conds.written hplain hq lhs lhs' col tabName
  have htree : ParsesTree (.nonterminal .dql) (selectTokens (subqueryTokens (n + 1))
      (stmt.addIns lhs q lhs' (bareSelect col tabName))) (24 + 10 * n) (.selectStmt
        (stmt.addIns lhs q lhs' { q with aggCols := [plainCol col], tabs := [tabName] })) := by
    intro slots hneed hblanks
    cases slots with
    | nil => cases hneed
    | cons s slots =>
      rw [List.length_cons] at hneed
      obtain ⟨selectors, tables, c₁, c₂, c₃, c₄, last, hselect⟩ := exists_readsSelect
        (stmt.addIns lhs q lhs' { q with aggCols := [plainCol col], tabs := [tabName] })
        hstmt.aggCols hstmt.selectors hstmt.tabs hstmt.havings hwhere (by omega) (by omega) hblanks
      have hlength := hselect.length
      refine ⟨_, _, hselect.reads, ?_, rfl⟩
      simp only [List.length_cons]
      omega
  exact ends_stmt (htree.of_one 12 rfl (fun _ => rfl) (by omega))
    (by rw [yyinitdepth]; omega) rest

end Ast

section Stale

open Ast

variable {σ : Type} {yylex : σ → YyToken × σ} {lexer : σ}

/-- The second of two subqueries in a WHERE clause gets the clauses of the first one where it has
none. -/
theorem yyparse_stale {n : Nat} {stmt q : Ast.SelectStmt TreeNode} {lhs lhs' col : TabCol}
    {tabName : String} {rest : Stream' YyToken} (hn : n ≤ 17)
    (hstmt : WrittenSelect (WrittenSubquery (n + 1)) stmt) (hpre : stmt.conds ≠ [])
    (hplain : ∀ cond ∈ stmt.conds, cond.rhs.isSubquery = false)
    (hq : WrittenSelect (WrittenSubquery n) q)
    (hscan : Stream'.corec' yylex lexer = (TreeNode.selectStmt
      (stmt.addIns lhs q lhs' (bareSelect col tabName))).tokens (n + 1) ++ₛ rest) :
    ∃ v, v.svNode = some (.selectStmt
        (stmt.addIns lhs q lhs' { q with aggCols := [plainCol col], tabs := [tabName] })) ∧
      ∀ res, (∃ fuel lexer', yyparse yylex fuel lexer = some (res, lexer')) ↔ res = .ok v := by
  obtain ⟨v, hv, hends⟩ := ends_stale hn hstmt hpre hplain hq lhs lhs' col tabName rest
  rw [← hscan] at hends
  exact ⟨v, hv, fun res => yyparse_iff hends⟩

/-- `SELECT col FROM tabName WHERE col > val`. -/
def greaterSelect (col : TabCol) (tabName : String) (val : Int) : Ast.SelectStmt TreeNode :=
  { bareSelect col tabName with conds := [⟨col, false, .gt, .value (.intLit val)⟩] }

theorem written_greaterSelect (Sub : TreeNode → Prop) (col : TabCol) (tabName : String)
    (val : Int) : WrittenSelect Sub (greaterSelect col tabName val) := by
  have hcol : WrittenAggCol (plainCol col) :=
    ⟨fun h => by simp [plainCol] at h, fun h => by simp [plainCol] at h, fun _ => rfl⟩
  refine ⟨List.cons_ne_nil _ _, ?_, List.cons_ne_nil _ _, ⟨?_, Nat.zero_le 1⟩, ?_⟩
  · intro selector hin
    rw [List.mem_singleton.mp hin]
    exact hcol
  · intro cond hin
    rw [List.mem_singleton.mp hin]
    exact ⟨trivial, Bool.noConfusion, Bool.noConfusion⟩
  · intro having hin
    cases hin

/-- In `SELECT a FROM t WHERE a > 1 AND b IN (SELECT c FROM u WHERE c > 2) AND d IN (SELECT e FROM
v)` the last subquery becomes `SELECT e FROM v WHERE c > 2`. -/
theorem yyparse_stale_greater :
    ∃ v, v.svNode = some (.selectStmt ((greaterSelect ⟨"", "a"⟩ "t" 1).addIns ⟨"", "b"⟩
        (greaterSelect ⟨"", "c"⟩ "u" 2) ⟨"", "d"⟩ { greaterSelect ⟨"", "c"⟩ "u" 2 with
          aggCols := [plainCol ⟨"", "e"⟩], tabs := ["v"] })) ∧
      ∀ res, (∃ fuel lexer', yyparse listLexer fuel ((TreeNode.selectStmt
        ((greaterSelect ⟨"", "a"⟩ "t" 1).addIns ⟨"", "b"⟩ (greaterSelect ⟨"", "c"⟩ "u" 2)
          ⟨"", "d"⟩ (bareSelect ⟨"", "e"⟩ "v"))).tokens 1) = some (res, lexer')) ↔ res = .ok v := by
  refine yyparse_stale (n := 0) (Nat.zero_le 17) (written_greaterSelect _ _ _ _)
    (List.cons_ne_nil _ _) ?_ (written_greaterSelect _ _ _ _) (corec'_listLexer _)
  intro cond hin
  rw [List.mem_singleton.mp hin]
  rfl

end Stale

end Grmdb
