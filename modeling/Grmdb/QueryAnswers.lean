import Grmdb.Environments
import Grmdb.JoinAgreement
import Grmdb.JoinRuns
import Grmdb.WhereConds

namespace Grmdb

open ByteLayout Environments

section Meaning

variable (cat : Catalog) (env : String → Bytes)

def columnOf (target : TabCol) : Option ColMeta :=
  (cat target.tabName).bind fun tab => tab.getCol target.colName

/-- The value of a column where each table gives the record of `env`. -/
def valueIn (target : TabCol) : Option Value :=
  (columnOf cat target).bind fun col => col.read (env target.tabName)

/-- The bytes of a column. -/
def fieldIn (target : TabCol) : Bytes :=
  ((columnOf cat target).map fun col =>
    ((env target.tabName).drop col.offset).take col.len).getD []

def Condition.evalIn (cond : Condition) : Option Bool :=
  (valueIn cat env cond.lhsCol).bind fun left =>
    (if cond.isRhsVal then cond.rhsVal else valueIn cat env cond.rhsCol).bind fun right =>
      left.comp right cond.op

def Condition.holdsIn (cond : Condition) : Bool := cond.evalIn cat env == some true

end Meaning

/-- The records of a table. -/
def Database.records (db : Database) (t : String) : List Bytes :=
  ((db.files t).map fun file => file.rows.map Prod.snd).getD []

/-- The answers to a query: the records of its tables, one of each, that satisfy its conditions
together. -/
def Database.answers (db : Database) (tables : List String) (conds : List Condition) :
    List (String → Bytes) :=
  (environments db.records tables).filter fun env => conds.all fun cond => cond.holdsIn db.cat env

/-- The columns of the tables lie in their records. -/
structure Database.TablesFit (db : Database) (tables : List String) : Prop where
  cols : ∀ t ∈ tables, ∀ tab, db.cat t = some tab → ∀ col ∈ tab.cols,
    col.tabName = t ∧ col.offset + col.len ≤ tab.tupleLen
  rows : ∀ t ∈ tables, ∀ tab, db.cat t = some tab → ∀ row ∈ db.records t,
    row.length = tab.tupleLen

/-- Whatever the memory for its keys holds, the index scan ends, and it has read the records of the
table that meet its conditions, each once. -/
structure IndexTree.Fits {index : IndexMeta} (cat : Catalog) (tree : IndexTree index)
    (file : TableFile) (conds : List Condition) : Prop where
  reads : ∀ bufs rid, ∃ rounds rids,
    IndexScanExecutor.enumerate tree.layout tree.file conds bufs rid rounds = some rids ∧
      (rids.map file.getRecord).Perm (((file.rows.map Prod.snd).filter fun row =>
        conds.all fun cond => cond.holdsIn cat fun _ => row).map some)

/-- The index scans of the plan fit. -/
def Database.IndexesFit (db : Database) (plan : Plan) : Prop :=
  ∀ s ∈ plan.scans, s.indexScan = true → ∀ tab index tree file, db.cat s.tabName = some tab →
    tab.getIndexMeta s.indexColNames = some index → db.trees s.tabName index = some tree →
    db.files s.tabName = some file → tree.Fits db.cat file s.conds

section Rows

variable {cat : Catalog} {env env' : String → Bytes} {tables order order' : List String}
  {cond : Condition} {target : TabCol}

theorem valueIn_congr (h : env target.tabName = env' target.tabName) :
    valueIn cat env target = valueIn cat env' target := by
  rw [valueIn, valueIn, h]

theorem Condition.holdsIn_congr (h : ∀ t ∈ cond.tables, env t = env' t) :
    cond.holdsIn cat env = cond.holdsIn cat env' := by
  have hlhs : valueIn cat env cond.lhsCol = valueIn cat env' cond.lhsCol :=
    valueIn_congr (h _ List.mem_cons_self)
  unfold holdsIn evalIn
  rw [hlhs]
  cases hval : cond.isRhsVal with
  | true => rfl
  | false =>
    have hrhs : valueIn cat env cond.rhsCol = valueIn cat env' cond.rhsCol := by
      apply valueIn_congr
      apply h
      simp [tables, hval]
    rw [hrhs]

/-- The record of a plan that reads the tables of `order`. -/
def flatRow (order : List String) (env : String → Bytes) : Bytes := order.flatMap env

/-- Its columns. -/
def rowCols (cat : Catalog) : List String → List ColMeta
  | [] => []
  | t :: order => ((cat t).map TabMeta.cols).getD [] ++ (rowCols cat order).map fun col =>
    { col with offset := col.offset + ((cat t).map TabMeta.tupleLen).getD 0 }

def rowLen (cat : Catalog) (order : List String) : Nat :=
  (order.map fun t => ((cat t).map TabMeta.tupleLen).getD 0).sum

theorem rowCols_append (order order' : List String) :
    rowCols cat (order ++ order') = rowCols cat order ++ (rowCols cat order').map fun col =>
      { col with offset := col.offset + rowLen cat order } := by
  induction order with
  | nil => simp [rowCols, rowLen]
  | cons t order ih =>
    rw [List.cons_append, rowCols, ih, rowCols, List.map_append, List.map_map, List.append_assoc]
    congr 2
    refine List.map_congr_left fun col _ => ?_
    simp only [Function.comp_apply, rowLen, List.map_cons, List.sum_cons]
    congr 1
    omega

theorem rowLen_append (order order' : List String) :
    rowLen cat (order ++ order') = rowLen cat order + rowLen cat order' := by
  rw [rowLen, rowLen, rowLen, List.map_append, List.sum_append]

/-- The record of each table is as long as the catalog says. -/
def FitsIn (cat : Catalog) (order : List String) (env : String → Bytes) : Prop :=
  ∀ t ∈ order, ∀ tab, cat t = some tab → (env t).length = tab.tupleLen ∧
    ∀ col ∈ tab.cols, col.tabName = t ∧ col.offset + col.len ≤ tab.tupleLen

theorem ColMeta.read_append {col : ColMeta} {l r : Bytes} (h : col.offset + col.len ≤ l.length) :
    col.read (l ++ r) = col.read l := by
  have hraw : readAt l col.offset col.len = some ((l.drop col.offset).take col.len) := if_pos h
  rw [ColMeta.read, ColMeta.read, hraw, readAt_append_left hraw]

theorem FitsIn.tail {t : String} (h : FitsIn cat (t :: order) env) : FitsIn cat order env :=
  fun u hu => h u (List.mem_cons_of_mem t hu)

theorem mem_rowCols (hfits : FitsIn cat order env) {col : ColMeta} (h : col ∈ rowCols cat order) :
    col.tabName ∈ order := by
  induction order generalizing col with
  | nil => cases h
  | cons t order ih =>
    rcases List.mem_append.mp h with hhere | hrest
    · cases htab : cat t with
      | none => simp [htab] at hhere
      | some tab =>
        rw [htab] at hhere
        rw [((hfits t List.mem_cons_self tab htab).2 col hhere).1]
        exact List.mem_cons_self
    · obtain ⟨col', hcol', rfl⟩ := List.mem_map.mp hrest
      have hin : col'.tabName ∈ order := ih hfits.tail hcol'
      exact List.mem_cons_of_mem t hin

theorem findCol_tab {tab : TabMeta} (h : ∀ col ∈ tab.cols, col.tabName = target.tabName) :
    findCol tab.cols target = tab.getCol target.colName := by
  refine List.find?_congr fun col hcol => ?_
  rw [h col hcol, beq_self_eq_true, Bool.true_and]

/-- A column of a table stands in the record of the plan where the record of its table does. -/
theorem findCol_rowCols (hcat : ∀ t ∈ order, (cat t).isSome) (hfits : FitsIn cat order env)
    (htarget : target.tabName ∈ order) :
    (columnOf cat target = none ∧ findCol (rowCols cat order) target = none) ∨
      ∃ col col', columnOf cat target = some col ∧
        findCol (rowCols cat order) target = some col' ∧
        col'.read (flatRow order env) = col.read (env target.tabName) ∧
        ((flatRow order env).drop col'.offset).take col'.len =
          ((env target.tabName).drop col.offset).take col.len := by
  induction order with
  | nil => cases htarget
  | cons t order ih =>
    obtain ⟨tab, htab⟩ := Option.isSome_iff_exists.mp (hcat t List.mem_cons_self)
    obtain ⟨hlen, hcols⟩ := hfits t List.mem_cons_self tab htab
    have hrow : flatRow (t :: order) env = env t ++ flatRow order env := List.flatMap_cons
    rw [rowCols, htab, Option.map_some, Option.getD_some, Option.map_some, Option.getD_some,
      findCol_append, findCol_shift, hrow]
    by_cases heq : target.tabName = t
    · have hfind : findCol tab.cols target = columnOf cat target := by
        rw [findCol_tab fun col hcol => ((hcols col hcol).1.trans heq.symm), columnOf, heq, htab]
        rfl
      rw [hfind]
      cases hcol : columnOf cat target with
      | some col =>
        have hmem := (hcols col (List.mem_of_find?_eq_some (hfind.trans hcol))).2
        refine Or.inr ⟨col, col, rfl, rfl, ?_, ?_⟩
        · rw [heq, ColMeta.read_append (hlen ▸ hmem)]
        · rw [heq, List.drop_append_of_le_length (by omega),
            List.take_append_of_le_length (by rw [List.length_drop]; omega)]
      | none =>
        refine Or.inl ⟨rfl, ?_⟩
        rw [Option.none_or, Option.map_eq_none_iff]
        by_cases hin : target.tabName ∈ order
        · rcases ih (fun u hu => hcat u (List.mem_cons_of_mem t hu)) hfits.tail hin with
            ⟨-, hnone⟩ | ⟨col, -, hsome, -⟩
          · exact hnone
          · cases hcol.symm.trans hsome
        · refine List.find?_eq_none.mpr fun col hmem hfound => hin ?_
          simp only [Bool.and_eq_true, beq_iff_eq] at hfound
          rw [← hfound.1]
          exact mem_rowCols hfits.tail hmem
    · have hnone : findCol tab.cols target = none := by
        refine List.find?_eq_none.mpr fun col hmem hfound => heq ?_
        simp only [Bool.and_eq_true, beq_iff_eq] at hfound
        rw [← hfound.1, (hcols col hmem).1]
      rw [hnone, Option.none_or]
      have hin := (List.mem_cons.mp htarget).resolve_left heq
      rcases ih (fun u hu => hcat u (List.mem_cons_of_mem t hu)) hfits.tail hin with
        ⟨hcol, hfind⟩ | ⟨col, col', hcol, hfind, hread, hbytes⟩
      · exact Or.inl ⟨hcol, by rw [hfind, Option.map_none]⟩
      · refine Or.inr ⟨col, _, hcol, by rw [hfind, Option.map_some], ?_, ?_⟩
        · rw [← hlen, ColMeta.read_append_right, hread]
        · have hdrop : (env t ++ flatRow order env).drop (col'.offset + (env t).length) =
              (flatRow order env).drop col'.offset := by
            rw [Nat.add_comm, List.drop_length_add_append]
          rw [← hbytes, ← hlen, ← hdrop]

section Flat

variable (hcat : ∀ t ∈ order, (cat t).isSome) (hfits : FitsIn cat order env)

include hcat hfits

theorem getValue_rowCols (htarget : target.tabName ∈ order) :
    getValue (rowCols cat order) target (flatRow order env) = valueIn cat env target := by
  rcases findCol_rowCols hcat hfits htarget with
    ⟨hcol, hfind⟩ | ⟨col, col', hcol, hfind, hread, -⟩
  · rw [getValue, hfind, valueIn, hcol]
    rfl
  · rw [getValue, hfind, valueIn, hcol, Option.bind_some, Option.bind_some, hread]

theorem evalCond_rowCols (htables : ∀ t ∈ cond.tables, t ∈ order) :
    evalCond (rowCols cat order) cond (flatRow order env) = cond.evalIn cat env := by
  have hlhs := getValue_rowCols hcat hfits (htables _ List.mem_cons_self)
  unfold evalCond Condition.evalIn
  rw [hlhs]
  cases hval : cond.isRhsVal with
  | true => rfl
  | false =>
    have hrhs : cond.rhsCol.tabName ∈ order := htables _ (by simp [Condition.tables, hval])
    rw [getValue_rowCols hcat hfits hrhs]

theorem evalConds_rowCols {conds : List Condition}
    (htables : ∀ cond ∈ conds, ∀ t ∈ cond.tables, t ∈ order) :
    (evalConds (rowCols cat order) conds (flatRow order env) == some true) =
      conds.all fun cond => cond.holdsIn cat env := by
  induction conds with
  | nil => rfl
  | cons cond conds ih =>
    have hrest := ih fun c hc => htables c (List.mem_cons_of_mem cond hc)
    rw [List.all_cons, ← hrest, Condition.holdsIn,
      ← evalCond_rowCols hcat hfits (htables cond List.mem_cons_self), evalConds]
    cases evalCond (rowCols cat order) cond (flatRow order env) with
    | none => rfl
    | some ok =>
      cases ok with
      | true => simp
      | false => rfl

end Flat

end Rows

section Answers

variable {db : Database} {tables tables' order order' : List String}
  {conds conds' more : List Condition} {env env' : String → Bytes}

theorem Database.answers_conds (h : ∀ env, (conds.all fun cond => cond.holdsIn db.cat env) =
    conds'.all fun cond => cond.holdsIn db.cat env) :
    db.answers tables conds = db.answers tables conds' := by
  rw [answers, answers, funext h]

theorem Database.answers_conds_perm (h : conds.Perm conds') :
    db.answers tables conds = db.answers tables conds' := by
  refine answers_conds fun env => ?_
  rw [Bool.eq_iff_iff, List.all_eq_true, List.all_eq_true]
  exact forall_congr' fun cond => by rw [h.mem_iff]

theorem Database.answers_perm (h : tables.Perm tables') (hnodup : tables.Nodup) :
    (db.answers tables conds).Perm (db.answers tables' conds) :=
  (environments_perm h hnodup).filter _

theorem Database.TablesFit.fitsIn (h : db.TablesFit tables) (hsub : ∀ t ∈ order, t ∈ tables)
    (henv : env ∈ environments db.records order) : FitsIn db.cat order env := by
  intro t ht tab htab
  exact ⟨h.rows t (hsub t ht) tab htab _ ((mem_environments henv).1 t ht),
    h.cols t (hsub t ht) tab htab⟩

theorem FitsIn.merge {cat : Catalog} (h : FitsIn cat order env) (h' : FitsIn cat order' env') :
    FitsIn cat (order ++ order') (merge order env env') := by
  intro t ht tab htab
  by_cases hin : t ∈ order
  · rw [Environments.merge, if_pos hin]
    exact h t hin tab htab
  · rw [Environments.merge, if_neg hin]
    exact h' t ((List.mem_append.mp ht).resolve_left hin) tab htab

theorem flatRow_merge (hdisjoint : order.Disjoint order') :
    flatRow (order ++ order') (merge order env env') =
      flatRow order env ++ flatRow order' env' := by
  rw [flatRow, List.flatMap_append]
  congr 1
  · refine List.flatMap_congr fun t ht => ?_
    rw [merge, if_pos ht]
  · refine List.flatMap_congr fun t ht => ?_
    rw [merge, if_neg fun hin => hdisjoint hin ht]

theorem all_holdsIn_congr {cat : Catalog} (hin : ∀ cond ∈ conds, ∀ t ∈ cond.tables, t ∈ order)
    (henv : ∀ t ∈ order, env t = env' t) :
    (conds.all fun cond => cond.holdsIn cat env) = conds.all fun cond => cond.holdsIn cat env' := by
  rw [Bool.eq_iff_iff, List.all_eq_true, List.all_eq_true]
  refine forall₂_congr fun cond hcond => ?_
  rw [Condition.holdsIn_congr fun t ht => henv t (hin cond hcond t ht)]

/-- The answers over two groups of tables come from the answers over each of them. -/
theorem Database.answers_append (hdisjoint : order.Disjoint order')
    (hin : ∀ cond ∈ conds, ∀ t ∈ cond.tables, t ∈ order)
    (hin' : ∀ cond ∈ conds', ∀ t ∈ cond.tables, t ∈ order') :
    db.answers (order ++ order') (conds ++ conds' ++ more) =
      ((db.answers order conds ×ˢ db.answers order' conds').filter fun pair =>
        more.all fun cond => cond.holdsIn db.cat (merge order pair.1 pair.2)).map fun pair =>
          merge order pair.1 pair.2 := by
  rw [answers, answers, answers, environments_append, filter_product, List.filter_filter,
    List.filter_map]
  congr 1
  refine List.filter_congr fun pair _ => ?_
  have hleft : (conds.all fun cond => cond.holdsIn db.cat (merge order pair.1 pair.2)) =
      conds.all fun cond => cond.holdsIn db.cat pair.1 := by
    refine all_holdsIn_congr hin fun t ht => ?_
    rw [merge, if_pos ht]
  have hright : (conds'.all fun cond => cond.holdsIn db.cat (merge order pair.1 pair.2)) =
      conds'.all fun cond => cond.holdsIn db.cat pair.2 := by
    refine all_holdsIn_congr hin' fun t ht => ?_
    rw [merge, if_neg fun hboth => hdisjoint hboth ht]
  simp only [Function.comp_apply, List.all_append, hleft, hright]
  exact Bool.and_comm _ _

end Answers

namespace Plan

/-- The tables in the order in which their records stand in a record of the plan: a join
exchanges its inputs. -/
def order : Plan → List String
  | .scan s => [s.tabName]
  | .scanSub s _ _ => [s.tabName]
  | .join _ left right _ => right.order ++ left.order
  | .sort subplan _ _ => subplan.order
  | _ => []

/-- Scans under nested-loop joins. -/
def NestedLoops : Plan → Prop
  | .null => True
  | .scan _ => True
  | .join sortMerge left right _ => sortMerge = false ∧ left.NestedLoops ∧ right.NestedLoops
  | _ => False

def allConds (plan : Plan) : List Condition :=
  plan.scans.flatMap ScanPlan.conds ++ plan.joinConds

theorem NestedLoops.order_perm {plan : Plan} (h : plan.NestedLoops) :
    plan.order.Perm plan.scanTabs := by
  induction plan with
  | null => exact List.Perm.refl _
  | scan s => exact List.Perm.refl _
  | join sm left right conds ihLeft ihRight =>
    rw [order, scanTabs, scans, List.map_append]
    exact ((ihRight h.2.2).append (ihLeft h.2.1)).trans List.perm_append_comm
  | scanSub | values | sort | aggr | projection => exact h.elim

theorem allConds_join (sm : Bool) (left right : Plan) (conds : List Condition) :
    (Plan.join sm left right conds).allConds.Perm (right.allConds ++ left.allConds ++ conds) := by
  rw [← Multiset.coe_eq_coe]
  simp only [allConds, scans, joinConds, List.flatMap_append, ← Multiset.coe_add]
  abel

end Plan

section Executors

variable {db : Database} {fuel : Nat} {tables : List String} {plan : Plan} {exec : Executor}

theorem findLast_isSome {eval : Bytes → Option Bool} {rows : List (Rid × Bytes)}
    {last : Option Rid} (h : (findLast eval rows last).isSome) :
    ∀ row ∈ rows, (eval row.2).isSome := by
  induction rows generalizing last with
  | nil => exact fun row hrow => absurd hrow List.not_mem_nil
  | cons row rows ih =>
    obtain ⟨rid, tuple⟩ := row
    obtain ⟨result, h⟩ := Option.isSome_iff_exists.mp h
    obtain ⟨ok, hok, h⟩ := Option.bind_eq_some_iff.mp h
    intro row hrow
    rcases List.mem_cons.mp hrow with rfl | hrest
    · exact Option.isSome_iff_exists.mpr ⟨ok, hok⟩
    · exact ih (Option.isSome_iff_exists.mpr ⟨result, h⟩) row hrest

/-- A scan that may fail fails or delivers the records that it selects. -/
theorem scanCursor_honest {eval : Bytes → Option Bool} {file : TableFile} (s₀ : ScanState) :
    ∃ At Taken Again, (scanCursor eval file).Honest s₀
      ((file.rows.map Prod.snd).filter fun row => eval row == some true) At Taken Again := by
  have hrows : (file.rows.map Prod.snd).filter (fun row => eval row == some true) =
      (file.rows.filter fun row => eval row.2 == some true).map Prod.snd := by
    rw [List.filter_map]
    rfl
  rw [hrows]
  by_cases hall : ∀ row ∈ file.rows, (eval row.2).isSome
  · have hp : ∀ row ∈ file.rows, eval row.2 = some (eval row.2 == some true) := by
      intro row hrow
      obtain ⟨b, hb⟩ := Option.isSome_iff_exists.mp (hall row hrow)
      rw [hb]
      cases b with
      | true => rfl
      | false => rfl
    exact ⟨_, _, _, (scanCursor_walks (p := fun row => eval row.2 == some true) hp s₀).honest⟩
  · have hstart : (scanCursor eval file).start s₀ = none := by
      have hlast : findLast eval file.rows s₀.lastRid = none := by
        by_contra hsome
        exact hall (findLast_isSome (Option.isSome_iff_ne_none.mpr hsome))
      simp [scanCursor, hlast]
    exact ⟨_, _, _, Cursor.honest_of_start hstart _⟩

/-- The places between which an index scan reads do not depend on the memory for its keys. -/
theorem IndexScanExecutor.gap_places {index : IndexMeta} {L : IxLayout (IxKey index.ixCols)}
    {s : IxFile (IxKey index.ixCols)} {conds : List Condition} {bufs bufs' : GapBuffers index.ixCols}
    {range range' : GapRange index.ixCols} (h : gap L s conds bufs = some range)
    (h' : gap L s conds bufs' = some range') : range.1 = range'.1 := by
  have hkeys : ∀ {k k' : IxKey index.ixCols} {r r' : GapRange index.ixCols},
      getGapLockKey L s k k' r = some r' → r'.1 = r.1 := by
    intro k k' r r' hr
    obtain ⟨_, -, hr⟩ := Option.bind_eq_some_iff.mp hr
    obtain ⟨_, -, hr⟩ := Option.bind_eq_some_iff.mp hr
    obtain ⟨_, -, rfl⟩ := Option.map_eq_some_iff.mp hr
    rfl
  have hbound : ∀ k₁ k₂ k₃ k₄, (getBound L s conds k₁ k₂).map Prod.fst =
      (getBound L s conds k₃ k₄).map Prod.fst := by
    intro k₁ k₂ k₃ k₄
    unfold getBound getBoundWith
    split
    · simp [Function.comp_def]
    · dsimp only
      split
      · simp [Option.map_bind, Function.comp_def]
      · rfl
  obtain ⟨r, hr, hrange⟩ := Option.bind_eq_some_iff.mp h
  obtain ⟨r', hr', hrange'⟩ := Option.bind_eq_some_iff.mp h'
  have hsame := hbound bufs.lowerKey bufs.upperKey bufs'.lowerKey bufs'.upperKey
  rw [hr, hr', Option.map_some, Option.map_some, Option.some.injEq] at hsame
  rw [hkeys hrange, hkeys hrange', hsame]

theorem IxScan.rids_unique {κ : Type} {L : IxLayout κ} {s : IxFile κ} {c : IxScan}
    {fuel fuel' : Nat} {ids ids' : List Rid} (h : c.rids L s fuel = some ids)
    (h' : c.rids L s fuel' = some ids') : ids = ids' := by
  induction fuel generalizing c fuel' ids ids' with
  | zero =>
    have hend : c.isEnd = true := by
      by_contra hgoes
      simp [IxScan.rids, hgoes] at h
    cases fuel' with
    | zero => exact Option.some.inj (h.symm.trans h')
    | succ fuel' =>
      simp only [IxScan.rids, hend, if_true, Option.some.injEq] at h h'
      rw [← h, ← h']
  | succ fuel ih =>
    cases hend : c.isEnd with
    | true =>
      cases fuel' with
      | zero =>
        simp only [IxScan.rids, hend, if_true, Option.some.injEq] at h h'
        rw [← h, ← h']
      | succ fuel' =>
        simp only [IxScan.rids, hend, if_true, Option.some.injEq] at h h'
        rw [← h, ← h']
    | false =>
      cases fuel' with
      | zero => simp [IxScan.rids, hend] at h'
      | succ fuel' =>
        simp only [IxScan.rids, hend, Bool.false_eq_true, if_false] at h h'
        obtain ⟨rid, hrid, h⟩ := Option.bind_eq_some_iff.mp h
        obtain ⟨next, hnext, h⟩ := Option.bind_eq_some_iff.mp h
        obtain ⟨rest, hrest, rfl⟩ := Option.map_eq_some_iff.mp h
        rw [hrid, Option.bind_some, hnext, Option.bind_some] at h'
        obtain ⟨rest', hrest', rfl⟩ := Option.map_eq_some_iff.mp h'
        rw [ih hrest hrest']

/-- Two runs of an index scan read the same rids, unless a gap that ends in front of its start makes
one of them read nothing. -/
theorem IndexScanExecutor.enumerate_cases {index : IndexMeta} {L : IxLayout (IxKey index.ixCols)}
    {s : IxFile (IxKey index.ixCols)} {conds : List Condition} {bufs bufs' : GapBuffers index.ixCols}
    {rid rid' : Rid} {fuel fuel' : Nat} {ids ids' : List Rid}
    (h : enumerate L s conds bufs rid fuel = some ids)
    (h' : enumerate L s conds bufs' rid' fuel' = some ids') : ids = [] ∨ ids' = [] ∨ ids = ids' := by
  obtain ⟨e, he, -⟩ := Option.bind_eq_some_iff.mp h
  obtain ⟨range, hrange, -⟩ := Option.bind_eq_some_iff.mp he
  obtain ⟨e', he', -⟩ := Option.bind_eq_some_iff.mp h'
  obtain ⟨range', hrange', -⟩ := Option.bind_eq_some_iff.mp he'
  rw [enumerate_eq hrange] at h
  rw [enumerate_eq hrange', ← gap_places hrange hrange'] at h'
  split at h
  next => exact Or.inl (Option.some.inj h).symm
  next =>
    split at h'
    next => exact Or.inr (Or.inl (Option.some.inj h').symm)
    next => exact Or.inr (Or.inr (IxScan.rids_unique h h'))

/-- An index scan that fits goes along the records that meet its conditions, again and again. -/
theorem IndexTree.Fits.walks {index : IndexMeta} {cat : Catalog} {tree : IndexTree index}
    {file : TableFile} {conds : List Condition} (h : tree.Fits cat file conds)
    (bufs : Nat → GapBuffers index.ixCols) (s₀ : IndexScanState) :
    ∃ rows At, (indexScanCursor file tree conds bufs).Walks s₀ rows At ∧
      rows.Perm ((file.rows.map Prod.snd).filter fun row =>
        conds.all fun cond => cond.holdsIn cat fun _ => row) := by
  obtain ⟨_, rids, hread, hperm⟩ := h.reads (bufs 0) ⟨0, 0⟩
  have hreads : ∀ n rid, ∃ fuel,
      IndexScanExecutor.enumerate tree.layout tree.file conds (bufs n) rid fuel = some rids := by
    intro n rid
    obtain ⟨rounds, rids', hread', hperm'⟩ := h.reads (bufs n) rid
    have hlen := (hperm.trans hperm'.symm).length_eq
    rw [List.length_map, List.length_map] at hlen
    refine ⟨rounds, hread'.trans (congrArg some ?_)⟩
    rcases IndexScanExecutor.enumerate_cases hread hread' with rfl | rfl | heq
    · exact List.eq_nil_of_length_eq_zero hlen.symm
    · exact (List.eq_nil_of_length_eq_zero hlen).symm
    · exact heq.symm
  have hfound : ∀ rid ∈ rids, (file.getRecord rid).isSome := by
    intro rid hrid
    have hmem := hperm.mem_iff.mp (List.mem_map_of_mem hrid)
    obtain ⟨row, -, hrow⟩ := List.mem_map.mp hmem
    rw [← hrow]
    rfl
  have hrows : List.Forall₂ (fun rid tuple => file.getRecord rid = some tuple) rids
      (rids.map fun rid => (file.getRecord rid).getD []) := by
    refine List.forall₂_map_right_iff.mpr (List.forall₂_same.mpr fun rid hrid => ?_)
    obtain ⟨tuple, htuple⟩ := Option.isSome_iff_exists.mp (hfound rid hrid)
    rw [htuple]
    rfl
  refine ⟨_, _, indexScanCursor_walks hreads hrows s₀, ?_⟩
  have htuples := hperm.map fun tuple => tuple.getD []
  simpa [List.map_map, Function.comp_def] using htuples

theorem swapConds_onTable {t : String} {conds : List Condition}
    (h : ∀ cond ∈ conds, cond.lhsCol.tabName = t) : swapConds t conds = some conds := by
  refine MapM.mapM_of_forall₂ (List.forall₂_same.mpr fun cond hcond => ?_)
  rw [if_pos (h cond hcond)]

/-- The executor has the columns of the tables of `order` and delivers, if it gets through, the
records of the environments of `envs`. -/
structure Executor.Gives (exec : Executor) (cat : Catalog) (order : List String)
    (envs : List (String → Bytes)) : Prop where
  cols : exec.cols = rowCols cat order
  tupleLen : exec.tupleLen = rowLen cat order
  rows : ∃ rows At Taken Again, exec.cursor.Honest exec.init rows At Taken Again ∧
    rows.Perm (envs.map (flatRow order))

theorem Database.answers_one {t : String} {conds : List Condition}
    (hin : ∀ cond ∈ conds, ∀ u ∈ cond.tables, u = t) :
    (db.answers [t] conds).map (flatRow [t]) = (db.records t).filter fun row =>
      conds.all fun cond => cond.holdsIn db.cat fun _ => row := by
  have henvs : environments db.records [t] = (db.records t).map fun row =>
      Function.update (fun _ => default) t row := by
    simp [environments, List.map_eq_flatMap]
  rw [answers, henvs, List.filter_map, List.map_map]
  have hrow : (flatRow [t] ∘ fun row => Function.update (fun _ => default) t row) = id := by
    funext row
    simp [flatRow]
  rw [hrow, List.map_id]
  refine List.filter_congr fun row _ => ?_
  refine @all_holdsIn_congr [t] conds _ _ db.cat (fun cond hcond u hu => ?_) fun u hu => ?_
  · exact List.mem_singleton.mpr (hin cond hcond u hu)
  · rw [List.mem_singleton.mp hu]
    simp

theorem scan_gives {s : ScanPlan} (hfit : db.TablesFit [s.tabName])
    (hon : ∀ cond ∈ s.conds, cond.onTable s.tabName = true)
    (hindexes : db.IndexesFit (.scan s))
    (hexec : convertPlanExecutor db fuel (.scan s) = some exec) :
    exec.Gives db.cat [s.tabName] (db.answers [s.tabName] s.conds) := by
  obtain ⟨tab, htab, hexec⟩ := Option.bind_eq_some_iff.mp hexec
  obtain ⟨file, hfile, hexec⟩ := Option.bind_eq_some_iff.mp hexec
  have hrecords : db.records s.tabName = file.rows.map Prod.snd := by
    rw [Database.records, hfile]
    rfl
  have hin : ∀ cond ∈ s.conds, ∀ u ∈ cond.tables, u = s.tabName := by
    intro cond hcond u hu
    have hcondOn := hon cond hcond
    have hlhs := Condition.onTable_lhs hcondOn
    simp only [Condition.onTable, Bool.and_eq_true, Bool.or_eq_true, beq_iff_eq] at hcondOn
    cases hval : cond.isRhsVal with
    | true => simpa [Condition.tables, hval, hlhs] using hu
    | false =>
      have hrhs := hcondOn.2.resolve_left (by simp [hval])
      simpa [Condition.tables, hval, hlhs, hrhs] using hu
  have hcols : tab.cols = rowCols db.cat [s.tabName] := by simp [rowCols, htab]
  have hlen : tab.tupleLen = rowLen db.cat [s.tabName] := by simp [rowLen, htab]
  split at hexec
  next hindex =>
    obtain ⟨index, tree, conds, hmeta, htree, hconds, rfl⟩ := indexScanExecutor_cases hexec
    have hlhs := fun cond hcond => Condition.onTable_lhs (hon cond hcond)
    cases (swapConds_onTable hlhs).symm.trans hconds
    refine ⟨hcols, hlen, ?_⟩
    obtain ⟨rows, At, hwalks, hperm⟩ :=
      (hindexes s List.mem_cons_self hindex tab index tree file htab hmeta htree hfile).walks
        (fun n => db.keyBuffers s n index.ixCols) ⟨⟨⟨⟨0, 0⟩, ⟨0, 0⟩⟩, false, ⟨0, 0⟩⟩, 0⟩
    refine ⟨rows, At, _, _, hwalks.honest, ?_⟩
    rw [Database.answers_one hin, hrecords]
    exact hperm
  next =>
    rw [eq_of_seqScanExecutor hexec]
    refine ⟨hcols, hlen, ?_⟩
    obtain ⟨At, Taken, Again, hhonest⟩ := @scanCursor_honest (evalConds tab.cols s.conds) file
      ⟨[], none, false, none⟩
    refine ⟨_, At, Taken, Again, hhonest, List.Perm.of_eq ?_⟩
    rw [Database.answers_one hin, hrecords]
    refine List.filter_congr fun row hrow => ?_
    have hfits : FitsIn db.cat [s.tabName] fun _ => row := by
      intro t ht tab' htab'
      cases List.mem_singleton.mp ht
      exact ⟨hfit.rows _ List.mem_cons_self _ htab' row (hrecords ▸ hrow),
        hfit.cols _ List.mem_cons_self _ htab'⟩
    have heval := @evalConds_rowCols db.cat (fun _ => row) [s.tabName]
      (by simp [htab]) hfits s.conds fun cond hcond t ht =>
        List.mem_singleton.mpr (hin cond hcond t ht)
    rw [← heval, hcols]
    simp [flatRow]

theorem join_gives {left right : Executor} {order order' : List String}
    {conds conds' more : List Condition} (hfit : db.TablesFit (order ++ order'))
    (hcat : ∀ t ∈ order ++ order', (db.cat t).isSome) (hdisjoint : order.Disjoint order')
    (hin : ∀ cond ∈ conds, ∀ t ∈ cond.tables, t ∈ order)
    (hin' : ∀ cond ∈ conds', ∀ t ∈ cond.tables, t ∈ order')
    (hmore : ∀ cond ∈ more, ∀ t ∈ cond.tables, t ∈ order ++ order')
    (hleft : left.Gives db.cat order (db.answers order conds))
    (hright : right.Gives db.cat order' (db.answers order' conds')) :
    (nestedLoopJoinExecutor fuel right left more).Gives db.cat (order ++ order')
      (db.answers (order ++ order') (conds ++ conds' ++ more)) := by
  have hcols : joinCols left right = rowCols db.cat (order ++ order') := by
    rw [joinCols, hleft.cols, hright.cols, hleft.tupleLen, rowCols_append]
  refine ⟨hcols, ?_, ?_⟩
  · rw [rowLen_append, ← hleft.tupleLen, ← hright.tupleLen]
    rfl
  · obtain ⟨rowsL, AtL, TakenL, AgainL, hhonestL, hpermL⟩ := hleft.rows
    obtain ⟨rowsR, AtR, TakenR, AgainR, hhonestR, hpermR⟩ := hright.rows
    refine ⟨_, _, _, _, @nestedLoopCursor_honest left.cursor right.cursor
      (evalConds (joinCols left right) more) left.init right.init rowsL rowsR AtL TakenL AgainL AtR
      TakenR AgainR
      (fun pair => evalConds (joinCols left right) more (joinPairRow pair) == some true)
      fuel hhonestL hhonestR (fun pair b hb => ?_), ?_⟩
    · rw [hb]
      cases b with
      | true => rfl
      | false => rfl
    · have hprod : (rowsL ×ˢ rowsR).Perm ((db.answers order conds).map (flatRow order) ×ˢ
          (db.answers order' conds').map (flatRow order')) := hpermL.product hpermR
      refine ((hprod.filter _).map joinPairRow).trans (List.Perm.of_eq ?_)
      rw [map_product, List.filter_map, List.map_map, Database.answers_append hdisjoint hin hin',
        List.map_map]
      have hsame : ∀ pair ∈ db.answers order conds ×ˢ db.answers order' conds',
          joinPairRow (Prod.map (flatRow order) (flatRow order') pair) =
            flatRow (order ++ order') (merge order pair.1 pair.2) ∧
          ((fun pair => evalConds (joinCols left right) more (joinPairRow pair) == some true) ∘
            Prod.map (flatRow order) (flatRow order')) pair =
              more.all fun cond => cond.holdsIn db.cat (merge order pair.1 pair.2) := by
        intro pair hpair
        obtain ⟨hmem, hmem'⟩ := List.mem_product.mp hpair
        have hfits := hfit.fitsIn (fun t ht => List.mem_append_left order' ht)
          (List.mem_filter.mp hmem).1
        have hfits' := hfit.fitsIn (fun t ht => List.mem_append_right order ht)
          (List.mem_filter.mp hmem').1
        have hrow : joinPairRow (Prod.map (flatRow order) (flatRow order') pair) =
            flatRow (order ++ order') (merge order pair.1 pair.2) := (flatRow_merge hdisjoint).symm
        refine ⟨hrow, ?_⟩
        rw [Function.comp_apply, hrow, hcols]
        exact evalConds_rowCols hcat (hfits.merge hfits') hmore
      rw [List.filter_congr fun pair hpair => (hsame pair hpair).2]
      refine List.map_congr_left fun pair hpair => ?_
      exact (hsame pair (List.mem_of_mem_filter hpair)).1

theorem Plan.allConds_tables (hloops : plan.NestedLoops) (hplaced : plan.JoinsPlaced)
    (hon : ∀ s ∈ plan.scans, ∀ cond ∈ s.conds, cond.onTable s.tabName = true) :
    ∀ cond ∈ plan.allConds, ∀ t ∈ cond.tables, t ∈ plan.order := by
  intro cond hcond t ht
  rw [hloops.order_perm.mem_iff]
  have htabs : t = cond.lhsCol.tabName ∨ cond.isRhsVal = false ∧ t = cond.rhsCol.tabName := by
    unfold Condition.tables at ht
    cases hval : cond.isRhsVal with
    | true => simpa [hval] using ht
    | false => simpa [hval] using ht
  rcases List.mem_append.mp hcond with hscan | hjoin
  · obtain ⟨s, hs, hin⟩ := List.mem_flatMap.mp hscan
    have hcondOn := hon s hs cond hin
    have hlhs := Condition.onTable_lhs hcondOn
    simp only [Condition.onTable, Bool.and_eq_true, Bool.or_eq_true, beq_iff_eq] at hcondOn
    refine List.mem_map.mpr ⟨s, hs, ?_⟩
    rcases htabs with rfl | ⟨hval, rfl⟩
    · exact hlhs.symm
    · exact (hcondOn.2.resolve_left (by simp [hval])).symm
  · have hmem := Plan.JoinsPlaced.mem hplaced hjoin
    rcases htabs with rfl | ⟨-, rfl⟩
    · exact hmem.1
    · exact hmem.2

/-- The executors of a plan of scans under nested-loop joins deliver, if they get through, the
answers of its tables and conditions. -/
theorem plan_gives (hfit : db.TablesFit tables) (hcat : ∀ t ∈ tables, (db.cat t).isSome)
    (hloops : plan.NestedLoops) (hsub : ∀ t ∈ plan.order, t ∈ tables) (hnodup : plan.order.Nodup)
    (hplaced : plan.JoinsPlaced)
    (hon : ∀ s ∈ plan.scans, ∀ cond ∈ s.conds, cond.onTable s.tabName = true)
    (hindexes : db.IndexesFit plan) (hexec : convertPlanExecutor db fuel plan = some exec) :
    exec.Gives db.cat plan.order (db.answers plan.order plan.allConds) := by
  induction plan generalizing exec with
  | null => cases hexec
  | scan s =>
    have hfits : db.TablesFit [s.tabName] := by
      have hin : ∀ t ∈ [s.tabName], t ∈ tables := hsub
      exact ⟨fun t ht => hfit.cols t (hin t ht), fun t ht => hfit.rows t (hin t ht)⟩
    have hconds : (Plan.scan s).allConds = s.conds := by
      simp [Plan.allConds, Plan.scans, Plan.joinConds]
    rw [hconds]
    exact scan_gives hfits (hon s List.mem_cons_self) hindexes hexec
  | join sm left right conds ihLeft ihRight =>
    obtain ⟨rfl, hloopsL, hloopsR⟩ := hloops
    obtain ⟨hplacedL, hplacedR, hconds⟩ := hplaced
    obtain ⟨execL, hexecL, hexec⟩ := Option.bind_eq_some_iff.mp hexec
    obtain ⟨execR, hexecR, rfl⟩ := Option.map_eq_some_iff.mp hexec
    have hnodup' : (right.order ++ left.order).Nodup := hnodup
    have honL : ∀ s ∈ left.scans, ∀ cond ∈ s.conds, cond.onTable s.tabName = true :=
      fun s hs => hon s (List.mem_append_left _ hs)
    have honR : ∀ s ∈ right.scans, ∀ cond ∈ s.conds, cond.onTable s.tabName = true :=
      fun s hs => hon s (List.mem_append_right _ hs)
    have hleft := ihLeft hloopsL (fun t ht => hsub t (List.mem_append_right _ ht))
      hnodup'.of_append_right hplacedL honL (fun s hs => hindexes s (List.mem_append_left _ hs))
      hexecL
    have hright := ihRight hloopsR (fun t ht => hsub t (List.mem_append_left _ ht))
      hnodup'.of_append_left hplacedR honR (fun s hs => hindexes s (List.mem_append_right _ hs))
      hexecR
    have hmore : ∀ cond ∈ conds, ∀ t ∈ cond.tables, t ∈ right.order ++ left.order := by
      intro cond hcond t ht
      have hboth := hconds cond hcond
      rw [← hloopsL.order_perm.mem_iff, ← hloopsR.order_perm.mem_iff] at hboth
      rcases List.mem_cons.mp ht with rfl | hrest
      · exact List.mem_append_right _ hboth.1
      · split at hrest
        next => cases hrest
        next =>
          rw [List.mem_singleton.mp hrest]
          exact List.mem_append_left _ hboth.2
    rw [Database.answers_conds_perm (Plan.allConds_join false left right conds)]
    exact join_gives ⟨fun t ht => hfit.cols t (hsub t ht), fun t ht => hfit.rows t (hsub t ht)⟩
      (fun t ht => hcat t (hsub t ht)) (List.disjoint_of_nodup_append hnodup')
      (Plan.allConds_tables hloopsR hplacedR honR) (Plan.allConds_tables hloopsL hplacedL honL)
      hmore hright hleft
  | scanSub | values | sort | aggr | projection => exact hloops.elim

end Executors

end Grmdb
