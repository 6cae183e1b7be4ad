import Grmdb.Portal
import Grmdb.WhereConds

namespace Grmdb

open MergeJoin

section Condition

variable (db : Database) (fuel : Nat)

/-- What the memory for the keys of a scan holds does not matter for its places. -/
def IndexTree.Settled {index : IndexMeta} (tree : IndexTree index) (conds : List Condition) : Prop :=
  ∀ bufs bufs' : GapBuffers index.ixCols,
    (IndexScanExecutor.gap tree.layout tree.file conds bufs).map
        (fun range => (range.1, decide (range.2.2 < range.2.1))) =
      (IndexScanExecutor.gap tree.layout tree.file conds bufs').map
        fun range => (range.1, decide (range.2.2 < range.2.1))

/-- The index scans of the plan are settled. -/
def Database.Settled (db : Database) (s : ScanPlan) : Prop :=
  s.indexScan = true → ∀ tab index tree conds, db.cat s.tabName = some tab →
    tab.getIndexMeta s.indexColNames = some index → db.trees s.tabName index = some tree →
    swapConds s.tabName s.conds = some conds → tree.Settled conds

/-- Every run of a sort opens its temporary file under the descriptor of the first run. -/
def Database.Reopens (db : Database) (plan : Plan) : Prop :=
  ∀ n, db.tmpFd plan n = db.tmpFd plan 0

/-- Whether what changes from one run to the next does no harm: the places of an index scan do not
depend on the memory of its keys, no join has a pair to join, no aggregation gets a record, and a
sort merges its blocks in one pass and gets the same descriptor again. -/
def Plan.Steady : Plan → Prop
  | .null => True
  | .scan s => db.Settled s
  | .scanSub s _ _ => db.Settled s
  | .values _ _ => True
  | .join sortMerge planLeft planRight conds =>
    planLeft.Steady ∧ planRight.Steady ∧ ∃ left right rowsL rowsR,
      planRight.Yields db fuel left rowsL ∧ planLeft.Yields db fuel right rowsR ∧
      if sortMerge then
        (rowsL = [] ∨ rowsR = []) ∨ ∃ cond, conds = [cond] ∧ ∀ l ∈ rowsL, ∀ r ∈ rowsR,
          sortMergeOrder (left.cols ++ right.cols) cond.lhsCol cond.rhsCol l r = some .lt ∨
            sortMergeOrder (left.cols ++ right.cols) cond.lhsCol cond.rhsCol l r = some .gt
      else ∀ pair ∈ rowsL ×ˢ rowsR, evalConds (joinCols left right) conds (joinPairRow pair) =
        some false
  | .sort subplan selCol isDesc =>
    subplan.Steady ∧ db.Reopens (.sort subplan selCol isDesc) ∧
      ∃ prev rows, subplan.Yields db fuel prev rows ∧
        sortNumPages (PAGE_SIZE / prev.tupleLen) rows ≤ 2 * BLOCK_SIZE_MIN
  | .aggr subplan _ _ _ => subplan.Steady ∧ ∃ prev, subplan.Yields db fuel prev []
  | .projection subplan _ _ => subplan.Steady

end Condition

section

variable {db : Database} {fuel : Nat} {plan : Plan} {exec : Executor} {rows : List Bytes}

/-- A walk delivers what it walks along. -/
theorem Executor.FirstPass.rows_eq {rows' : List Bytes} {At : List Bytes → exec.cursor.State → Prop}
    (h : exec.FirstPass rows) (hwalks : exec.cursor.Walks exec.init rows' At) : rows = rows' := by
  obtain ⟨s, hstart, hdelivers⟩ := h
  obtain ⟨s', hstart', hat⟩ := hwalks.start exec.init (Or.inl rfl)
  cases hstart.symm.trans hstart'
  exact hdelivers.unique (hwalks.delivers hat)

theorem Executor.FirstPass.walks (h : exec.FirstPass rows)
    (hwalks : ∃ rows' At, exec.cursor.Walks exec.init rows' At) :
    ∃ At, exec.cursor.Walks exec.init rows At := by
  obtain ⟨rows', At, hwalks⟩ := hwalks
  rw [h.rows_eq hwalks]
  exact ⟨At, hwalks⟩

theorem findLast_decided {eval : Bytes → Option Bool} {table : List (Rid × Bytes)}
    {last : Option Rid} (h : (findLast eval table last).isSome) :
    ∀ row ∈ table, (eval row.2).isSome := by
  induction table generalizing last with
  | nil => simp
  | cons row table ih =>
    obtain ⟨rid, tuple⟩ := row
    rw [findLast] at h
    cases hok : eval tuple with
    | none =>
      rw [hok] at h
      cases h
    | some ok =>
      rw [hok] at h
      intro row hrow
      rcases List.mem_cons.mp hrow with rfl | hrow
      · rw [hok]
        rfl
      · exact ih h row hrow

/-- A scan that gets through once has decided every record of its table. -/
theorem scanCursor_walks_again {eval : Bytes → Option Bool} {file : TableFile} {s₀ : ScanState}
    (h : ((scanCursor eval file).start s₀).isSome) :
    ∃ rows At, (scanCursor eval file).Walks s₀ rows At := by
  obtain ⟨s, hs⟩ := Option.isSome_iff_exists.mp h
  obtain ⟨last, hlast, -⟩ := Option.bind_eq_some_iff.mp hs
  have hdecided := findLast_decided (Option.isSome_iff_exists.mpr ⟨last, hlast⟩)
  refine ⟨_, _, @scanCursor_walks eval (fun row => eval row.2 = some true) file (fun row hrow => ?_)
    s₀⟩
  obtain ⟨ok, hok⟩ := Option.isSome_iff_exists.mp (hdecided row hrow)
  cases ok with
  | true => simp [hok]
  | false => simp [hok]

/-- Runs with the same places read the same rids. -/
theorem IndexTree.Settled.enumerate_eq {index : IndexMeta} {tree : IndexTree index}
    {conds : List Condition} (h : tree.Settled conds) (bufs bufs' : GapBuffers index.ixCols)
    (rid rid' : Rid) (fuel : Nat) :
    IndexScanExecutor.enumerate tree.layout tree.file conds bufs rid fuel =
      IndexScanExecutor.enumerate tree.layout tree.file conds bufs' rid' fuel := by
  have hsame := h bufs bufs'
  cases hgap : IndexScanExecutor.gap tree.layout tree.file conds bufs with
  | none =>
    rw [hgap, Option.map_none] at hsame
    have hnone := Option.map_eq_none_iff.mp hsame.symm
    simp [IndexScanExecutor.enumerate, IndexScanExecutor.beginTuple, hgap, hnone]
  | some range =>
    rw [hgap, Option.map_some] at hsame
    obtain ⟨range', hgap', heq⟩ := Option.map_eq_some_iff.mp hsame.symm
    obtain ⟨hplaces, hflag⟩ := Prod.mk.injEq _ _ _ _ ▸ heq
    rw [IndexScanExecutor.enumerate_eq hgap, IndexScanExecutor.enumerate_eq hgap', hplaces]
    simp only [decide_eq_decide.mp hflag]

/-- A settled index scan that gets through once does so again and again. -/
theorem indexScanCursor_walks_again {index : IndexMeta} {file : TableFile} {tree : IndexTree index}
    {conds : List Condition} {bufs : Nat → GapBuffers index.ixCols} {s₀ : IndexScanState}
    {s₁ : (indexScanCursor file tree conds bufs).State} (hsettled : tree.Settled conds)
    (hstart : (indexScanCursor file tree conds bufs).start s₀ = some s₁)
    (hdelivers : (indexScanCursor file tree conds bufs).Delivers s₁ rows) :
    ∃ rows At, (indexScanCursor file tree conds bufs).Walks s₀ rows At := by
  obtain ⟨exec, hbegin, rfl⟩ := Option.map_eq_some_iff.mp hstart
  obtain ⟨fuel, rids, hrids, hrows⟩ := indexScanCursor_delivers hdelivers
  refine ⟨rows, _, indexScanCursor_walks (fun n rid => ⟨fuel, ?_⟩) hrows s₀⟩
  rw [hsettled.enumerate_eq (bufs n) (bufs s₀.starts) rid s₀.exec.rid, IndexScanExecutor.enumerate,
    hbegin, Option.bind_some]
  exact hrids

theorem valuesCursor_fits {values vals : List Value} {len : Nat}
    (h : (valuesCursor values len).Delivers vals rows) : ∀ val ∈ vals, val.fits len := by
  obtain ⟨s, hs⟩ : ∃ s : (valuesCursor values len).State, s = vals := ⟨vals, rfl⟩
  rw [← hs] at h
  induction h generalizing vals with
  | @nil s hend =>
    have hnil : vals = [] := List.isEmpty_iff.mp (hs ▸ hend)
    simp [hnil]
  | @cons s s' s'' r rest hend hread hadvance _ ih =>
    subst hs
    obtain ⟨val, hval, hraw⟩ := Option.bind_eq_some_iff.mp hread
    split at hraw
    next hfits =>
      cases hraw
      obtain ⟨rest, rfl⟩ := List.head?_eq_some_iff.mp hval
      cases hadvance
      intro v hv
      rcases List.mem_cons.mp hv with rfl | hv
      · exact hfits
      · exact ih rfl v hv
    next => cases hraw

theorem indexScanExecutor_walks {s : ScanPlan} {tab : TabMeta} {file : TableFile}
    (hsettled : db.Settled s) (hindex : s.indexScan = true) (htab : db.cat s.tabName = some tab)
    (hconvert : indexScanExecutor db s tab file = some exec) (h : exec.FirstPass rows) :
    ∃ rows At, exec.cursor.Walks exec.init rows At := by
  obtain ⟨index, tree, conds, hmeta, htree, hconds, rfl⟩ := indexScanExecutor_cases hconvert
  obtain ⟨s₁, hstart, hdelivers⟩ := h
  exact indexScanCursor_walks_again (hsettled hindex tab index tree conds htab hmeta htree hconds)
    hstart hdelivers

theorem subqueryExecutor_walks {tab : TabMeta} {file : TableFile} {conds : List Condition}
    {clause : SubQueryClause} {sub : Executor}
    (hconvert : subqueryExecutor fuel tab file conds clause sub = some exec)
    (h : exec.FirstPass rows) : ∃ rows At, exec.cursor.Walks exec.init rows At := by
  obtain ⟨s₁, hstart, -⟩ := h
  unfold subqueryExecutor at hconvert
  split at hconvert
  next =>
    obtain ⟨lhs, -, hconvert⟩ := Option.bind_eq_some_iff.mp hconvert
    split at hconvert
    next =>
      obtain ⟨results, -, hconvert⟩ := Option.bind_eq_some_iff.mp hconvert
      split at hconvert
      next => cases hconvert
      next =>
        cases hconvert
        exact scanCursor_walks_again (Option.isSome_iff_exists.mpr ⟨s₁, hstart⟩)
    next => cases hconvert
  next => cases hconvert

/-- In a tree where nothing that changes does harm, every executor goes along the records of its first
pass again and again. -/
theorem Plan.Steady.walks (hsteady : plan.Steady db fuel)
    (h : plan.Yields db fuel exec rows) : ∃ At, exec.cursor.Walks exec.init rows At := by
  refine h.2.walks ?_
  induction plan generalizing exec rows with
  | null => cases h.1
  | scan s =>
    obtain ⟨hconvert, hfirst⟩ := h
    obtain ⟨tab, htab, hconvert⟩ := Option.bind_eq_some_iff.mp hconvert
    obtain ⟨file, hfile, hconvert⟩ := Option.bind_eq_some_iff.mp hconvert
    split at hconvert
    next hindex => exact indexScanExecutor_walks hsteady hindex htab hconvert hfirst
    next =>
      obtain ⟨s₁, hstart, -⟩ := hfirst
      cases eq_of_seqScanExecutor hconvert
      exact scanCursor_walks_again (Option.isSome_iff_exists.mpr ⟨s₁, hstart⟩)
  | scanSub s clause subPlan _ =>
    obtain ⟨hconvert, hfirst⟩ := h
    obtain ⟨tab, htab, hconvert⟩ := Option.bind_eq_some_iff.mp hconvert
    obtain ⟨file, hfile, hconvert⟩ := Option.bind_eq_some_iff.mp hconvert
    split at hconvert
    next hindex => exact indexScanExecutor_walks hsteady hindex htab hconvert hfirst
    next =>
      obtain ⟨sub, -, hconvert⟩ := Option.bind_eq_some_iff.mp hconvert
      exact subqueryExecutor_walks hconvert hfirst
  | values vals col =>
    obtain ⟨hconvert, s₁, hstart, hdelivers⟩ := h
    cases hconvert
    cases hstart
    exact ⟨_, _, valuesCursor_walks (valuesCursor_fits hdelivers) _⟩
  | join sortMerge planLeft planRight conds ihLeft ihRight =>
    obtain ⟨hsteadyL, hsteadyR, left, right, rowsL, rowsR, hleft, hright, hidle⟩ := hsteady
    obtain ⟨AtL, hL⟩ := hleft.2.walks (ihRight hsteadyR hleft)
    obtain ⟨AtR, hR⟩ := hright.2.walks (ihLeft hsteadyL hright)
    obtain ⟨hconvert, s₁, hstart, -⟩ := h
    simp only [convertPlanExecutor, hleft.1, hright.1, Option.bind_some, Option.map_some,
      Option.some.injEq] at hconvert
    subst hconvert
    cases sortMerge with
    | false =>
      exact ⟨_, _, nestedLoopCursor_walks_none hL hR hidle
        (Option.isSome_iff_exists.mpr ⟨s₁, hstart⟩)⟩
    | true =>
      obtain ⟨l, houtL, hrest⟩ := Option.bind_eq_some_iff.mp hstart
      obtain ⟨r, houtR, -⟩ := Option.bind_eq_some_iff.mp hrest
      have hfuelL := outputSorted_length hL (Or.inl rfl) houtL
      have hfuelR := outputSorted_length hR (Or.inl rfl) houtR
      exact ⟨_, _, sortMergeCursor_walks_none hL hR hidle hfuelL hfuelR
        (Option.isSome_iff_exists.mpr ⟨s₁, hstart⟩)⟩
  | sort subplan selCol isDesc ih =>
    obtain ⟨hsteady, hreopens, prev, rowsP, hprev, hpages⟩ := hsteady
    obtain ⟨At, hP⟩ := hprev.2.walks (ih hsteady hprev)
    obtain ⟨hconvert, s₁, hstart, -⟩ := h
    simp only [convertPlanExecutor, hprev.1, Option.bind_some] at hconvert
    obtain ⟨orderBy, -, hconvert⟩ := Option.bind_eq_some_iff.mp hconvert
    dsimp only at hconvert
    split at hconvert
    next => cases hconvert
    next hfits =>
      cases hconvert
      obtain ⟨p, hbegin, hrest⟩ := Option.bind_eq_some_iff.mp hstart
      obtain ⟨⟨read, p'⟩, hcollect, hrest⟩ := Option.bind_eq_some_iff.mp hrest
      obtain ⟨sorted, hsort, -⟩ := Option.bind_eq_some_iff.mp hrest
      obtain ⟨p₁, hbegin', hat⟩ := hP.start prev.init (Or.inl rfl)
      cases hbegin.symm.trans hbegin'
      obtain ⟨rfl, hfuel⟩ := hP.collect_eq hat hcollect
      have htup : 0 < PAGE_SIZE / prev.tupleLen := Nat.pos_of_ne_zero hfits
      have hlen := (sortBlocks_perm (Nat.mul_pos (by decide) htup) hsort).length_eq
      have hpages' : sortNumPages (PAGE_SIZE / prev.tupleLen) sorted ≤ 2 * BLOCK_SIZE_MIN := by
        rw [sortNumPages, hlen]
        exact hpages
      exact ⟨_, _, sortCursor_walks hP hfuel hsort htup hpages' hreopens⟩
  | aggr subplan havings aggregates groupBys ih =>
    obtain ⟨hsteady, prev, hprev⟩ := hsteady
    obtain ⟨At, hP⟩ := hprev.2.walks (ih hsteady hprev)
    obtain ⟨hconvert, -⟩ := h
    simp only [convertPlanExecutor, hprev.1, Option.bind_some] at hconvert
    obtain ⟨shape, hshape, rfl⟩ := Option.map_eq_some_iff.mp hconvert
    obtain ⟨rows', hwalks⟩ := @aggregateCursor_walks_none db shape _ _ _ _ _ _ At fuel hP hshape
    exact ⟨rows', _, hwalks⟩
  | projection subplan cols selCols ih =>
    obtain ⟨hconvert, s₁, hstart, hdelivers⟩ := h
    obtain ⟨prev, hprev, hconvert⟩ := Option.bind_eq_some_iff.mp hconvert
    obtain ⟨picked, -, rfl⟩ := Option.map_eq_some_iff.mp hconvert
    obtain ⟨rowsP, hprevRows, -⟩ := hdelivers.of_map
    obtain ⟨rows', At, hP⟩ := ih hsteady ⟨hprev, s₁, hstart, hprevRows⟩
    exact ⟨_, _, hP.map (projectTuple picked)⟩

/-- A join that has delivered a record has moved it out: it can be read just once. -/
theorem Plan.Yields.join_nil {sortMerge : Bool} {left right : Plan} {conds : List Condition}
    (h : (Plan.join sortMerge left right conds).Yields db fuel exec rows)
    (hrepeats : exec.cursor.Repeats exec.init rows) : rows = [] := by
  obtain ⟨hconvert, s, hstart, hdelivers⟩ := h
  obtain ⟨l, -, hconvert⟩ := Option.bind_eq_some_iff.mp hconvert
  obtain ⟨r, -, rfl⟩ := Option.map_eq_some_iff.mp hconvert
  cases hdelivers with
  | nil => rfl
  | cons hend =>
    obtain ⟨tuple, s₁, s₂, hread, hread'⟩ := hrepeats.read s (.first hstart) hend
    cases sortMerge with
    | false =>
      obtain ⟨record, -, hmoved⟩ := Option.map_eq_some_iff.mp hread
      cases hmoved
      cases hread'
    | true =>
      obtain ⟨record, -, hmoved⟩ := Option.map_eq_some_iff.mp hread
      cases hmoved
      cases hread'

end

/-- Two records with `x = 2` and `x = 1`. -/
def twoRows : TableFile :=
  ⟨[(⟨1, 0⟩, [2, 0, 0, 0, 5, 0, 0, 0]), (⟨1, 1⟩, [1, 0, 0, 0, 7, 0, 0, 0])], by decide⟩

def twoRowsDatabase : Database where
  cat := pairCatalog
  files _ := some twoRows
  trees _ _ := none
  addFloat x _ := x
  strHash _ := 0
  freshKeys _ _ := ⟨0, fun _ => []⟩
  unsetType _ _ := some .int
  keyBuffers _ _ cols := ⟨IxKey.zero cols, IxKey.zero cols, IxKey.zero cols, IxKey.zero cols⟩
  tmpFd _ _ := 3
  otherPages _ _ := none

def matchedRow : TableFile := ⟨[(⟨1, 0⟩, [2, 0, 0, 0, 5, 0, 0, 0])], by decide⟩

/-- One record in the table `a`, the records of `rowsB` in every other table. -/
def joinDatabase (rowsB : TableFile) : Database :=
  { twoRowsDatabase with files := fun t => some (if t = "a" then matchedRow else rowsB) }

/-- `SELECT * FROM a, b` up to its projection. -/
def crossPlan : Plan :=
  .join false (.scan ⟨false, "b", [], []⟩) (.scan ⟨false, "a", [], []⟩) []

end Grmdb
