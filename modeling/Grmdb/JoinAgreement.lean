import Grmdb.JoinPair
import Grmdb.SortOrder

namespace Grmdb

open ByteLayout MergeJoin

section Sides

variable {left right : Executor} {cond : Condition} {colA colB : ColMeta} {rowsL rowsR : List Bytes}
  {fuel : Nat}

/-- The inputs of a join on one equality: `left` has the column of its right side, as the executors
exchange their inputs. -/
structure JoinSides (left right : Executor) (cond : Condition) (colA colB : ColMeta)
    (rowsL rowsR : List Bytes) : Prop where
  op : cond.op = .eq
  isCol : cond.isRhsVal = false
  lhs : findCol right.cols cond.lhsCol = some colA
  rhs : findCol left.cols cond.rhsCol = some colB
  other : findCol left.cols cond.lhsCol = none
  place : colA.SamePlace colB
  record : ∀ row ∈ rowsL, row.length = left.tupleLen
  keysL : ∀ row ∈ rowsL, (colA.key? row).isSome
  keysR : ∀ row ∈ rowsR, (colA.key? row).isSome

theorem JoinSides.sortMergeOrder (h : JoinSides left right cond colA colB rowsL rowsR) {l r : Bytes}
    (hl : l ∈ rowsL) (hr : r ∈ rowsR) (rhs : TabCol) (hrhs : rhs = cond.rhsCol ∨ rhs = cond.lhsCol) :
    sortMergeOrder (left.cols ++ right.cols) cond.lhsCol rhs l r =
      some (compareKeys colA.key colA.key l r) := by
  obtain ⟨v, w, hv, hw, hcomp⟩ := comp_keys (h.keysL l hl) (h.keysR r hr)
  have hleft : getValue (left.cols ++ right.cols) cond.lhsCol l = some v := by
    rw [getValue, findCol_append, h.other, Option.none_or, h.lhs, Option.bind_some, hv]
  have hright : getValue (left.cols ++ right.cols) rhs r = some w := by
    rcases hrhs with rfl | rfl
    · rw [getValue, findCol_append, h.rhs, Option.some_or, Option.bind_some, h.place.read, hw]
    · rw [getValue, findCol_append, h.other, Option.none_or, h.lhs, Option.bind_some, hw]
  unfold Grmdb.sortMergeOrder
  rw [hleft, Option.bind_some, hright, Option.bind_some, hcomp .lt, Option.bind_some, hcomp .gt]
  unfold compareKeys
  simp only [CompOp.holds]
  rcases lt_trichotomy (colA.key l) (colA.key r) with hlt | heq | hgt
  · rw [compare_lt_iff_lt.mpr hlt]
    simp [hlt]
  · rw [compare_eq_iff_eq.mpr heq]
    simp [heq]
  · rw [compare_gt_iff_gt.mpr hgt]
    simp [hgt, hgt.not_gt]

theorem JoinSides.evalConds (h : JoinSides left right cond colA colB rowsL rowsR) :
    ∀ pair ∈ rowsL ×ˢ rowsR, evalConds (joinCols left right) [cond] (joinPairRow pair) =
      some (decide (colA.key pair.1 = colA.key pair.2)) := by
  rintro ⟨l, r⟩ hpair
  obtain ⟨hl, hr⟩ := List.mem_product.mp hpair
  obtain ⟨v, w, hv, hw, hcomp⟩ := comp_keys (h.keysR r hr) (h.keysL l hl)
  have hleft : getValue (joinCols left right) cond.lhsCol (l ++ r) = some v := by
    rw [getValue, joinCols, findCol_append, h.other, Option.none_or, findCol_shift, h.lhs,
      Option.map_some, Option.bind_some, ← h.record l hl, ColMeta.read_append_right, hv]
  have hright : getValue (joinCols left right) cond.rhsCol (l ++ r) = some w := by
    rw [getValue, joinCols, findCol_append, h.rhs, Option.some_or, Option.bind_some]
    exact ColMeta.read_append_left ((h.place.read l).trans hw)
  unfold Grmdb.evalConds evalCond joinPairRow
  simp only [hleft, hright, h.isCol, h.op, Option.bind_some, Bool.false_eq_true, if_false]
  rw [hcomp .eq, Option.bind_some]
  by_cases heq : colA.key r = colA.key l
  · simp [CompOp.holds, heq, Grmdb.evalConds]
  · simp [CompOp.holds, heq, Ne.symm heq]

variable {AtL : List Bytes → left.cursor.State → Prop} {AtR : List Bytes → right.cursor.State → Prop}

theorem JoinSides.nestedLoop (h : JoinSides left right cond colA colB rowsL rowsR)
    (hL : left.cursor.Walks left.init rowsL AtL) (hR : right.cursor.Walks right.init rowsR AtR)
    (hfuel : rowsL.length * rowsR.length ≤ fuel) :
    (nestedLoopJoinExecutor fuel right left [cond]).FirstPass
      ((joinPairs colA.key colA.key rowsL rowsR).map joinPairRow) := by
  have hlen : (rowsL ×ˢ rowsR).length ≤ fuel := by
    rw [List.length_product]
    exact hfuel
  refine nestedLoopCursor_delivers hL hR (fun pair hpair => ?_) hlen
  convert h.evalConds pair hpair

theorem JoinSides.sortMerge (h : JoinSides left right cond colA colB rowsL rowsR)
    (hL : left.cursor.Walks left.init rowsL AtL) (hR : right.cursor.Walks right.init rowsR AtR)
    (hfuel : rowsL.length + rowsR.length ≤ fuel) :
    (sortMergeExecutor fuel right left [cond]).FirstPass
      ((mergeJoin (compareKeys colA.key colA.key) rowsL rowsR).map joinPairRow) :=
  sortMergeCursor_delivers hL hR (fun _ hl _ hr => h.sortMergeOrder hl hr _ (Or.inl rfl))
    (fun _ hl _ hr => h.sortMergeOrder hl hr _ (Or.inr rfl)) hfuel

/-- Inputs in another order, from executors with the same columns. -/
theorem JoinSides.perm {left' right' : Executor} {rowsL' rowsR' : List Bytes}
    (h : JoinSides left right cond colA colB rowsL rowsR) (hcolsL : left'.cols = left.cols)
    (hcolsR : right'.cols = right.cols) (hlen : left'.tupleLen = left.tupleLen)
    (hl : rowsL'.Perm rowsL) (hr : rowsR'.Perm rowsR) :
    JoinSides left' right' cond colA colB rowsL' rowsR' where
  op := h.op
  isCol := h.isCol
  lhs := hcolsR ▸ h.lhs
  rhs := hcolsL ▸ h.rhs
  other := hcolsL ▸ h.other
  place := h.place
  record row hrow := hlen ▸ h.record row (hl.mem_iff.mp hrow)
  keysL row hrow := h.keysL row (hl.mem_iff.mp hrow)
  keysR row hrow := h.keysR row (hr.mem_iff.mp hrow)

/-- A sort of records that fit, of at most two blocks. -/
theorem sortExecutor_walks {prev : Executor} {rows : List Bytes}
    {At : List Bytes → prev.cursor.State → Prop} {col : ColMeta} {selCol : TabCol}
    (hP : prev.cursor.Walks prev.init rows At) (hcol : findCol prev.cols selCol = some col)
    (hkeys : ∀ row ∈ rows, (col.key? row).isSome) (hpage : 0 < PAGE_SIZE / prev.tupleLen)
    (hfits : SortFits col false (PAGE_SIZE / prev.tupleLen) rows)
    (hpages : sortNumPages (PAGE_SIZE / prev.tupleLen) rows ≤ 2 * BLOCK_SIZE_MIN)
    (hfuel : rows.length ≤ fuel) {tmpFd : Nat → Nat} (hfd : ∀ n, tmpFd n = tmpFd 0)
    (otherPages : Nat → Option (Nat → Option Bytes)) :
    ∃ exec sorted, sortExecutor fuel prev selCol false tmpFd otherPages = some exec ∧
      exec.cols = prev.cols ∧ exec.tupleLen = prev.tupleLen ∧
      (∃ At, exec.cursor.Walks exec.init sorted At) ∧ sorted.Perm rows ∧
      sorted.Pairwise fun r r' => col.key r ≤ col.key r' := by
  obtain ⟨sorted, hsort, hperm, hcase⟩ := sortBlocks_fits hpage hkeys hfits
  have hpages' : sortNumPages (PAGE_SIZE / prev.tupleLen) sorted ≤ 2 * BLOCK_SIZE_MIN := by
    rw [sortNumPages, hperm.length_eq]
    exact hpages
  obtain ⟨result, hresult, hpair, hdistrict⟩ :=
    @loadSorted_sorts _ _ _ _ (List.replicate prev.tupleLen 0) hpage (fun _ _ => []) hcase
  rw [loadSorted_district hpage hpages'] at hdistrict
  have hwalks := @sortCursor_walks prev.cursor prev.init rows sorted At col false
    (PAGE_SIZE / prev.tupleLen) prev.tupleLen fuel tmpFd otherPages hP hfuel hsort hpage hpages' hfd
  rw [hdistrict] at hwalks
  refine ⟨⟨prev.cols, prev.tupleLen, sortCursor fuel col false (PAGE_SIZE / prev.tupleLen)
    prev.tupleLen tmpFd otherPages prev.cursor, .first prev.init⟩, result, ?_, rfl, rfl,
    ⟨_, hwalks⟩, hresult.trans hperm, hpair.imp fun h => by simpa [ordered] using h⟩
  rw [sortExecutor, hcol, Option.bind_some]
  exact if_neg (Nat.pos_iff_ne_zero.mp hpage)

/-- A sort of records of any number, by how many records it has. -/
theorem sortExecutor_counts {prev : Executor} {rows : List Bytes}
    {At : List Bytes → prev.cursor.State → Prop} {col : ColMeta} {selCol : TabCol}
    (hP : prev.cursor.Walks prev.init rows At) (hcol : findCol prev.cols selCol = some col)
    (hread : ∀ row ∈ rows, (col.read row).isSome) (hfits : 0 < PAGE_SIZE / prev.tupleLen)
    (hfuel : rows.length ≤ fuel) {tmpFd : Nat → Nat} (hfd : ∀ n, tmpFd n = tmpFd 0)
    (otherPages : Nat → Option (Nat → Option Bytes)) :
    ∃ exec, sortExecutor fuel prev selCol false tmpFd otherPages = some exec ∧
      ∃ Count, (exec.cursor.map fun _ => ()).Walks exec.init (List.replicate rows.length ()) Count := by
  obtain ⟨sorted, hsort⟩ := @sortBlocks_returns col false (BLOCK_SIZE_MIN * (PAGE_SIZE / prev.tupleLen))
    rows (Nat.mul_pos (by decide) hfits) hread
  refine ⟨⟨prev.cols, prev.tupleLen, sortCursor fuel col false (PAGE_SIZE / prev.tupleLen)
    prev.tupleLen tmpFd otherPages prev.cursor, .first prev.init⟩, ?_, _,
    sortCursor_counts hP hfuel hsort hfits hfd⟩
  rw [sortExecutor, hcol, Option.bind_some]
  exact if_neg (Nat.pos_iff_ne_zero.mp hfits)

end Sides

section Agreement

variable {db : Database} {fuel : Nat} {tables : List String} {a b : String} {tabA tabB : TabMeta}
  {scanA scanB : Executor} {rowsA rowsB : List Bytes} {cond : Condition} {more : List Condition}
  {colA colB : ColMeta}

/-- Two tables of a FROM clause as the catalog and the storage keep them, with what their scans
deliver. A record fits into a page. -/
structure TwoTables (db : Database) (fuel : Nat) (tables : List String) (a b : String)
    (tabA tabB : TabMeta) (scanA scanB : Executor) (rowsA rowsB : List Bytes) : Prop where
  distinct : a ≠ b
  tables : tables = [a, b] ∨ tables = [b, a]
  catA : db.cat a = some tabA
  catB : db.cat b = some tabB
  namesA : ∀ col ∈ tabA.cols, col.tabName = a
  namesB : ∀ col ∈ tabB.cols, col.tabName = b
  yieldsA : (Plan.scan (tableScan db.cat a)).Yields db fuel scanA rowsA
  yieldsB : (Plan.scan (tableScan db.cat b)).Yields db fuel scanB rowsB
  recordsA : ∀ row ∈ rowsA, row.length = tabA.tupleLen
  recordsB : ∀ row ∈ rowsB, row.length = tabB.tupleLen
  fitsA : 0 < PAGE_SIZE / tabA.tupleLen
  fitsB : 0 < PAGE_SIZE / tabB.tupleLen
  fuel : (rowsA.length + 1) * (rowsB.length + 1) ≤ fuel

/-- The conditions of a join of the two tables. The first one has its left column in `a`. -/
structure JoinConds (a b : String) (cond : Condition) (more : List Condition) : Prop where
  lhsTab : cond.lhsCol.tabName = a
  rhsTab : cond.rhsCol.tabName = b
  between : ∀ c ∈ cond :: more, Between a b c

/-- The plan of the nested-loop join and the one of the sort-merge join yield the same records. -/
def JoinsAgree (db : Database) (fuel : Nat) (tables : List String) (conds : List Condition) : Prop :=
  ∃ nested merge execN execM rowsN rowsM,
    makeOneRel db.cat ⟨true, false⟩ (fun _ s => .scan s) tables conds = some nested ∧
    makeOneRel db.cat ⟨false, true⟩ (fun _ s => .scan s) tables conds = some merge ∧
    nested.Yields db fuel execN rowsN ∧ merge.Yields db fuel execM rowsM ∧ rowsN.Perm rowsM

/-- A sort by a column with values that can be compared. Its second run opens the temporary file
under the descriptor of the first one again. -/
structure SortRuns (db : Database) (t : String) (tab : TabMeta) (rows : List Bytes) (selCol : TabCol) :
    Prop where
  reopens : db.Reopens (.sort (.scan (tableScan db.cat t)) selCol false)
  sorts : ∃ col, findCol tab.cols selCol = some col ∧ ∀ row ∈ rows, (col.read row).isSome

/-- The merge gets its inputs from the scans, or from sorts that find their records again. -/
def MergeRuns (db : Database) (a b : String) (tabA tabB : TabMeta) (rowsA rowsB : List Bytes)
    (cond : Condition) : Prop :=
  (tableScan db.cat a).indexScan = true ∨
    SortRuns db a tabA rowsA cond.lhsCol ∧ SortRuns db b tabB rowsB cond.rhsCol

/-- Conditions that the merge is made for: one equality between columns that lie at the same place
of their records, where every record has a value that can be ordered, and inputs that come in the
order of these values, from an index or from a sort of at most two blocks that no value stands in
both of. -/
structure MergeFits (cat : Catalog) (tabA tabB : TabMeta) (rowsA rowsB : List Bytes)
    (cond : Condition) (more : List Condition) (colA colB : ColMeta) : Prop where
  one : more = []
  op : cond.op = .eq
  lhs : findCol tabA.cols cond.lhsCol = some colA
  rhs : findCol tabB.cols cond.rhsCol = some colB
  place : colA.SamePlace colB
  keysA : ∀ row ∈ rowsA, (colA.key? row).isSome
  keysB : ∀ row ∈ rowsB, (colB.key? row).isSome
  order : if (tableScan cat cond.lhsCol.tabName).indexScan then
      (rowsA.Pairwise fun r r' => colA.key r ≤ colA.key r') ∧
        rowsB.Pairwise fun r r' => colA.key r ≤ colA.key r'
    else
      (SortFits colA false (PAGE_SIZE / tabA.tupleLen) rowsA ∧
          sortNumPages (PAGE_SIZE / tabA.tupleLen) rowsA ≤ 2 * BLOCK_SIZE_MIN) ∧
        SortFits colB false (PAGE_SIZE / tabB.tupleLen) rowsB ∧
          sortNumPages (PAGE_SIZE / tabB.tupleLen) rowsB ≤ 2 * BLOCK_SIZE_MIN

theorem tableScan_walks {t : String} {exec : Executor} {rows : List Bytes}
    (h : (Plan.scan (tableScan db.cat t)).Yields db fuel exec rows) :
    ∃ At, exec.cursor.Walks exec.init rows At := by
  have hsteady : (Plan.scan (tableScan db.cat t)).Steady db fuel := tableScan_settled db t
  exact hsteady.walks h

theorem join_yields {sortMerge : Bool} {planA planB : Plan} {conds : List Condition}
    {rows : List Bytes} (hA : convertPlanExecutor db fuel planA = some scanA)
    (hB : convertPlanExecutor db fuel planB = some scanB)
    (hrows : (if sortMerge then sortMergeExecutor fuel scanA scanB conds
      else nestedLoopJoinExecutor fuel scanA scanB conds).FirstPass rows) :
    ∃ exec, (Plan.join sortMerge planA planB conds).Yields db fuel exec rows := by
  refine ⟨_, ?_, hrows⟩
  rw [convertPlanExecutor, hA, Option.bind_some, hB]
  rfl

namespace TwoTables

variable (h : TwoTables db fuel tables a b tabA tabB scanA scanB rowsA rowsB)

include h

theorem cols : scanA.cols = tabA.cols ∧ scanA.tupleLen = tabA.tupleLen ∧ scanB.cols = tabB.cols ∧
    scanB.tupleLen = tabB.tupleLen := by
  obtain ⟨hcolsA, hlenA⟩ := convert_scan_cols h.yieldsA.1 h.catA
  obtain ⟨hcolsB, hlenB⟩ := convert_scan_cols h.yieldsB.1 h.catB
  exact ⟨hcolsA, hlenA, hcolsB, hlenB⟩

theorem fuels : rowsB.length * rowsA.length ≤ fuel ∧ rowsB.length + rowsA.length ≤ fuel ∧
    rowsA.length ≤ fuel ∧ rowsB.length ≤ fuel := by
  have := h.fuel
  refine ⟨?_, ?_, ?_, ?_⟩
  · nlinarith
  · nlinarith
  · nlinarith
  · nlinarith

theorem plan (knobs : JoinKnobs) (hconds : JoinConds a b cond more)
    (hknobs : knobs.nestedloop = true ∨ knobs.sortmerge = true) :
    ∃ more', makeOneRel db.cat knobs (fun _ s => .scan s) tables (cond :: more) =
        some (joinPlan knobs (.scan (tableScan db.cat a)) (.scan (tableScan db.cat b)) cond more') ∧
      (more = [] → more' = []) :=
  makeOneRel_between h.distinct h.tables (by rw [h.catA]; rfl) (by rw [h.catB]; rfl) hconds.lhsTab
    hconds.rhsTab hconds.between hknobs

/-- Nothing is joined to an empty table. -/
theorem nestedLoop_empty (hnil : rowsA = [] ∨ rowsB = []) (more : List Condition) :
    ∃ exec, (joinPlan ⟨true, false⟩ (.scan (tableScan db.cat a)) (.scan (tableScan db.cat b)) cond
      more).Yields db fuel exec [] := by
  obtain ⟨AtA, hA⟩ := tableScan_walks h.yieldsA
  obtain ⟨AtB, hB⟩ := tableScan_walks h.yieldsB
  have hpairs : rowsB ×ˢ rowsA = [] := by
    rcases hnil with rfl | rfl
    · exact List.product_nil rowsB
    · rfl
  refine join_yields h.yieldsA.1 h.yieldsB.1 ?_
  have hdelivers := @nestedLoopCursor_delivers scanB.cursor scanA.cursor
    (evalConds (joinCols scanB scanA) (cond :: more)) scanB.init scanA.init rowsB rowsA AtB AtA
    (fun _ => false) fuel hB hA (by simp [hpairs]) (by simp [hpairs])
  rw [hpairs] at hdelivers
  exact hdelivers

theorem sortMerge_empty (hruns : MergeRuns db a b tabA tabB rowsA rowsB cond)
    (hnil : rowsA = [] ∨ rowsB = []) (more : List Condition) :
    ∃ exec, (joinPlan ⟨false, true⟩ (.scan (tableScan db.cat a)) (.scan (tableScan db.cat b)) cond
      more).Yields db fuel exec [] := by
  obtain ⟨AtA, hA⟩ := tableScan_walks h.yieldsA
  obtain ⟨AtB, hB⟩ := tableScan_walks h.yieldsB
  obtain ⟨hcolsA, hlenA, hcolsB, hlenB⟩ := h.cols
  obtain ⟨-, -, hfuelA, hfuelB⟩ := h.fuels
  cases hidx : (tableScan db.cat a).indexScan with
  | true =>
    have hplan : joinPlan ⟨false, true⟩ (.scan (tableScan db.cat a)) (.scan (tableScan db.cat b))
        cond more = .join true (.scan (tableScan db.cat a)) (.scan (tableScan db.cat b))
          (cond :: more) := by simp [joinPlan, Plan.isIndexScan, hidx]
    rw [hplan]
    refine join_yields h.yieldsA.1 h.yieldsB.1 ?_
    refine sortMergeCursor_empty (hB.map fun _ => ()) (hA.map fun _ => ()) ?_ (by simpa using hfuelB)
      (by simpa using hfuelA)
    exact hnil.symm.imp (fun h => by rw [h]; rfl) fun h => by rw [h]; rfl
  | false =>
    have hplan : joinPlan ⟨false, true⟩ (.scan (tableScan db.cat a)) (.scan (tableScan db.cat b))
        cond more = .join true (.sort (.scan (tableScan db.cat a)) cond.lhsCol false)
          (.sort (.scan (tableScan db.cat b)) cond.rhsCol false) [cond] := by
      simp [joinPlan, Plan.isIndexScan, hidx]
    rw [hplan]
    obtain ⟨hsA, hsB⟩ := hruns.resolve_left (by simp [hidx])
    obtain ⟨colA, hcolA, hreadA⟩ := hsA.sorts
    obtain ⟨colB, hcolB, hreadB⟩ := hsB.sorts
    obtain ⟨sortA, hsortA, CountA, hcountA⟩ := sortExecutor_counts hA (hcolsA ▸ hcolA) hreadA
      (hlenA ▸ h.fitsA) hfuelA hsA.reopens
      (db.otherPages (.sort (.scan (tableScan db.cat a)) cond.lhsCol false))
    obtain ⟨sortB, hsortB, CountB, hcountB⟩ := sortExecutor_counts hB (hcolsB ▸ hcolB) hreadB
      (hlenB ▸ h.fitsB) hfuelB hsB.reopens
      (db.otherPages (.sort (.scan (tableScan db.cat b)) cond.rhsCol false))
    refine @join_yields db fuel sortA sortB true _ _ [cond] [] ?_ ?_ ?_
    · rw [convertPlanExecutor, h.yieldsA.1]
      exact hsortA
    · rw [convertPlanExecutor, h.yieldsB.1]
      exact hsortB
    · refine sortMergeCursor_empty hcountB hcountA ?_ (by simpa using hfuelB) (by simpa using hfuelA)
      exact hnil.symm.imp (fun h => by rw [h]; rfl) fun h => by rw [h]; rfl

section Fits

variable (hconds : JoinConds a b cond more)
  (hfits : MergeFits db.cat tabA tabB rowsA rowsB cond more colA colB)

include hconds hfits

theorem sides : JoinSides scanB scanA cond colA colB rowsB rowsA := by
  obtain ⟨hcolsA, -, hcolsB, hlenB⟩ := h.cols
  refine ⟨hfits.op, (hconds.between cond List.mem_cons_self).isCol, hcolsA ▸ hfits.lhs,
    hcolsB ▸ hfits.rhs, ?_, hfits.place, fun row hrow => (h.recordsB row hrow).trans hlenB.symm, ?_,
    hfits.keysA⟩
  · -- no column of the other table has the name
    refine List.find?_eq_none.mpr fun col hcol => ?_
    rw [hcolsB] at hcol
    have hname := h.namesB col hcol
    simp [hname, hconds.lhsTab, h.distinct.symm]
  · intro row hrow
    rw [ColMeta.key?, ← hfits.place.read]
    exact hfits.keysB row hrow

theorem nestedLoop_pairs :
    ∃ exec, (joinPlan ⟨true, false⟩ (.scan (tableScan db.cat a)) (.scan (tableScan db.cat b))
      cond []).Yields db fuel exec ((joinPairs colA.key colA.key rowsB rowsA).map joinPairRow) := by
  obtain ⟨AtA, hA⟩ := tableScan_walks h.yieldsA
  obtain ⟨AtB, hB⟩ := tableScan_walks h.yieldsB
  exact join_yields h.yieldsA.1 h.yieldsB.1 ((h.sides hconds hfits).nestedLoop hB hA h.fuels.1)

theorem sortMerge_pairs (hruns : MergeRuns db a b tabA tabB rowsA rowsB cond) :
    ∃ exec sortedA sortedB, sortedA.Perm rowsA ∧ sortedB.Perm rowsB ∧
      (sortedA.Pairwise fun r r' => colA.key r ≤ colA.key r') ∧
      (sortedB.Pairwise fun r r' => colA.key r ≤ colA.key r') ∧
      (joinPlan ⟨false, true⟩ (.scan (tableScan db.cat a)) (.scan (tableScan db.cat b))
        cond []).Yields db fuel exec
        ((mergeJoin (compareKeys colA.key colA.key) sortedB sortedA).map joinPairRow) := by
  obtain ⟨AtA, hA⟩ := tableScan_walks h.yieldsA
  obtain ⟨AtB, hB⟩ := tableScan_walks h.yieldsB
  obtain ⟨hcolsA, hlenA, hcolsB, hlenB⟩ := h.cols
  obtain ⟨-, hfuel, hfuelA, hfuelB⟩ := h.fuels
  have hsides := h.sides hconds hfits
  have horder := hfits.order
  rw [hconds.lhsTab] at horder
  cases hidx : (tableScan db.cat a).indexScan with
  | true =>
    rw [hidx, if_pos rfl] at horder
    obtain ⟨exec, hexec⟩ :=
      @join_yields db fuel scanA scanB true _ _ [cond] _ h.yieldsA.1 h.yieldsB.1
        (hsides.sortMerge hB hA hfuel)
    refine ⟨exec, rowsA, rowsB, List.Perm.refl _, List.Perm.refl _, horder.1, horder.2, ?_⟩
    simpa [joinPlan, Plan.isIndexScan, hidx] using hexec
  | false =>
    rw [hidx, if_neg (by simp)] at horder
    obtain ⟨hsA, hsB⟩ := hruns.resolve_left (by simp [hidx])
    obtain ⟨sortA, sortedA, hsortA, hsortColsA, hsortLenA, ⟨AtSA, hSA⟩, hpermA, hpairA⟩ :=
      @sortExecutor_walks fuel scanA rowsA AtA colA cond.lhsCol hA (hcolsA ▸ hfits.lhs)
        hfits.keysA (hlenA ▸ h.fitsA) (hlenA ▸ horder.1.1) (hlenA ▸ horder.1.2) hfuelA _
        hsA.reopens
        (db.otherPages (.sort (.scan (tableScan db.cat a)) cond.lhsCol false))
    obtain ⟨sortB, sortedB, hsortB, hsortColsB, hsortLenB, ⟨AtSB, hSB⟩, hpermB, hpairB⟩ :=
      @sortExecutor_walks fuel scanB rowsB AtB colB cond.rhsCol hB (hcolsB ▸ hfits.rhs)
        hfits.keysB (hlenB ▸ h.fitsB) (hlenB ▸ horder.2.1) (hlenB ▸ horder.2.2) hfuelB _
        hsB.reopens
        (db.otherPages (.sort (.scan (tableScan db.cat b)) cond.rhsCol false))
    have hsides' := hsides.perm hsortColsB hsortColsA hsortLenB hpermB hpermA
    have hlen : sortedB.length + sortedA.length ≤ fuel := by
      rw [hpermA.length_eq, hpermB.length_eq]
      exact hfuel
    have hconvertA : convertPlanExecutor db fuel (.sort (.scan (tableScan db.cat a)) cond.lhsCol
        false) = some sortA := by
      rw [convertPlanExecutor, h.yieldsA.1]
      exact hsortA
    have hconvertB : convertPlanExecutor db fuel (.sort (.scan (tableScan db.cat b)) cond.rhsCol
        false) = some sortB := by
      rw [convertPlanExecutor, h.yieldsB.1]
      exact hsortB
    obtain ⟨exec, hexec⟩ := @join_yields db fuel sortA sortB true _ _ [cond] _ hconvertA hconvertB
      (hsides'.sortMerge hSB hSA hlen)
    have hkey : ∀ row, colB.key row = colA.key row := by
      intro row
      rw [ColMeta.key, ColMeta.key, ColMeta.key?, ColMeta.key?, hfits.place.read]
    refine ⟨exec, sortedA, sortedB, hpermA, hpermB, hpairA, ?_, ?_⟩
    · exact hpairB.imp fun {r r'} hle => by rwa [hkey, hkey] at hle
    · simpa [joinPlan, Plan.isIndexScan, hidx] using hexec

/-- Where the merge fits, the two plans agree exactly when each record of the table on the right of
the condition that has a partner is the only one with its value. -/
theorem agree_iff (hruns : MergeRuns db a b tabA tabB rowsA rowsB cond) :
    JoinsAgree db fuel tables (cond :: more) ↔ OnePartner colA.key colA.key rowsB rowsA := by
  obtain ⟨execN, hnested⟩ := h.nestedLoop_pairs hconds hfits
  obtain ⟨execM, sortedA, sortedB, hpermA, hpermB, hpairA, hpairB, hmerge⟩ :=
    h.sortMerge_pairs hconds hfits hruns
  have hiff := @map_mergeJoin_perm_iff _ _ _ _ colA.key colA.key rowsB sortedB rowsA sortedA _
    joinPairRow hpermB hpermA hpairB hpairA
  obtain ⟨moreN, hplanN, hnilN⟩ := h.plan ⟨true, false⟩ hconds (Or.inl rfl)
  obtain ⟨moreM, hplanM, hnilM⟩ := h.plan ⟨false, true⟩ hconds (Or.inr rfl)
  rw [hnilN hfits.one] at hplanN
  rw [hnilM hfits.one] at hplanM
  constructor
  · rintro ⟨nested, merge, execN', execM', rowsN, rowsM, hN, hM, hyieldsN, hyieldsM, hperm⟩
    cases hplanN.symm.trans hN
    cases hplanM.symm.trans hM
    rw [hyieldsN.unique hnested, hyieldsM.unique hmerge] at hperm
    exact hiff.mp hperm
  · intro hone
    exact ⟨_, _, execN, execM, _, _, hplanN, hplanM, hnested, hmerge, hiff.mpr hone⟩

end Fits

end TwoTables

end Agreement

/-- `a.x = b.x`. -/
def sameX : Condition := ⟨⟨"a", "x"⟩, .eq, false, ⟨"b", "x"⟩, none⟩

theorem joinConds_sameX : JoinConds "a" "b" sameX [] :=
  ⟨rfl, rfl, fun c hc => by
    rw [List.mem_singleton.mp hc]
    exact ⟨rfl, Or.inl ⟨rfl, rfl⟩⟩⟩

def sameXRows : TableFile :=
  ⟨[(⟨1, 0⟩, [2, 0, 0, 0, 5, 0, 0, 0]), (⟨1, 1⟩, [2, 0, 0, 0, 7, 0, 0, 0])], by decide⟩

end Grmdb
