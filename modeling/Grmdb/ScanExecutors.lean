import Grmdb.Cursor
import Grmdb.IndexScanRows

namespace Grmdb

open ByteLayout

/-- The records of a table in the order in which `RmScan` goes through them. -/
structure TableFile where
  rows : List (Rid × Bytes)
  nodup : (rows.map Prod.fst).Nodup

def TableFile.getRecord (file : TableFile) (rid : Rid) : Option Bytes :=
  (file.rows.find? fun row => row.1 = rid).map Prod.snd

/-- When the hash table of an aggregation takes the hash of a key: for a search, for a new entry,
which keeps it, and to erase entries. -/
inductive HashMoment where
  | lookup
  | insert
  | erase
  deriving DecidableEq, Repr

/-- What `generate_aggr_key` leaves to chance in a value: the number of its union, which is not set,
and the bytes that lie behind its raw data. -/
structure FreshValue where
  num : UInt32
  behind : HashMoment → Bytes

/-- The chance parts of a key, by column. -/
abbrev FreshKey : Type := Nat → FreshValue

/-- The tree of an index over INT and CHAR columns, as calls of `insert_entry` and `delete_entry`
have made it. -/
structure IndexTree (index : IndexMeta) where
  plain : ∀ col ∈ index.cols, col.type = .int ∨ col.type = .string
  fits : colTotLen index.ixCols ≤ IX_MAX_COL_LEN
  file : IxFile (IxKey index.ixCols)
  made : IndexRun (IxLayout.ofCols index.ixCols fits) file

def IndexTree.layout {index : IndexMeta} (tree : IndexTree index) : IxLayout (IxKey index.ixCols) :=
  IxLayout.ofCols index.ixCols tree.fits

/-- What the executors work on: the catalog, the unchanged tables and the trees of their indexes.
What the source leaves to the compiler, the library, the memory or the operating system is kept
open: the sum of two floats, `std::hash<std::string>`, the chance parts of the keys that an
aggregation generates, by the number of keys generated before, the type of a condition's `rhs_val`
that is not set, by the position of the condition, and what an executor finds in its n-th run: the
keys that `new char[]` hands to an index scan, the descriptor under which a sort opens its temporary
file, and what the buffer pool holds for the page numbers of the sort under a descriptor that is not
the one of its first run, where reading may fail. -/
structure Database where
  cat : Catalog
  files : String → Option TableFile
  trees : String → (index : IndexMeta) → Option (IndexTree index)
  addFloat : UInt32 → UInt32 → UInt32
  strHash : Bytes → UInt64
  freshKeys : Nat → FreshKey
  unsetType : ScanPlan → Nat → Option ColType
  keyBuffers : ScanPlan → Nat → (cols : List IxCol) → GapBuffers cols
  tmpFd : Plan → Nat → Nat
  otherPages : Plan → Nat → Option (Nat → Option Bytes)

/-- An executor that is built: its columns, the length that it reports for its records, its calls
and the state that its constructor leaves. -/
structure Executor where
  cols : List ColMeta
  tupleLen : Nat
  cursor : Cursor Bytes
  init : cursor.State

section Scan

/-- `scan_` as what is left of the table, `rid_`, `is_end_` and `last_rid_`. -/
structure ScanState where
  scan : List (Rid × Bytes)
  rid : Option Rid
  isEnd : Bool
  lastRid : Option Rid

variable (eval : Bytes → Option Bool)

/-- The first loop of `beginTuple`. -/
def findLast : List (Rid × Bytes) → Option Rid → Option (Option Rid)
  | [], lastRid => some lastRid
  | (rid, tuple) :: rows, lastRid =>
    (eval tuple).bind fun ok => findLast rows (if ok then some rid else lastRid)

/-- Its second loop. -/
def findFirst (s : ScanState) : List (Rid × Bytes) → Option ScanState
  | [] => some { s with scan := [], rid := none, isEnd := true }
  | (rid, tuple) :: rows =>
    (eval tuple).bind fun ok =>
      if ok then some { s with scan := rows, rid := some rid, isEnd := false }
      else findFirst s rows

/-- The loop of `nextTuple`. -/
def findNext (s : ScanState) : List (Rid × Bytes) → Option ScanState
  | [] => some { s with scan := [] }
  | (rid, tuple) :: rows =>
    (eval tuple).bind fun ok =>
      let s := { s with scan := rows, rid := some rid }
      if ok then some s else findNext s rows

/-- The calls of `SeqScanExecutor` and of `SubqueryExecutor`, for their `eval_condition`. -/
def scanCursor (file : TableFile) : Cursor Bytes where
  State := ScanState
  start s :=
    (findLast eval file.rows s.lastRid).bind fun lastRid =>
      findFirst eval { s with lastRid := lastRid } file.rows
  advance s :=
    if s.lastRid = s.rid then some { s with isEnd := true } else findNext eval s s.scan
  atEnd s := s.isEnd
  read s := (s.rid.bind file.getRecord).map fun tuple => (tuple, s)

end Scan

def TabMeta.tupleLen (tab : TabMeta) : Nat :=
  (tab.cols.getLast?.map fun col => col.offset + col.len).getD 0

/-- The test that the constructors of the scans make of a condition: the left column is there and
its type goes with the one of `rhs_val`. -/
def TabMeta.takes (tab : TabMeta) (unset : Option ColType) (cond : Condition) : Bool :=
  ((tab.getCol cond.lhsCol.colName).bind fun col =>
    (if cond.isRhsVal then cond.rhsVal.map Value.type else unset).map col.type.compatible) ==
      some true

/-- Whether the constructor gets through all of its conditions; `unset` is what `rhs_val.type`
holds in the i-th one where there is no value. -/
def TabMeta.takesAll (tab : TabMeta) (unset : Nat → Option ColType) (conds : List Condition) : Bool :=
  conds.zipIdx.all fun (cond, i) => tab.takes (unset i) cond

/-- `SeqScanExecutor`. -/
def seqScanExecutor (tab : TabMeta) (file : TableFile) (unset : Nat → Option ColType)
    (conds : List Condition) : Option Executor :=
  if tab.takesAll unset conds then
    some ⟨tab.cols, tab.tupleLen, scanCursor (evalConds tab.cols conds) file,
      ⟨[], none, false, none⟩⟩
  else none

/-- A value of the subquery. It is read from the front of the record; a string ends at its first
zero byte, and one without is read past the end of the record. -/
def subResult (col : ColMeta) (record : Bytes) : Option Value :=
  match col.type with
  | .int => if 4 ≤ record.length then some (.int (readInt record)) else none
  | .float =>
    if 4 ≤ record.length then some (.float (UInt32.ofNat (readNat (record.take 4)))) else none
  | .string =>
    let strVal := record.takeWhile (· ≠ 0)
    if 0 ∈ record ∧ strVal.length ≤ col.len then some (.string strVal) else none
  | .datetime => none

/-- The `find_if` of an IN clause. -/
def inResults (left : Value) : List Value → Option Bool
  | [] => some false
  | val :: vals => (left.comp val .eq).bind fun ok => if ok then some true else inResults left vals

def evalSubquery (cols : List ColMeta) (clause : SubQueryClause) (results : List Value)
    (tuple : Bytes) : Option Bool :=
  (getValue cols clause.lhs tuple).bind fun left =>
    if clause.inClause then inResults left results
    else clause.op.bind fun op => results.head?.bind fun val => left.comp val op

/-- The values that the constructor of `SubqueryExecutor` takes out of its subquery. -/
def subResults (fuel : Nat) (sub : Executor) (col : ColMeta) : Option (List Value) :=
  (sub.cursor.start sub.init).bind fun s =>
    (sub.cursor.collect fuel s).bind fun (records, _) => records.mapM (subResult col)

/-- `eval_condition` of `SubqueryExecutor`. -/
def evalWithSubquery (cols : List ColMeta) (clause : SubQueryClause) (results : List Value)
    (conds : List Condition) (tuple : Bytes) : Option Bool :=
  (evalSubquery cols clause results tuple).bind fun ok =>
    if ok then evalConds cols conds tuple else some false

def subqueryExecutor (fuel : Nat) (tab : TabMeta) (file : TableFile) (conds : List Condition)
    (clause : SubQueryClause) (sub : Executor) : Option Executor :=
  match sub.cols with
  | [col] =>
    (tab.getCol clause.lhs.colName).bind fun lhs =>
      if lhs.type.compatible col.type then
        (subResults fuel sub col).bind fun results =>
          if clause.inClause = false ∧ results.length ≠ 1 then none
          else
            some ⟨tab.cols, tab.tupleLen,
              scanCursor (evalWithSubquery tab.cols clause results conds) file,
              ⟨[], none, false, none⟩⟩
      else none
  | _ => none

section IndexScan

/-- The variables of `IndexScanExecutor`, and how often it has been started. -/
structure IndexScanState where
  exec : IndexScanExecutor
  starts : Nat

variable {index : IndexMeta} (file : TableFile) (tree : IndexTree index) (conds : List Condition)
  (bufs : Nat → GapBuffers index.ixCols)

/-- The calls of `IndexScanExecutor`; `bufs n` are the keys of the n-th start. A subquery is not
asked. -/
def indexScanCursor : Cursor Bytes where
  State := IndexScanState
  start s :=
    (IndexScanExecutor.beginTuple tree.layout tree.file conds (bufs s.starts) s.exec.rid).map
      fun exec => ⟨exec, s.starts + 1⟩
  advance s := (s.exec.nextTuple tree.layout tree.file).map fun exec => { s with exec := exec }
  atEnd s := s.exec.isEnd
  read s := (file.getRecord s.exec.rid).map fun tuple => (tuple, s)

end IndexScan

/-- The conditions of an index scan with their columns of the table on the left. -/
def swapConds (tabName : String) (conds : List Condition) : Option (List Condition) :=
  conds.mapM fun cond =>
    if cond.lhsCol.tabName = tabName then some cond
    else if !cond.isRhsVal ∧ cond.rhsCol.tabName = tabName then some cond.swap
    else none

/-- `IndexScanExecutor` for the plan `s`. `beginTuple` looks up the handle of the index, which every
index has. The constructor makes floats of INT literals for FLOAT columns, which no index of the
model has. -/
def indexScanExecutor (db : Database) (s : ScanPlan) (tab : TabMeta) (file : TableFile) :
    Option Executor :=
  (tab.getIndexMeta s.indexColNames).bind fun index =>
    (db.trees s.tabName index).bind fun tree =>
      (swapConds s.tabName s.conds).bind fun conds =>
        if tab.takesAll (db.unsetType s) conds then
          some ⟨tab.cols, tab.tupleLen,
            indexScanCursor file tree conds fun n => db.keyBuffers s n index.ixCols,
            ⟨⟨⟨⟨0, 0⟩, ⟨0, 0⟩⟩, false, ⟨0, 0⟩⟩, 0⟩⟩
        else none

def valuesCursor (values : List Value) (len : Nat) : Cursor Bytes where
  State := List Value
  start _ := some values
  advance s :=
    match s with
    | [] => none
    | _ :: rest => some rest
  atEnd s := s.isEmpty
  read s := s.head?.bind fun val => if val.fits len then some (val.raw len, s) else none

def valuesExecutor (values : List Value) (col : ColMeta) : Executor :=
  ⟨[{ col with offset := 0 }], col.len, valuesCursor values col.len, []⟩

/-- The columns one after the other, from `offset` on. -/
def placeCols : Nat → List ColMeta → List ColMeta
  | _, [] => []
  | offset, col :: cols => { col with offset := offset } :: placeCols (offset + col.len) cols

def renameCols : List ColMeta → List TabCol → List ColMeta
  | col :: cols, name :: names => { col with name := name.colName } :: renameCols cols names
  | cols, _ => cols

def projectTuple (picked : List ColMeta) (tuple : Bytes) : Bytes :=
  picked.flatMap fun col => (tuple.drop col.offset).take col.len

/-- `ProjectionExecutor`. It does not override `tupleLen`. -/
def projectionExecutor (prev : Executor) (selCols names : List TabCol) : Option Executor :=
  (selCols.mapM (findCol prev.cols)).map fun picked =>
    ⟨renameCols (placeCols 0 picked) names, 0, prev.cursor.map (projectTuple picked), prev.init⟩

section Built

variable {tab : TabMeta} {file : TableFile} {exec : Executor}

theorem eq_of_seqScanExecutor {unset : Nat → Option ColType} {conds : List Condition}
    (h : seqScanExecutor tab file unset conds = some exec) :
    exec = ⟨tab.cols, tab.tupleLen, scanCursor (evalConds tab.cols conds) file,
      ⟨[], none, false, none⟩⟩ := by
  unfold seqScanExecutor at h
  split at h
  next => exact (Option.some.inj h).symm
  next => cases h

theorem indexScanExecutor_cases {db : Database} {s : ScanPlan}
    (h : indexScanExecutor db s tab file = some exec) :
    ∃ index tree conds, tab.getIndexMeta s.indexColNames = some index ∧
      db.trees s.tabName index = some tree ∧ swapConds s.tabName s.conds = some conds ∧
      exec = ⟨tab.cols, tab.tupleLen,
        indexScanCursor file tree conds fun n => db.keyBuffers s n index.ixCols,
        ⟨⟨⟨⟨0, 0⟩, ⟨0, 0⟩⟩, false, ⟨0, 0⟩⟩, 0⟩⟩ := by
  obtain ⟨index, hmeta, h⟩ := Option.bind_eq_some_iff.mp h
  obtain ⟨tree, htree, h⟩ := Option.bind_eq_some_iff.mp h
  obtain ⟨conds, hconds, h⟩ := Option.bind_eq_some_iff.mp h
  split at h
  next => exact ⟨index, tree, conds, hmeta, htree, hconds, (Option.some.inj h).symm⟩
  next => cases h

end Built

namespace TableFile

variable {file : TableFile} {rid : Rid} {tuple : Bytes}

theorem getRecord_eq (h : (rid, tuple) ∈ file.rows) : file.getRecord rid = some tuple := by
  obtain ⟨row, hrow⟩ : ∃ row, file.rows.find? (fun row => row.1 = rid) = some row := by
    refine Option.isSome_iff_exists.mp (List.find?_isSome.mpr ⟨(rid, tuple), h, ?_⟩)
    exact decide_eq_true rfl
  have hfound := List.find?_some hrow
  have hrid : row.1 = rid := by simpa using hfound
  have hsame : row = (rid, tuple) :=
    List.inj_on_of_nodup_map file.nodup (List.mem_of_find?_eq_some hrow) h hrid
  rw [getRecord, hrow, hsame]
  rfl

end TableFile

section Scan

variable {eval : Bytes → Option Bool} {p : Rid × Bytes → Bool} {rows : List (Rid × Bytes)}
  {s : ScanState} {last : Option Rid}

theorem findLast_eq (hp : ∀ row ∈ rows, eval row.2 = some (p row)) (last : Option Rid) :
    findLast eval rows last = some (((rows.filter p).getLast?.map Prod.fst).or last) := by
  induction rows generalizing last with
  | nil => rfl
  | cons row rows ih =>
    have hhere := hp row List.mem_cons_self
    have hrest := ih (fun row hrow => hp row (List.mem_cons_of_mem _ hrow))
    obtain ⟨rid, tuple⟩ := row
    rw [findLast, hhere, Option.bind_some, hrest]
    cases hok : p (rid, tuple) with
    | false => simp [hok]
    | true =>
      rw [List.filter_cons, if_pos hok, List.getLast?_cons]
      cases (rows.filter p).getLast? with
      | none => simp
      | some row => simp

/-- Where the scan is when the records of `rest` are ahead. -/
def ScanAt (file : TableFile) (p : Rid × Bytes → Bool) : List Bytes → ScanState → Prop
  | [], s => s.isEnd = true
  | r :: rest, s =>
    s.isEnd = false ∧ s.lastRid = (file.rows.filter p).getLast?.map Prod.fst ∧
      ∃ before rid, file.rows = before ++ (rid, r) :: s.scan ∧ s.rid = some rid ∧
        p (rid, r) = true ∧ rest = (s.scan.filter p).map Prod.snd

theorem findFirst_at {file : TableFile} {before : List (Rid × Bytes)}
    (hfile : file.rows = before ++ rows) (hp : ∀ row ∈ rows, eval row.2 = some (p row))
    (hlast : rows.filter p ≠ [] → s.lastRid = (file.rows.filter p).getLast?.map Prod.fst) :
    ∃ s', findFirst eval s rows = some s' ∧ ScanAt file p ((rows.filter p).map Prod.snd) s' := by
  induction rows generalizing before with
  | nil => exact ⟨_, rfl, rfl⟩
  | cons row rows ih =>
    have hhere := hp row List.mem_cons_self
    obtain ⟨rid, tuple⟩ := row
    cases hok : p (rid, tuple) with
    | true =>
      rw [List.filter_cons, if_pos hok] at hlast ⊢
      refine ⟨{ s with scan := rows, rid := some rid, isEnd := false }, ?_, rfl,
        hlast (List.cons_ne_nil _ _), before, rid, hfile, rfl, hok, rfl⟩
      rw [findFirst, hhere, Option.bind_some, if_pos hok]
    | false =>
      have hskip : List.filter p ((rid, tuple) :: rows) = rows.filter p := by
        rw [List.filter_cons, if_neg (by simp [hok])]
      rw [hskip] at hlast ⊢
      obtain ⟨s', hs', hat⟩ := @ih (before ++ [(rid, tuple)]) (by rw [hfile]; simp)
        (fun row hrow => hp row (List.mem_cons_of_mem _ hrow)) hlast
      refine ⟨s', ?_, hat⟩
      rw [findFirst, hhere, Option.bind_some, if_neg (by simp [hok]), hs']

theorem findNext_at {file : TableFile} {before : List (Rid × Bytes)}
    (hfile : file.rows = before ++ rows) (hp : ∀ row ∈ rows, eval row.2 = some (p row))
    (hend : s.isEnd = false) (hlast : s.lastRid = (file.rows.filter p).getLast?.map Prod.fst)
    (hne : rows.filter p ≠ []) :
    ∃ s', findNext eval s rows = some s' ∧ ScanAt file p ((rows.filter p).map Prod.snd) s' := by
  induction rows generalizing before s with
  | nil => exact absurd rfl hne
  | cons row rows ih =>
    have hhere := hp row List.mem_cons_self
    obtain ⟨rid, tuple⟩ := row
    cases hok : p (rid, tuple) with
    | true =>
      refine ⟨{ s with scan := rows, rid := some rid }, ?_, ?_⟩
      · rw [findNext, hhere, Option.bind_some, if_pos hok]
      · rw [List.filter_cons, if_pos hok]
        exact ⟨hend, hlast, before, rid, hfile, rfl, hok, rfl⟩
    | false =>
      have hskip : List.filter p ((rid, tuple) :: rows) = rows.filter p := by
        rw [List.filter_cons, if_neg (by simp [hok])]
      rw [hskip] at hne ⊢
      obtain ⟨s', hs', hat⟩ := @ih { s with scan := rows, rid := some rid }
        (before ++ [(rid, tuple)]) (by rw [hfile]; simp)
        (fun row hrow => hp row (List.mem_cons_of_mem _ hrow)) hend hlast hne
      refine ⟨s', ?_, hat⟩
      rw [findNext, hhere, Option.bind_some, if_neg (by simp [hok]), hs']

/-- A scan goes along the records that it selects, again and again. -/
theorem scanCursor_walks {file : TableFile} (hp : ∀ row ∈ file.rows, eval row.2 = some (p row))
    (s₀ : ScanState) :
    (scanCursor eval file).Walks s₀ ((file.rows.filter p).map Prod.snd) (ScanAt file p) := by
  constructor
  · intro s _
    have hfirst := findLast_eq hp s.lastRid
    have hstart := @findFirst_at eval p file.rows { s with
      lastRid := ((file.rows.filter p).getLast?.map Prod.fst).or s.lastRid } file []
      rfl hp (by
        intro hne
        obtain ⟨row, hrow⟩ := Option.isSome_iff_exists.mp (List.getLast?_isSome.mpr hne)
        simp only [hrow, Option.map_some, Option.some_or])
    obtain ⟨s', hs', hat⟩ := hstart
    refine ⟨s', ?_, hat⟩
    simp only [scanCursor, hfirst, Option.bind_some]
    exact hs'
  · intro rest s hat
    cases rest with
    | nil => exact hat
    | cons r rest => exact hat.1
  · intro r rest s hat
    obtain ⟨hend, hlast, before, rid, hfile, hrid, hok, hrest⟩ := hat
    refine ⟨s, ?_, hend, hlast, before, rid, hfile, hrid, hok, hrest⟩
    have hrec : file.getRecord rid = some r := TableFile.getRecord_eq (by simp [hfile])
    simp only [scanCursor, hrid, Option.bind_some, hrec, Option.map_some]
  · intro r rest s hat
    obtain ⟨hend, hlast, before, rid, hfile, hrid, hok, rfl⟩ := hat
    have hall : file.rows.filter p = before.filter p ++ (rid, r) :: s.scan.filter p := by
      rw [hfile, List.filter_append, List.filter_cons, if_pos hok]
    by_cases hne : s.scan.filter p = []
    · -- the last record that is selected
      have hsame : s.lastRid = s.rid := by
        rw [hlast, hall, hne, hrid]
        simp
      refine ⟨{ s with isEnd := true }, ?_, ?_⟩
      · simp only [scanCursor, hsame, if_true]
      · rw [hne]
        exact rfl
    · obtain ⟨row, hrow⟩ := Option.isSome_iff_exists.mp (List.getLast?_isSome.mpr hne)
      have hdiff : s.lastRid ≠ s.rid := by
        have hlater : row ∈ s.scan := List.mem_of_mem_filter (List.mem_of_getLast? hrow)
        have hnodup := file.nodup
        rw [hfile, List.map_append, List.map_cons] at hnodup
        have hnot := (List.nodup_cons.mp (List.nodup_append.mp hnodup).2.1).1
        rw [hlast, hall, hrid, List.getLast?_append_of_ne_nil _ (List.cons_ne_nil _ _),
          List.getLast?_cons, hrow]
        intro heq
        exact hnot (List.mem_map.mpr ⟨row, hlater, Option.some.inj heq⟩)
      obtain ⟨s', hs', hat'⟩ := @findNext_at eval p s.scan s file (before ++ [(rid, r)])
        (by rw [hfile]; simp) (fun row hrow => hp row (by rw [hfile]; simp [hrow])) hend hlast hne
      refine ⟨s', ?_, hat'⟩
      simp only [scanCursor, hdiff, if_false]
      exact hs'

end Scan

section Others

/-- The scan is at the rids that lead to the records of `rest`. -/
def IndexScanAt {index : IndexMeta} (file : TableFile) (tree : IndexTree index) (rest : List Bytes)
    (s : IndexScanState) : Prop :=
  ∃ fuel rids, s.exec.rids tree.layout tree.file fuel = some rids ∧
    List.Forall₂ (fun rid tuple => file.getRecord rid = some tuple) rids rest

/-- Where the executor is when rids are ahead, and when there are none. -/
theorem IndexScanExecutor.rids_cases {κ : Type} {L : IxLayout κ} {t : IxFile κ}
    {e : IndexScanExecutor} {fuel : Nat} {ids : List Rid} (h : e.rids L t fuel = some ids) :
    (e.isEnd = true ∧ ids = []) ∨
      e.isEnd = false ∧ ∃ next fuel' rest, e.nextTuple L t = some next ∧
        next.rids L t fuel' = some rest ∧ ids = e.rid :: rest := by
  cases hend : e.isEnd with
  | true =>
    refine Or.inl ⟨rfl, ?_⟩
    cases fuel with
    | zero => simpa [rids, hend, eq_comm] using h
    | succ fuel => simpa [rids, hend, eq_comm] using h
  | false =>
    cases fuel with
    | zero => simp [rids, hend] at h
    | succ fuel =>
      simp only [rids, hend, Bool.false_eq_true, if_false] at h
      obtain ⟨next, hnext, h⟩ := Option.bind_eq_some_iff.mp h
      obtain ⟨rest, hrest, rfl⟩ := Option.map_eq_some_iff.mp h
      exact Or.inr ⟨rfl, next, fuel, rest, hnext, hrest, rfl⟩

/-- A scan that reads the same rids in every run goes along their records, again and again. -/
theorem indexScanCursor_walks {index : IndexMeta} {file : TableFile} {tree : IndexTree index}
    {conds : List Condition} {bufs : Nat → GapBuffers index.ixCols} {rids : List Rid}
    {rows : List Bytes}
    (hreads : ∀ n rid, ∃ fuel,
      IndexScanExecutor.enumerate tree.layout tree.file conds (bufs n) rid fuel = some rids)
    (hrows : List.Forall₂ (fun rid tuple => file.getRecord rid = some tuple) rids rows)
    (s₀ : IndexScanState) :
    (indexScanCursor file tree conds bufs).Walks s₀ rows (IndexScanAt file tree) := by
  constructor
  · intro s _
    obtain ⟨fuel, hread⟩ := hreads s.starts s.exec.rid
    obtain ⟨exec, hbegin, hrids⟩ := Option.bind_eq_some_iff.mp hread
    refine ⟨⟨exec, s.starts + 1⟩, ?_, fuel, rids, hrids, hrows⟩
    simp only [indexScanCursor, hbegin, Option.map_some]
  · rintro rest s ⟨fuel, ids, hids, hall⟩
    rcases IndexScanExecutor.rids_cases hids with ⟨hend, rfl⟩ | ⟨hend, next, fuel', ids', -, -, rfl⟩
    · cases hall
      exact hend
    · cases hall
      exact hend
  · rintro r rest s ⟨fuel, ids, hids, hall⟩
    refine ⟨s, ?_, fuel, ids, hids, hall⟩
    rcases IndexScanExecutor.rids_cases hids with ⟨-, rfl⟩ | ⟨-, next, fuel', ids', -, -, rfl⟩
    · cases hall
    · obtain ⟨hrec, -⟩ := List.forall₂_cons.mp hall
      simp only [indexScanCursor, hrec, Option.map_some]
  · rintro r rest s ⟨fuel, ids, hids, hall⟩
    rcases IndexScanExecutor.rids_cases hids with
      ⟨-, rfl⟩ | ⟨-, next, fuel', ids', hnext, hrest, rfl⟩
    · cases hall
    · obtain ⟨-, hall⟩ := List.forall₂_cons.mp hall
      refine ⟨{ s with exec := next }, ?_, fuel', ids', hrest, hall⟩
      simp only [indexScanCursor, hnext, Option.map_some]

/-- The rids of a run are those of its records. -/
theorem indexScanCursor_delivers {index : IndexMeta} {file : TableFile} {tree : IndexTree index}
    {conds : List Condition} {bufs : Nat → GapBuffers index.ixCols} {rows : List Bytes}
    {s : (indexScanCursor file tree conds bufs).State}
    (h : (indexScanCursor file tree conds bufs).Delivers s rows) :
    ∃ fuel rids, s.exec.rids tree.layout tree.file fuel = some rids ∧
      List.Forall₂ (fun rid tuple => file.getRecord rid = some tuple) rids rows := by
  induction h with
  | @nil s hend =>
    have hdone : s.exec.isEnd = true := hend
    exact ⟨0, [], by simp [IndexScanExecutor.rids, hdone], .nil⟩
  | @cons s s' s'' r rest hend hread hadvance _ ih =>
    have hgoes : s.exec.isEnd = false := hend
    obtain ⟨tuple, hrec, heq⟩ := Option.map_eq_some_iff.mp hread
    cases heq
    obtain ⟨next, hnext, rfl⟩ := Option.map_eq_some_iff.mp hadvance
    obtain ⟨fuel, rids, hrids, hall⟩ := ih
    refine ⟨fuel + 1, s.exec.rid :: rids, ?_, .cons hrec hall⟩
    simp [IndexScanExecutor.rids, hgoes, hnext, hrids]

/-- The values that are ahead, as records. -/
def ValuesAt (values : List Value) (len : Nat) (rest : List Bytes) (s : List Value) : Prop :=
  (∀ val ∈ s, val ∈ values) ∧ s.map (Value.raw len) = rest

theorem valuesCursor_walks {values : List Value} {len : Nat} (hfits : ∀ v ∈ values, v.fits len)
    (s₀ : List Value) :
    (valuesCursor values len).Walks s₀ (values.map (Value.raw len)) (ValuesAt values len) := by
  constructor
  · intro s _
    exact ⟨values, rfl, fun val hval => hval, rfl⟩
  · rintro rest s ⟨-, rfl⟩
    exact (List.isEmpty_map).symm
  · rintro r rest s ⟨hsub, hmap⟩
    obtain ⟨val, vals, rfl, rfl, rfl⟩ := List.map_eq_cons_iff.mp hmap
    refine ⟨val :: vals, ?_, hsub, rfl⟩
    have hval := hfits val (hsub val List.mem_cons_self)
    simp [valuesCursor, hval]
  · rintro r rest s ⟨hsub, hmap⟩
    obtain ⟨val, vals, rfl, rfl, rfl⟩ := List.map_eq_cons_iff.mp hmap
    exact ⟨vals, rfl, fun v hv => hsub v (List.mem_cons_of_mem val hv), rfl⟩

end Others

end Grmdb
