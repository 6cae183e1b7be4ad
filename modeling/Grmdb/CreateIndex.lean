import Grmdb.InsertExecutor
import Grmdb.SmMeta

namespace Grmdb

/-- What `create_index` reads and changes: the catalog entry of the table, `ihs_`, and which files
there are. -/
structure SmState where
  tab : TabMeta
  ihs : String → Option TabIndex
  files : String → Bool

inductive CreateIndexError where
  | indexExists
  | lockConflict
  | columnNotFound (colName : String)
  | fileExists
  | invalidColLength (len : Nat)
  | indexEntryExists
  deriving DecidableEq, Repr

/-- The first loop of `create_index`: the columns with their offsets in the key. -/
def indexCols (tab : TabMeta) (curOffset : Nat) :
    List String → Except CreateIndexError (List ColMeta)
  | [] => .ok []
  | colName :: colNames =>
    match tab.getCol colName with
    | none => .error (.columnNotFound colName)
    | some col => do
      let rest ← indexCols tab (curOffset + col.len) colNames
      return { col with offset := curOffset } :: rest

/-- `IxManager::create_index` as far as the files go. The length of the key is looked at when the
file is there. -/
def createIndexFile (files : String → Bool) (ixName : String) (cols : List ColMeta) :
    (String → Bool) × Option CreateIndexError :=
  if files ixName then (files, some .fileExists)
  else
    let colTotLen := (cols.map ColMeta.len).sum
    (Function.update files ixName true,
      if IX_MAX_COL_LEN < colTotLen then some (.invalidColLength colTotLen) else none)

/-- The new index: where its columns lie in the records of the table, and no entry. -/
def emptyIndex (tab : TabMeta) (colNames : List String) : TabIndex :=
  ⟨colNames.filterMap fun colName => (tab.getCol colName).map fun col => ⟨col.offset, col.len⟩,
    fun _ => none⟩

/-- The loop that fills the index from the rows in the order of the scan. -/
def fillIndex (ix : TabIndex) : List (Rid × Bytes) → TabIndex × Option CreateIndexError
  | [] => (ix, none)
  | (rid, rec) :: rows =>
    match ix.insertEntry (ix.key rec) rid with
    | none => (ix, some .indexEntryExists)
    | some ix => fillIndex ix rows

/-- `SmManager::create_index` on a table with these rows; `granted` says whether
`lock_exclusive_on_table` returns. The state is the one that is left when it throws. -/
def SmState.createIndex (s : SmState) (colNames : List String) (granted : Bool)
    (rows : List (Rid × Bytes)) : SmState × Option CreateIndexError :=
  if s.tab.isIndex colNames then (s, some .indexExists)
  else if granted = false then (s, some .lockConflict)
  else
    match indexCols s.tab 0 colNames with
    | .error e => (s, some e)
    | .ok idxCols =>
      let ixName := getIndexName s.tab.name colNames
      match createIndexFile s.files ixName idxCols with
      | (files, some e) => ({ s with files := files }, some e)
      | (files, none) =>
        let newMeta : IndexMeta :=
          ⟨s.tab.name, (idxCols.map ColMeta.len).sum, colNames.length, idxCols⟩
        let tab := { s.tab with indexes := s.tab.indexes ++ [newMeta] }
        -- `emplace` leaves a handle that is already there
        let ix := (s.ihs ixName).getD (emptyIndex s.tab colNames)
        let (ix, e) := fillIndex ix rows
        (⟨tab, Function.update s.ihs ixName (some ix), files⟩, e)

section Parts

variable {tab : TabMeta} {colNames : List String}

theorem indexCols_eq_ok_iff {curOffset : Nat} :
    (∃ cols, indexCols tab curOffset colNames = .ok cols) ↔
      ∀ colName ∈ colNames, tab.isCol colName = true := by
  induction colNames generalizing curOffset with
  | nil => simp [indexCols]
  | cons colName colNames ih =>
    rw [List.forall_mem_cons, ← tab.getCol_isSome]
    cases hcol : tab.getCol colName with
    | none => simp [indexCols, hcol]
    | some col =>
      simp only [indexCols, hcol, Option.isSome_some, true_and, ← @ih (curOffset + col.len)]
      cases indexCols tab (curOffset + col.len) colNames <;>
        simp [bind, Except.bind, pure, Except.pure]

end Parts

namespace SmState

variable {s s' : SmState} {colNames : List String} {granted : Bool} {rows : List (Rid × Bytes)}

/-- `create_index` stops before it makes the file. -/
def RefusedEarly (s : SmState) (colNames : List String) (granted : Bool) : Prop :=
  s.tab.isIndex colNames = true ∨ granted = false ∨
    (∃ colName ∈ colNames, s.tab.isCol colName = false) ∨
    s.files (getIndexName s.tab.name colNames) = true

theorem createIndex_refused (h : s.RefusedEarly colNames granted) :
    ∃ e, s.createIndex colNames granted rows = (s, some e) := by
  unfold createIndex
  split
  next => exact ⟨_, rfl⟩
  next hindex =>
    split
    next => exact ⟨_, rfl⟩
    next hlock =>
      split
      next e _ => exact ⟨e, rfl⟩
      next idxCols hcols =>
        have hall := indexCols_eq_ok_iff.mp ⟨idxCols, hcols⟩
        have hfile : s.files (getIndexName s.tab.name colNames) = true := by
          rcases h with h | h | ⟨colName, hmem, h⟩ | h
          · exact absurd h hindex
          · exact absurd h hlock
          · rw [hall colName hmem] at h
            cases h
          · exact h
        exact ⟨.fileExists, by simp [createIndexFile, hfile]⟩

/-- Behind the early checks the file is made; catalog entry and handle come next and stay when the
fill loop throws. -/
theorem createIndex_late (h : ¬ s.RefusedEarly colNames granted) :
    ∃ idxCols, indexCols s.tab 0 colNames = .ok idxCols ∧
      let ixName := getIndexName s.tab.name colNames
      let files := Function.update s.files ixName true
      let len := (idxCols.map ColMeta.len).sum
      let filled := fillIndex ((s.ihs ixName).getD (emptyIndex s.tab colNames)) rows
      s.createIndex colNames granted rows =
        if IX_MAX_COL_LEN < len then ({ s with files := files }, some (.invalidColLength len))
        else
          (⟨{ s.tab with
              indexes := s.tab.indexes ++ [⟨s.tab.name, len, colNames.length, idxCols⟩] },
            Function.update s.ihs ixName (some filled.1), files⟩, filled.2) := by
  simp only [RefusedEarly, not_or, not_exists, not_and, Bool.not_eq_true, Bool.not_eq_false] at h
  obtain ⟨hindex, hlock, hall, hfile⟩ := h
  have hok : ∃ cols, indexCols s.tab 0 colNames = .ok cols := indexCols_eq_ok_iff.mpr hall
  obtain ⟨idxCols, hcols⟩ := hok
  refine ⟨idxCols, hcols, ?_⟩
  simp only [createIndex, hindex, hlock, hcols, createIndexFile, hfile, Bool.false_eq_true,
    Bool.true_eq_false, if_false]
  by_cases hlen : IX_MAX_COL_LEN < (idxCols.map ColMeta.len).sum
  · simp only [hlen, if_true]
  · simp only [hlen, if_false]

/-- A `create_index` that throws leaves catalog, handles and files as they were exactly if it has
not come to the file. -/
theorem createIndex_atomic_iff (s s' : SmState) (colNames : List String) (granted : Bool)
    (rows : List (Rid × Bytes)) (e : CreateIndexError)
    (h : s.createIndex colNames granted rows = (s', some e)) :
    s' = s ↔ s.RefusedEarly colNames granted := by
  constructor
  · rintro rfl
    by_contra hlate
    obtain ⟨idxCols, -, hrun⟩ := @createIndex_late s' colNames granted rows hlate
    have hmade : s'.files (getIndexName s'.tab.name colNames) = true := by
      have hfiles := congrArg (fun r => r.1.files (getIndexName s'.tab.name colNames))
        (h.symm.trans hrun)
      by_cases hlen : IX_MAX_COL_LEN < (idxCols.map ColMeta.len).sum
      · simpa [hlen] using hfiles
      · simpa [hlen] using hfiles
    exact hlate (Or.inr (Or.inr (Or.inr hmade)))
  · intro hearly
    obtain ⟨e', he'⟩ := @createIndex_refused s colNames granted rows hearly
    cases h.symm.trans he'
    rfl

/-- A table with two one-byte columns and nothing indexed. -/
def plainTab : SmState :=
  ⟨⟨"t", [⟨"t", "a", .string, 1, 0⟩, ⟨"t", "b", .string, 1, 1⟩], []⟩, fun _ => none, fun _ => false⟩

theorem createIndex_unknown_column :
    (plainTab.createIndex ["a", "c"] true []).2 = some (.columnNotFound "c") ∧
      (plainTab.createIndex ["a", "c"] true []).1 = plainTab := by
  refine ⟨by decide +kernel, ?_⟩
  refine (createIndex_atomic_iff plainTab _ ["a", "c"] true [] (.columnNotFound "c") ?_).mpr ?_
  · exact Prod.ext rfl (by decide +kernel)
  · exact Or.inr (Or.inr (Or.inl ⟨"c", by simp, by decide +kernel⟩))

/-- Two rows with the same key: the half-filled index stays in the catalog and in `ihs_`, and a
retry is refused. -/
theorem createIndex_duplicate_key :
    let r := plainTab.createIndex ["a"] true [(⟨1, 0⟩, [1, 1]), (⟨1, 1⟩, [1, 2])]
    r.2 = some .indexEntryExists ∧ r.1.tab.isIndex ["a"] = true ∧ r.1.files "t_a.idx" = true ∧
      ((r.1.ihs "t_a.idx").bind fun ix => ix.map [1]) = some ⟨1, 0⟩ ∧ r.1 ≠ plainTab ∧
      (r.1.createIndex ["a"] true []).2 = some .indexExists := by
  intro r
  have hindex : r.1.tab.isIndex ["a"] = true := by decide +kernel
  refine ⟨by decide +kernel, hindex, by decide +kernel, by decide +kernel, fun heq => ?_,
    by decide +kernel⟩
  rw [heq] at hindex
  exact absurd hindex (by decide +kernel)

end SmState

end Grmdb
