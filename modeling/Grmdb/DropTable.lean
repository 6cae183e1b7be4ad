import Grmdb.CreateIndex
import Grmdb.RecordFile

namespace Grmdb

/-- What the calls on tables and indexes read and change: `db_.tabs_`, `fhs_` with its pointers,
`ihs_`, the files that exist and the files that are open. -/
structure SmManager where
  tabs : String → Option TabMeta
  fhs : String → Option (Option Fd)
  ihs : String → Option TabIndex
  files : String → Bool
  opened : String → Bool

structure ColDef where
  name : String
  type : ColType
  len : Nat
  deriving DecidableEq, Repr

/-- `nullHandle` is a member read through a null pointer, `pastEnd` an element read behind the end
of the list: no call goes on after these. -/
inductive SmError where
  | tableExists
  | tableNotFound
  | indexNotFound
  | lockConflict
  | invalidRecordSize (size : Nat)
  | fileExists
  | fileNotFound
  | createIndex (e : CreateIndexError)
  | outOfRange
  | nullHandle
  | pastEnd
  deriving DecidableEq, Repr

/-- The columns with their offsets in the record, from `currOffset` on. -/
def tableCols (tabName : String) : Nat → List ColDef → List ColMeta
  | _, [] => []
  | currOffset, colDef :: colDefs =>
    ⟨tabName, colDef.name, colDef.type, colDef.len, currOffset⟩ ::
      tableCols tabName (currOffset + colDef.len) colDefs

/-- An entry that `operator[]` makes. -/
def TabMeta.empty : TabMeta := ⟨"", [], []⟩

def IndexMeta.colNames (index : IndexMeta) : List String := index.cols.map ColMeta.name

namespace SmManager

/-- `lock_exclusive_on_table` on the file of the table. There is no lock without a context;
`ctx k` is the answer to the call with the number `k`. -/
def lockTable (s : SmManager) (ctx : Option (Nat → Bool)) (k : Nat) (tabName : String) :
    Option SmError :=
  match ctx with
  | none => none
  | some granted =>
    match s.fhs tabName with
    | some (some _) => if granted k then none else some .lockConflict
    | _ => some .nullHandle

def createTable (s : SmManager) (ctx : Option (Nat → Bool)) (fd : Fd) (tabName : String)
    (colDefs : List ColDef) : SmManager × Option SmError :=
  if (s.tabs tabName).isSome then (s, some .tableExists)
  else
    let recordSize := (colDefs.map ColDef.len).sum
    if recordSize < 1 ∨ RM_MAX_RECORD_SIZE < recordSize then
      (s, some (.invalidRecordSize recordSize))
    else if s.files tabName then (s, some .fileExists)
    else
      let s := { s with
        files := Function.update s.files tabName true
        tabs := Function.update s.tabs tabName (some ⟨tabName, tableCols tabName 0 colDefs, []⟩)
        opened := Function.update s.opened tabName true }
      match ctx with
      | some granted =>
        if granted 0 then
          ({ s with fhs := Function.update s.fhs tabName ((s.fhs tabName).or (some (some fd))) },
            none)
        else (s, some .lockConflict)
      | none =>
        ({ s with fhs := Function.update s.fhs tabName ((s.fhs tabName).or (some (some fd))) }, none)

/-- `create_index` on the entry of the table, which `operator[]` makes if there is none. The rows
are read through the handle of the table, after the catalog has the index. -/
def createIndex (s : SmManager) (ctx : Option (Nat → Bool)) (tabName : String)
    (colNames : List String) (rows : List (Rid × Bytes)) : SmManager × Option SmError :=
  let tab := (s.tabs tabName).getD .empty
  let s := { s with tabs := Function.update s.tabs tabName (some tab) }
  let locked := s.lockTable ctx 0 tabName
  if tab.isIndex colNames = false ∧ locked = some .nullHandle then (s, some .nullHandle)
  else
    let held := (s.fhs tabName).isSome
    let (r, e) := (SmState.mk { tab with name := tabName } s.ihs s.files).createIndex colNames
      locked.isNone (if held then rows else [])
    ({ s with
      tabs := Function.update s.tabs tabName (some { r.tab with name := tab.name })
      ihs := r.ihs
      files := r.files
      opened := fun path => s.opened path || (r.files path && !s.files path) },
      match e with
      | some e => some (.createIndex e)
      | none => if held then none else some .outOfRange)

/-- `drop_index`: `close_index` goes through the handle, `destroy_index` removes the file. -/
def dropIndex (s : SmManager) (ctx : Option (Nat → Bool)) (k : Nat) (tabName : String)
    (colNames : List String) : SmManager × Option SmError :=
  let tab := (s.tabs tabName).getD .empty
  let s := { s with tabs := Function.update s.tabs tabName (some tab) }
  if tab.isIndex colNames = false then (s, some .indexNotFound)
  else
    match s.lockTable ctx k tabName with
    | some e => (s, some e)
    | none =>
      let ixName := getIndexName tabName colNames
      match s.ihs ixName with
      | none => (s, some .nullHandle)
      | some _ =>
        let s := { s with opened := Function.update s.opened ixName false }
        if s.files ixName = false then (s, some .fileNotFound)
        else
          ({ s with
            files := Function.update s.files ixName false
            ihs := Function.update s.ihs ixName none
            tabs := Function.update s.tabs tabName
              (some { tab with indexes := tab.indexes.eraseP fun index => index.hasCols colNames }) },
            none)

/-- The loop of `drop_table` at the position `i` of the list, with `left` positions to the end that
the list had when the loop began. -/
def dropIndexes (s : SmManager) (ctx : Option (Nat → Bool)) (tabName : String) (i : Nat) :
    Nat → SmManager × Option SmError
  | 0 => (s, none)
  | left + 1 =>
    match ((s.tabs tabName).getD .empty).indexes[i]? with
    | none => (s, some .pastEnd)
    | some index =>
      match s.dropIndex ctx (i + 1) tabName index.colNames with
      | (s, some e) => (s, some e)
      | (s, none) => dropIndexes s ctx tabName (i + 1) left

/-- `RmManager::close_file` on the handle of the table and `destroy_file`. -/
def closeAndDestroy (s : SmManager) (tabName : String) (fh : Option Fd) :
    SmManager × Option SmError :=
  match fh with
  | none => (s, some .nullHandle)
  | some _ =>
    let s := { s with opened := Function.update s.opened tabName false }
    if s.files tabName then ({ s with files := Function.update s.files tabName false }, none)
    else (s, some .fileNotFound)

def dropTable (s : SmManager) (ctx : Option (Nat → Bool)) (tabName : String) :
    SmManager × Option SmError :=
  match s.tabs tabName with
  | none => (s, some .tableNotFound)
  | some tab =>
    match s.lockTable ctx 0 tabName with
    | some e => (s, some e)
    | none =>
      match s.dropIndexes ctx tabName 0 tab.indexes.length with
      | (s, some e) => (s, some e)
      | (s, none) =>
        let s := { s with
          tabs := Function.update s.tabs tabName none
          fhs := Function.update s.fhs tabName none }
        -- `fhs_[tab_name]` makes an entry again
        let fh := (s.fhs tabName).getD none
        closeAndDestroy { s with fhs := Function.update s.fhs tabName (some fh) } tabName fh

/-- The state of a new database. -/
def fresh : SmManager := ⟨fun _ => none, fun _ => none, fun _ => none, fun _ => false, fun _ => false⟩

/-- What `DROP TABLE` is for: the table, its indexes and its file are gone, nothing else has changed,
and the name can be used again. -/
structure Dropped (s s' : SmManager) (tabName : String) (tab : TabMeta) : Prop where
  catalog : s'.tabs tabName = none
  handle : s'.fhs tabName = none
  file : s'.files tabName = false ∧ s'.opened tabName = false
  indexes : ∀ index ∈ tab.indexes,
    s'.ihs (getIndexName tabName index.colNames) = none ∧
      s'.files (getIndexName tabName index.colNames) = false
  others : ∀ t, t ≠ tabName → s'.tabs t = s.tabs t ∧ s'.fhs t = s.fhs t
  otherFiles : ∀ path, path ≠ tabName →
    (∀ index ∈ tab.indexes, path ≠ getIndexName tabName index.colNames) →
      s'.ihs path = s.ihs path ∧ s'.files path = s.files path ∧ s'.opened path = s.opened path
  again : ∀ fd colDefs, 1 ≤ (colDefs.map ColDef.len).sum →
    (colDefs.map ColDef.len).sum ≤ RM_MAX_RECORD_SIZE →
      (s'.createTable none fd tabName colDefs).2 = none

variable {s s' : SmManager} {ctx : Option (Nat → Bool)} {tabName : String} {tab : TabMeta}

theorem dropIndex_keeps_table (k : Nat) (colNames : List String) :
    ((s.dropIndex ctx k tabName colNames).1.tabs tabName).isSome := by
  unfold dropIndex
  dsimp only
  split
  next => simp
  next =>
    split
    next => simp
    next =>
      split
      next => simp
      next =>
        split
        next => simp
        next => simp

theorem dropIndexes_keeps_table {i left : Nat} (h : (s.tabs tabName).isSome) :
    ((s.dropIndexes ctx tabName i left).1.tabs tabName).isSome := by
  induction left generalizing s i with
  | zero => exact h
  | succ left ih =>
    unfold dropIndexes
    split
    next => exact h
    next index _ =>
      have hkeeps := @dropIndex_keeps_table s ctx tabName (i + 1) index.colNames
      split
      next s₁ e hdrop => rwa [hdrop] at hkeeps
      next s₁ hdrop =>
        rw [hdrop] at hkeeps
        exact ih hkeeps

/-- What `drop_table` comes to: an error while the table is in the catalog, or the null pointer
that stands in `fhs_` for the handle that was erased. -/
theorem dropTable_cases (h : s.tabs tabName = some tab) :
    (∃ s' e, s.dropTable ctx tabName = (s', some e) ∧ (s'.tabs tabName).isSome) ∨
      ∃ s', s.dropTable ctx tabName = (s', some .nullHandle) ∧ s'.fhs tabName = some none := by
  have hsome : (s.tabs tabName).isSome := by
    rw [h]
    rfl
  unfold dropTable
  rw [h]
  dsimp only
  cases s.lockTable ctx 0 tabName with
  | some e => exact Or.inl ⟨s, e, rfl, hsome⟩
  | none =>
    dsimp only
    have hkeeps := @dropIndexes_keeps_table s ctx tabName 0 tab.indexes.length hsome
    split
    next s₁ e hloop =>
      rw [hloop] at hkeeps
      exact Or.inl ⟨s₁, e, rfl, hkeeps⟩
    next s₁ hloop =>
      have hfh : (Function.update s₁.fhs tabName none tabName).getD none = none := by simp
      rw [hfh]
      exact Or.inr ⟨_, rfl, by simp⟩

/-- No `DROP TABLE` returns, and what it leaves behind still has an entry of the table. -/
theorem dropTable_never_drops (s : SmManager) (ctx : Option (Nat → Bool)) (tabName : String)
    (tab : TabMeta) (h : s.tabs tabName = some tab) :
    (s.dropTable ctx tabName).2 ≠ none ∧ ¬Dropped s (s.dropTable ctx tabName).1 tabName tab := by
  rcases @dropTable_cases s ctx tabName tab h with ⟨s', e, hrun, hkept⟩ | ⟨s', hrun, hentry⟩
  · rw [hrun]
    refine ⟨Option.some_ne_none e, fun hdropped => ?_⟩
    rw [hdropped.catalog] at hkept
    cases hkept
  · rw [hrun]
    refine ⟨Option.some_ne_none _, fun hdropped => ?_⟩
    have hnone := hentry.symm.trans hdropped.handle
    cases hnone

/-- `CREATE TABLE t (a INT, b INT)`. -/
def oneTable : SmManager := (fresh.createTable none 5 "t" [⟨"a", .int, 4⟩, ⟨"b", .int, 4⟩]).1

theorem dropTable_never_drops_t :
    (oneTable.dropTable none "t").2 ≠ none ∧ ¬Dropped oneTable (oneTable.dropTable none "t").1 "t"
      ⟨"t", [⟨"t", "a", .int, 4, 0⟩, ⟨"t", "b", .int, 4, 4⟩], []⟩ :=
  dropTable_never_drops oneTable none "t" _ rfl

/-- The table without an index stops at the null pointer, the table with two indexes in the loop. -/
theorem dropTable_stops :
    (oneTable.tabs "t").isSome = true ∧ (oneTable.dropTable none "t").2 = some .nullHandle ∧
      (((oneTable.createIndex none "t" ["a"] []).1.createIndex none "t" ["b"] []).1.dropTable
        none "t").2 = some .pastEnd :=
  ⟨rfl, by decide +kernel, by decide +kernel⟩

end SmManager

end Grmdb
