import Grmdb.MapM
import Grmdb.ScanExecutors

namespace Grmdb

open ByteLayout

/-- An entry of `types_` with its entry of `aggregates_`; COUNT(*) has no column. -/
structure AggrSource where
  type : AggrType
  col : Option ColMeta

/-- A value of a key, of the column type `type`. -/
structure KeyValue where
  type : ColType
  raw : Bytes
  fresh : FreshValue

abbrev AggrKey : Type := List KeyValue

section Keys

/-- `ValueComp` with `OP_NE` of two values of the same column. It compares the numbers, which
`generate_aggr_key` does not set, and for a string `str_val`, which stays empty. -/
def KeyValue.differs (x y : KeyValue) : Option Bool :=
  match x.type with
  | .int => some (x.fresh.num != y.fresh.num)
  | .float => some (floatComp x.fresh.num y.fresh.num .ne)
  | .string => some false
  | .datetime => none

/-- `operator==`. -/
def aggrKeyEq : AggrKey → AggrKey → Option Bool
  | x :: xs, y :: ys => (x.differs y).bind fun ne => if ne then some false else aggrKeyEq xs ys
  | _, _ => some true

/-- The raw data as a C string. -/
def KeyValue.cStr (moment : HashMoment) (val : KeyValue) : Bytes :=
  (val.raw ++ val.fresh.behind moment).takeWhile (· ≠ 0)

/-- `AggrKeyHash`. -/
def aggrKeyHash (strHash : Bytes → UInt64) (moment : HashMoment) (key : AggrKey) : UInt64 :=
  strHash (key.flatMap (KeyValue.cStr moment))

/-- An entry has the key: the hash table compares the hash that it keeps for the entry, and then
the keys. -/
def hasKey (strHash : Bytes → UInt64) (moment : HashMoment) (old key : AggrKey) : Option Bool :=
  if aggrKeyHash strHash .insert old = aggrKeyHash strHash moment key then aggrKeyEq old key
  else some false

end Keys

/-- `hash_table_`, an entry for a group. The order of the entries stands for the one in which the
multimap goes through them. -/
structure AggrEntry where
  key : AggrKey
  values : List Value
  havings : List Value

/-- The constructor of `AggregateExecutor`. -/
structure AggrShape where
  sources : List AggrSource
  groupBys : List ColMeta
  havings : List (AggrSource × HavingCond)
  cols : List ColMeta

section Shape

variable (cols : List ColMeta)

def aggrSource (aggr : AggrCol) : Option AggrSource :=
  if aggr.type = .countStar then some ⟨.countStar, none⟩
  else (findCol cols aggr.tabCol).map fun col => ⟨aggr.type, some col⟩

/-- The column of the result. A string cannot be summed. -/
def aggrMeta (aggr : AggrCol) (source : AggrSource) : Option ColMeta :=
  match source.type, source.col with
  | .countStar, _ => some ⟨"", aggr.aliasName, .int, 4, 0⟩
  | .count, some col =>
    some { col with tabName := "", name := aggr.aliasName, type := .int, len := 4 }
  | .sum, some col =>
    if col.type = .string then none else some { col with tabName := "", name := aggr.aliasName }
  | _, some col => some { col with tabName := "", name := aggr.aliasName }
  | _, none => none

def aggrShape (aggregates : List AggrCol) (groupBys : List TabCol) (havings : List HavingCond) :
    Option AggrShape :=
  (aggregates.mapM fun aggr =>
    (aggrSource cols aggr).bind fun source => (aggrMeta aggr source).map fun col =>
      (source, col)).bind fun results =>
    (groupBys.mapM (findCol cols)).bind fun groups =>
      (havings.mapM fun having =>
        (aggrSource cols having.lhsCol).map fun source => (source, having)).map fun haves =>
        ⟨results.map Prod.fst, groups, haves, placeCols 0 (results.map Prod.snd ++ groups)⟩

end Shape

section Accumulate

/-- The column in a record, as MIN, MAX and SUM read it: only numbers are supported. -/
def AggrSource.read (source : AggrSource) (record : Bytes) : Option Value :=
  source.col.bind fun col =>
    match col.type with
    | .int | .float => col.read record
    | _ => none

/-- One value of `init_aggr_value`. -/
def AggrSource.initValue (source : AggrSource) (record : Bytes) : Option Value :=
  match source.type with
  | .count | .countStar => some (.int 1)
  | _ => source.read record

/-- One value of `update_aggr_value`; an `int` wraps around. -/
def AggrSource.updateValue (addFloat : UInt32 → UInt32 → UInt32) (source : AggrSource)
    (record : Bytes) (old : Value) : Option Value :=
  match source.type, old with
  | .count, .int n | .countStar, .int n => some (.int ((n + 1).bmod (2 ^ 32)))
  | .sum, .int n =>
    match source.read record with
    | some (.int i) => some (.int ((n + i).bmod (2 ^ 32)))
    | _ => none
  | .sum, .float x =>
    match source.read record with
    | some (.float y) => some (.float (addFloat x y))
    | _ => none
  | .min, .int n =>
    match source.read record with
    | some (.int i) => some (.int (min i n))
    | _ => none
  | .min, .float x =>
    match source.read record with
    | some (.float y) => some (.float (if floatComp x y .lt then x else y))
    | _ => none
  | .max, .int n =>
    match source.read record with
    | some (.int i) => some (.int (max i n))
    | _ => none
  | .max, .float x =>
    match source.read record with
    | some (.float y) => some (.float (if floatComp y x .lt then x else y))
    | _ => none
  | _, _ => none

variable (db : Database) (shape : AggrShape)

def generateAggrKey (fresh : FreshKey) (record : Bytes) : Option AggrKey :=
  shape.groupBys.zipIdx.mapM fun (col, i) =>
    (readAt record col.offset col.len).map fun raw => ⟨col.type, raw, fresh i⟩

def initAggrValue (key : AggrKey) (record : Bytes) : Option AggrEntry :=
  (shape.sources.mapM fun (source : AggrSource) => source.initValue record).bind fun values =>
    (shape.havings.mapM fun (having : AggrSource × HavingCond) =>
      having.1.initValue record).map fun havings => ⟨key, values, havings⟩

/-- The values one by one; there is one for every source. -/
def updateValues (record : Bytes) : List AggrSource → List Value → Option (List Value)
  | [], [] => some []
  | source :: sources, val :: vals =>
    (source.updateValue db.addFloat record val).bind fun val =>
      (updateValues record sources vals).map fun vals => val :: vals
  | _, _ => none

def updateAggrValue (record : Bytes) (entry : AggrEntry) : Option AggrEntry :=
  (updateValues db record shape.sources entry.values).bind fun values =>
    (updateValues db record (shape.havings.map Prod.fst) entry.havings).map fun havings =>
      { entry with values := values, havings := havings }

/-- One record of the input, with the number of keys generated before. The entries that have its key
are updated, and one is inserted when there is none. -/
def addRecord (table : List AggrEntry) : Bytes × Nat → Option (List AggrEntry)
  | (record, n) =>
    (generateAggrKey shape (db.freshKeys n) record).bind fun key =>
      (table.mapM fun entry => hasKey db.strHash .lookup entry.key key).bind fun found =>
        if found.any id then
          (table.zip found).mapM fun (entry, ok) =>
            if ok then updateAggrValue db shape record entry else some entry
        else (initAggrValue shape key record).map fun entry => table ++ [entry]

def judgeHaving : List HavingCond → List Value → Option Bool
  | having :: havings, val :: vals =>
    (val.comp having.rhsVal having.op).bind fun ok =>
      if ok then judgeHaving havings vals else some false
  | _, _ => some true

/-- `only_count`. -/
def AggrShape.onlyCount (shape : AggrShape) : Bool :=
  (shape.sources.all fun source => source.type == .countStar || source.type == .count) &&
    !shape.sources.isEmpty

/-- `hash_table_.erase`. -/
def eraseKey (table : List AggrEntry) (key : AggrKey) : Option (List AggrEntry) :=
  (table.mapM fun entry => hasKey db.strHash .erase entry.key key).map fun found =>
    ((table.zip found).filter fun (_, ok) => !ok).map Prod.fst

/-- `beginTuple` after the records are in. -/
def finishTable (table : List AggrEntry) : Option (List AggrEntry) :=
  (table.mapM fun entry => judgeHaving (shape.havings.map Prod.snd) entry.havings).bind fun oks =>
    let failed := (table.zip oks).filter fun (_, ok) => ok = false
    let deleted := failed.map fun (entry, _) => entry.key
    (deleted.foldlM (eraseKey db) table).map fun table =>
      if table.isEmpty ∧ shape.groupBys.isEmpty ∧ shape.onlyCount then
        [⟨[], shape.sources.map fun _ => .int 0, []⟩]
      else table

def Value.initRaw (val : Value) (len : Nat) : Option Bytes :=
  if val.fits len then some (val.raw len) else none

/-- The record of an entry. -/
def aggrRecord (entry : AggrEntry) : Option Bytes :=
  ((entry.values.zip shape.cols).mapM fun ((val, col) : Value × ColMeta) =>
    val.initRaw col.len).map fun (values : List Bytes) =>
      values.flatten ++ entry.key.flatMap KeyValue.raw

/-- `generated` counts the keys that have been generated. -/
structure AggregateState (σ : Type) where
  prev : σ
  hashTable : List AggrEntry
  hashIt : List AggrEntry
  generated : Nat

/-- `AggregateExecutor` over the cursor `prev`. The hash table is not cleared in `beginTuple`. -/
def aggregateCursor (fuel : Nat) (prev : Cursor Bytes) : Cursor Bytes where
  State := AggregateState prev.State
  start s :=
    (prev.start s.prev).bind fun p =>
      (prev.collect fuel p).bind fun (records, p) =>
        ((records.zipIdx s.generated).foldlM (addRecord db shape) s.hashTable).bind fun table =>
          (finishTable db shape table).map fun table =>
            ⟨p, table, table, s.generated + records.length⟩
  advance s :=
    match s.hashIt with
    | [] => none
    | _ :: rest => some { s with hashIt := rest }
  atEnd s := s.hashIt.isEmpty
  read s := s.hashIt.head?.bind fun entry =>
    (aggrRecord shape entry).map fun record => (record, s)

end Accumulate

def aggregateExecutor (db : Database) (fuel : Nat) (prev : Executor) (havings : List HavingCond)
    (aggregates : List AggrCol) (groupBys : List TabCol) : Option Executor :=
  (aggrShape prev.cols aggregates groupBys havings).map fun shape =>
    ⟨shape.cols, (shape.cols.map ColMeta.len).sum, aggregateCursor db shape fuel prev.cursor,
      ⟨prev.init, [], [], 0⟩⟩

section NoRecords

variable {db : Database} {shape : AggrShape} {cols : List ColMeta} {aggregates : List AggrCol}
  {groupBys : List TabCol} {havings : List HavingCond}

/-- The table after a run without records. -/
def emptyTable (shape : AggrShape) : List AggrEntry :=
  if shape.groupBys.isEmpty ∧ shape.onlyCount then [⟨[], shape.sources.map fun _ => .int 0, []⟩]
  else []

theorem finishTable_nil : finishTable db shape [] = some (emptyTable shape) := by
  simp [finishTable, emptyTable]

/-- The entry for no records passes every HAVING, so it stays. -/
theorem finishTable_emptyTable : finishTable db shape (emptyTable shape) = some (emptyTable shape) := by
  unfold emptyTable
  split
  next =>
    have hjudge : judgeHaving (shape.havings.map Prod.snd) [] = some true := by
      cases shape.havings with
      | nil => rfl
      | cons having havings => rfl
    simp [finishTable, hjudge]
  next => exact finishTable_nil.trans (congrArg some (if_neg ‹_›))

/-- The columns of counts are as wide as an `int`. -/
theorem aggrMeta_len {aggr : AggrCol} {source : AggrSource} {col : ColMeta}
    (h : aggrMeta aggr source = some col)
    (hcount : source.type = .countStar ∨ source.type = .count) : col.len = 4 := by
  unfold aggrMeta at h
  rcases hcount with htype | htype
  · rw [htype] at h
    cases h
    rfl
  · rw [htype] at h
    cases hcol : source.col with
    | none =>
      rw [hcol] at h
      cases h
    | some col' =>
      rw [hcol] at h
      cases h
      rfl

theorem aggrMeta_len_int {aggr : AggrCol} {source : AggrSource} {col col' : ColMeta}
    (h : aggrMeta aggr source = some col) (hcol : source.col = some col') (hlen : col'.len = 4) :
    col.len = 4 := by
  unfold aggrMeta at h
  rw [hcol] at h
  cases htype : source.type with
  | sum =>
    simp only [htype, Option.ite_none_left_eq_some] at h
    cases h.2
    exact hlen
  | max =>
    simp only [htype] at h
    cases h
    exact hlen
  | min =>
    simp only [htype] at h
    cases h
    exact hlen
  | count => exact aggrMeta_len (by unfold aggrMeta; rw [hcol]; exact h) (Or.inr htype)
  | countStar => exact aggrMeta_len (by unfold aggrMeta; rw [hcol]; exact h) (Or.inl htype)

/-- Numbers in columns as wide as an `int`. -/
theorem initRaw_ints {results : List (AggrSource × ColMeta)} {groups : List ColMeta}
    (hlen : ∀ result ∈ results, result.2.len = 4) (num : AggrSource → Int) (offset : Nat) :
    (((results.map Prod.fst).map fun source => Value.int (num source)).zip
      (placeCols offset (results.map Prod.snd ++ groups))).mapM
        (fun ((val, col) : Value × ColMeta) => val.initRaw col.len) =
      some ((results.map Prod.fst).map fun source => (Value.int (num source)).raw 4) := by
  induction results generalizing offset with
  | nil => rfl
  | cons result results ih =>
    have hfour := hlen result List.mem_cons_self
    have hrest := ih (fun r hr => hlen r (List.mem_cons_of_mem _ hr)) (offset + result.2.len)
    have hint : Value.initRaw (.int (num result.1)) result.2.len =
        some ((Value.int (num result.1)).raw 4) := by
      rw [hfour]
      rfl
    simp only [List.map_cons, List.cons_append, placeCols, List.zip_cons_cons, List.mapM_cons,
      hint, hrest]
    rfl

/-- The sources of a shape with the columns of their aggregates, in front of those of GROUP BY. -/
theorem aggrShape_results (h : aggrShape cols aggregates groupBys havings = some shape) :
    ∃ (results : List (AggrSource × ColMeta)) (groups : List ColMeta),
      shape.sources = results.map Prod.fst ∧
      shape.cols = placeCols 0 (results.map Prod.snd ++ groups) ∧
      ∀ result ∈ results, ∃ aggr, aggrMeta aggr result.1 = some result.2 := by
  unfold aggrShape at h
  obtain ⟨results, hresults, h⟩ := Option.bind_eq_some_iff.mp h
  obtain ⟨groups, -, h⟩ := Option.bind_eq_some_iff.mp h
  obtain ⟨haves, -, rfl⟩ := Option.map_eq_some_iff.mp h
  refine ⟨results, groups, rfl, rfl, fun result hresult => ?_⟩
  obtain ⟨aggr, -, haggr⟩ := MapM.mem_of_mapM hresults hresult
  obtain ⟨source, -, haggr⟩ := Option.bind_eq_some_iff.mp haggr
  obtain ⟨col, hcol, rfl⟩ := Option.map_eq_some_iff.mp haggr
  exact ⟨aggr, hcol⟩

/-- The one record that an aggregation can have without any. -/
theorem aggrRecord_emptyTable (h : aggrShape cols aggregates groupBys havings = some shape) :
    ∃ rows, (emptyTable shape).mapM (aggrRecord shape) = some rows := by
  unfold emptyTable
  split
  next hempty =>
    obtain ⟨results, groups, hsources, hcols, hmetas⟩ := aggrShape_results h
    have hlen : ∀ result ∈ results, result.2.len = 4 := by
      intro result hresult
      obtain ⟨aggr, hmeta⟩ := hmetas result hresult
      refine aggrMeta_len hmeta ?_
      have hcount := hempty.2
      unfold AggrShape.onlyCount at hcount
      rw [Bool.and_eq_true, hsources, List.all_eq_true] at hcount
      have hsource := hcount.1 result.1 (List.mem_map_of_mem hresult)
      simpa using hsource
    have hrecord : ∃ row, aggrRecord shape ⟨[], shape.sources.map fun _ => .int 0, []⟩ = some row := by
      unfold aggrRecord
      rw [hsources, hcols, initRaw_ints hlen (fun _ => 0)]
      exact ⟨_, rfl⟩
    obtain ⟨row, hrecord⟩ := hrecord
    refine ⟨[row], ?_⟩
    rw [List.mapM_cons, hrecord]
    rfl
  next => exact ⟨[], rfl⟩

variable {prev : Cursor Bytes} {p₀ : prev.State} {At : List Bytes → prev.State → Prop} {fuel : Nat}

structure AggregateAt (shape : AggrShape) (At : List Bytes → prev.State → Prop) (rest : List Bytes)
    (s : AggregateState prev.State) : Prop where
  prev : ∃ rest, At rest s.prev
  table : s.hashTable = emptyTable shape
  rest : s.hashIt.mapM (aggrRecord shape) = some rest

/-- The table that is not cleared does no harm as long as no record comes in. -/
theorem aggregateCursor_walks_none (h : prev.Walks p₀ [] At)
    (hshape : aggrShape cols aggregates groupBys havings = some shape) :
    ∃ rows, (aggregateCursor db shape fuel prev).Walks ⟨p₀, [], [], 0⟩ rows
      (AggregateAt shape At) := by
  obtain ⟨rows, hrows⟩ := aggrRecord_emptyTable hshape
  refine ⟨rows, ?_, ?_, ?_, ?_⟩
  · intro s hs
    have hready : (s.prev = p₀ ∨ ∃ rest, At rest s.prev) ∧
        finishTable db shape s.hashTable = some (emptyTable shape) := by
      rcases hs with rfl | ⟨rest, hat⟩
      · exact ⟨Or.inl rfl, finishTable_nil⟩
      · rw [hat.table]
        exact ⟨Or.inr hat.prev, finishTable_emptyTable⟩
    obtain ⟨p, hstart, hp⟩ := h.start s.prev hready.1
    obtain ⟨p', hcollect, hp'⟩ := h.collect hp (Nat.zero_le fuel)
    refine ⟨⟨p', emptyTable shape, emptyTable shape, s.generated⟩, ?_, ⟨_, hp'⟩, rfl, hrows⟩
    simp [aggregateCursor, hstart, hcollect, hready.2]
  · intro rest s hat
    have hlen := (MapM.forall₂_of_mapM hat.rest).length_eq
    cases hit : s.hashIt with
    | nil =>
      rw [hit, List.length_nil] at hlen
      rw [List.length_eq_zero_iff.mp hlen.symm]
      simp [aggregateCursor, hit]
    | cons entry entries =>
      cases rest with
      | nil => simp [hit] at hlen
      | cons r rest => simp [aggregateCursor, hit]
  · intro r rest s hat
    refine ⟨s, ?_, hat⟩
    obtain ⟨entry, entries, hrecord, -, hit⟩ :=
      List.forall₂_cons_right_iff.mp (MapM.forall₂_of_mapM hat.rest)
    simp [aggregateCursor, hit, hrecord]
  · intro r rest s hat
    obtain ⟨entry, entries, -, hrest, hit⟩ :=
      List.forall₂_cons_right_iff.mp (MapM.forall₂_of_mapM hat.rest)
    refine ⟨{ s with hashIt := entries }, ?_, hat.prev, hat.table, MapM.mapM_of_forall₂ hrest⟩
    simp [aggregateCursor, hit]

end NoRecords

end Grmdb
