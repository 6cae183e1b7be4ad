import Grmdb.AggregateExecutor
import Grmdb.CondMeaning
import Grmdb.Grouping

namespace Grmdb

open ByteLayout Grouping

section Meaning

/-- The number in the column of an aggregate. -/
def AggrSource.num (source : AggrSource) (row : Bytes) : Int :=
  match source.read row with
  | some (.int i) => i
  | _ => 0

/-- What an aggregate is over the records of a group. -/
def AggrSource.exact (source : AggrSource) (rows : List Bytes) : Int :=
  match source.type with
  | .count | .countStar => rows.length
  | .sum => (rows.map source.num).sum
  | .min => (rows.map source.num).min?.getD 0
  | .max => (rows.map source.num).max?.getD 0

/-- COUNT and COUNT(*), or an aggregate of an INT column in records of the length `len`. -/
def AggrSource.OverInt (source : AggrSource) (len : Nat) : Prop :=
  source.type = .count ∨ source.type = .countStar ∨
    ∃ col, source.col = some col ∧ col.type = .int ∧ col.Plain len

variable (shape : AggrShape)

/-- The group-by values of a record. -/
def groupKey (row : Bytes) : List Bytes :=
  shape.groupBys.map fun col => (row.drop col.offset).take col.len

/-- The records with the same group-by values. -/
def groupOf (rows : List Bytes) (key : List Bytes) : List Bytes :=
  rows.filter fun row => groupKey shape row = key

/-- The aggregates of a group satisfy HAVING. -/
def meetsHavings (rows : List Bytes) : Bool :=
  shape.havings.all fun having =>
    (Value.int (having.1.exact rows)).comp having.2.rhsVal having.2.op = some true

/-- The record of a group: its aggregates, and then its values. -/
def aggregateRecord (rows : List Bytes) (key : List Bytes) : Bytes :=
  (shape.sources.map fun source => (Value.int (source.exact rows)).raw 4).flatten ++ key.flatten

/-- The reference: a record for every vector of group-by values that HAVING leaves. -/
def referenceGroups (rows : List Bytes) : List Bytes :=
  ((rows.map (groupKey shape)).dedup.filter fun key =>
    meetsHavings shape (groupOf shape rows key)).map fun key =>
      aggregateRecord shape (groupOf shape rows key) key

end Meaning

section Accumulate

/-- `init_aggr_value` and `update_aggr_value` in numbers. -/
def AggrSource.firstNum (source : AggrSource) (row : Bytes) : Int :=
  match source.type with
  | .count | .countStar => 1
  | _ => source.num row

def AggrSource.nextNum (source : AggrSource) (row : Bytes) (n : Int) : Int :=
  match source.type with
  | .count | .countStar => (n + 1).bmod (2 ^ 32)
  | .sum => (n + source.num row).bmod (2 ^ 32)
  | .min => min (source.num row) n
  | .max => max (source.num row) n

/-- The key of a record. -/
def keyOf (shape : AggrShape) (fresh : FreshKey) (row : Bytes) : AggrKey :=
  shape.groupBys.zipIdx.map fun (col, i) =>
    ⟨col.type, (row.drop col.offset).take col.len, fresh i⟩

/-- The numbers that `operator==` compares. -/
def keyNums (key : AggrKey) : List UInt32 :=
  key.map fun val => if val.type = .int then val.fresh.num else 0

/-- `hasKey` for keys of INT and CHAR columns. -/
def sameKey (strHash : Bytes → UInt64) (moment : HashMoment) (old key : AggrKey) : Bool :=
  aggrKeyHash strHash .insert old = aggrKeyHash strHash moment key ∧ keyNums old = keyNums key

/-- Records are put into groups together with their number. -/
def aggrScheme (db : Database) (shape : AggrShape) :
    Scheme (Bytes × Nat) AggrKey (AggrSource → Int) where
  key x := keyOf shape (db.freshKeys x.2) x.1
  same := sameKey db.strHash .lookup
  first x source := source.firstNum x.1
  next x acc source := source.nextNum x.1 (acc source)

def aggrEntry (shape : AggrShape) (e : AggrKey × (AggrSource → Int)) : AggrEntry :=
  ⟨e.1, shape.sources.map fun source => .int (e.2 source),
    shape.havings.map fun having => .int (e.2 having.1)⟩

variable {db : Database} {shape : AggrShape} {source : AggrSource} {row : Bytes}

theorem AggrSource.OverInt.read (h : source.OverInt row.length) (hcount : source.type ≠ .count)
    (hstar : source.type ≠ .countStar) : source.read row = some (.int (source.num row)) := by
  rcases h with h | h | ⟨col, hcol, htype, hplain⟩
  · exact absurd h hcount
  · exact absurd h hstar
  · obtain ⟨v, hv, hvtype⟩ := hplain.read
    rw [htype] at hvtype
    have hread : source.read row = some v := by
      rw [AggrSource.read, hcol, Option.bind_some, htype]
      exact hv
    cases v with
    | int i => rw [AggrSource.num, hread]
    | float x => cases hvtype
    | string s => cases hvtype

theorem AggrSource.OverInt.initValue (h : source.OverInt row.length) :
    source.initValue row = some (.int (source.firstNum row)) := by
  unfold AggrSource.initValue AggrSource.firstNum
  cases htype : source.type with
  | count => rfl
  | countStar => rfl
  | sum => exact h.read (by simp [htype]) (by simp [htype])
  | max => exact h.read (by simp [htype]) (by simp [htype])
  | min => exact h.read (by simp [htype]) (by simp [htype])

theorem AggrSource.OverInt.updateValue (h : source.OverInt row.length)
    (addFloat : UInt32 → UInt32 → UInt32) (n : Int) :
    source.updateValue addFloat row (.int n) = some (.int (source.nextNum row n)) := by
  unfold AggrSource.updateValue AggrSource.nextNum
  cases htype : source.type with
  | count => rfl
  | countStar => rfl
  | sum =>
    dsimp only
    rw [h.read (by simp [htype]) (by simp [htype])]
  | max =>
    dsimp only
    rw [h.read (by simp [htype]) (by simp [htype])]
  | min =>
    dsimp only
    rw [h.read (by simp [htype]) (by simp [htype])]

/-- The aggregates of an executor and of its HAVING clause are numbers. -/
structure NumericShape (shape : AggrShape) (len : Nat) : Prop where
  sources : ∀ source ∈ shape.sources, source.OverInt len
  havings : ∀ having ∈ shape.havings, having.1.OverInt len
  groupBys : ∀ col ∈ shape.groupBys, col.Plain len

variable {fresh fresh' : FreshKey} {n len : Nat}

theorem NumericShape.typed (h : NumericShape shape len) :
    ∀ col ∈ shape.groupBys, col.type = .int ∨ col.type = .string :=
  fun col hcol => (h.groupBys col hcol).type.imp And.left id

theorem NumericShape.aggrKeyEq (h : NumericShape shape len) (row' : Bytes) :
    aggrKeyEq (keyOf shape fresh row) (keyOf shape fresh' row') =
      some (decide (keyNums (keyOf shape fresh row) = keyNums (keyOf shape fresh' row'))) := by
  have htyped : ∀ col ∈ shape.groupBys.zipIdx, col.1.type = .int ∨ col.1.type = .string :=
    fun col hcol => h.typed col.1 (List.fst_mem_of_mem_zipIdx hcol)
  unfold keyOf keyNums
  generalize shape.groupBys.zipIdx = cols at htyped
  induction cols with
  | nil => rfl
  | cons col cols ih =>
    have hrest := ih fun col' hcol => htyped col' (List.mem_cons_of_mem _ hcol)
    simp only [List.map_cons, Grmdb.aggrKeyEq, hrest, List.cons.injEq]
    rcases htyped col List.mem_cons_self with htype | htype
    · simp only [KeyValue.differs, htype, Option.bind_some, if_true]
      by_cases hnum : (fresh col.2).num = (fresh' col.2).num
      · simp [hnum]
      · simp [hnum]
    · simp [KeyValue.differs, htype]

theorem NumericShape.hasKey (h : NumericShape shape len) (strHash : Bytes → UInt64)
    (moment : HashMoment) (row' : Bytes) :
    hasKey strHash moment (keyOf shape fresh row) (keyOf shape fresh' row') =
      some (sameKey strHash moment (keyOf shape fresh row) (keyOf shape fresh' row')) := by
  unfold Grmdb.hasKey sameKey
  rw [h.aggrKeyEq]
  split
  next heq => simp [heq]
  next hne => simp [hne]

variable (h : NumericShape shape row.length)

include h

theorem NumericShape.generateAggrKey :
    generateAggrKey shape fresh row = some (keyOf shape fresh row) := by
  refine MapM.mapM_eq_map fun col hcol => ?_
  have hinside := (h.groupBys col.1 (List.fst_mem_of_mem_zipIdx hcol)).inside
  simp only [readAt, if_pos hinside, Option.map_some]

theorem NumericShape.initAggrValue (key : AggrKey) :
    initAggrValue shape key row =
      some (aggrEntry shape (key, (aggrScheme db shape).first (row, n))) := by
  have hvalues : (shape.sources.mapM fun (source : AggrSource) => source.initValue row) =
      some (shape.sources.map fun source => .int (source.firstNum row)) :=
    MapM.mapM_eq_map fun source hs => (h.sources source hs).initValue
  have hhavings : (shape.havings.mapM fun (having : AggrSource × HavingCond) =>
      having.1.initValue row) =
      some (shape.havings.map fun having => .int (having.1.firstNum row)) :=
    MapM.mapM_eq_map fun having hh => (h.havings having hh).initValue
  rw [Grmdb.initAggrValue, hvalues, Option.bind_some, hhavings, Option.map_some]
  rfl

omit h in
theorem updateValues_nums {sources : List AggrSource} (hs : ∀ source ∈ sources,
    source.OverInt row.length) (acc : AggrSource → Int) :
    updateValues db row sources (sources.map fun source => .int (acc source)) =
      some (sources.map fun source => .int (source.nextNum row (acc source))) := by
  induction sources with
  | nil => rfl
  | cons source sources ih =>
    rw [List.map_cons, updateValues, (hs source List.mem_cons_self).updateValue, Option.bind_some,
      ih fun source' h' => hs source' (List.mem_cons_of_mem _ h')]
    rfl

theorem NumericShape.updateAggrValue (e : AggrKey × (AggrSource → Int)) :
    updateAggrValue db shape row (aggrEntry shape e) =
      some (aggrEntry shape (e.1, (aggrScheme db shape).next (row, n) e.2)) := by
  have hhavings : ∀ source ∈ shape.havings.map Prod.fst, source.OverInt row.length := by
    intro source hsource
    obtain ⟨having, hh, rfl⟩ := List.mem_map.mp hsource
    exact h.havings having hh
  have hupdate := @updateValues_nums db row _ hhavings e.2
  rw [List.map_map, List.map_map] at hupdate
  rw [Grmdb.updateAggrValue, aggrEntry, updateValues_nums h.sources, Option.bind_some]
  dsimp only
  rw [show (shape.havings.map fun having => Value.int (e.2 having.1)) =
    shape.havings.map ((fun source => Value.int (e.2 source)) ∘ Prod.fst) from rfl, hupdate]
  rfl

/-- A record is put into its group. -/
theorem NumericShape.addRecord (table : List (AggrKey × (AggrSource → Int)))
    (hkeys : ∀ e ∈ table, ∃ fresh row, e.1 = keyOf shape fresh row) :
    addRecord db shape (table.map (aggrEntry shape)) (row, n) =
      some (((aggrScheme db shape).add table (row, n)).map (aggrEntry shape)) := by
  have hfound : (table.map (aggrEntry shape)).mapM (fun entry =>
      Grmdb.hasKey db.strHash .lookup entry.key (keyOf shape (db.freshKeys n) row)) =
      some (table.map fun e => (aggrScheme db shape).same e.1
        ((aggrScheme db shape).key (row, n))) := by
    rw [List.mapM_map]
    refine MapM.mapM_eq_map fun e he => ?_
    obtain ⟨fresh, row', hkey⟩ := hkeys e he
    simp only [Function.comp_apply, aggrEntry, hkey]
    exact h.hasKey db.strHash .lookup row
  have hzip : (table.map (aggrEntry shape)).zip (table.map fun e => (aggrScheme db shape).same e.1
      ((aggrScheme db shape).key (row, n))) = table.map fun e => (aggrEntry shape e,
        (aggrScheme db shape).same e.1 ((aggrScheme db shape).key (row, n))) := List.zip_map'
  rw [Grmdb.addRecord, h.generateAggrKey, Option.bind_some, hfound, Option.bind_some, hzip,
    List.any_map, Scheme.add]
  by_cases hany : (table.any fun e => (aggrScheme db shape).same e.1
      ((aggrScheme db shape).key (row, n))) = true
  · rw [if_pos hany, if_pos (by exact hany), List.mapM_map, List.map_map]
    refine MapM.mapM_eq_map fun e he => ?_
    simp only [Function.comp_apply]
    split
    next => exact h.updateAggrValue e
    next => rfl
  · rw [if_neg hany, if_neg (by exact hany), h.initAggrValue, Option.map_some, List.map_append]
    rfl

omit h in
theorem keys_build (xs : List (Bytes × Nat)) : ∀ e ∈ (aggrScheme db shape).build xs,
    ∃ x ∈ xs, e.1 = keyOf shape (db.freshKeys x.2) x.1 := by
  intro e he
  obtain ⟨x, hx, heq⟩ := List.mem_map.mp (Scheme.build_keys (aggrScheme db shape) xs e he)
  exact ⟨x, hx, heq.symm⟩

omit h in
/-- All records are put into their groups. -/
theorem foldlM_addRecord {xs : List (Bytes × Nat)} (hshape : NumericShape shape len)
    (hlen : ∀ x ∈ xs, x.1.length = len) :
    xs.foldlM (addRecord db shape) [] =
      some (((aggrScheme db shape).build xs).map (aggrEntry shape)) := by
  induction xs using List.reverseRecOn with
  | nil => rfl
  | append_singleton xs x ih =>
    obtain ⟨hxs, hx⟩ := List.forall_mem_append.mp hlen
    have hlast := hx x List.mem_cons_self
    rw [List.foldlM_append, ih hxs, Scheme.build_append]
    have hkeys : ∀ e ∈ (aggrScheme db shape).build xs,
        ∃ fresh row, e.1 = keyOf shape fresh row := by
      intro e he
      obtain ⟨y, -, hkey⟩ := keys_build xs e he
      exact ⟨_, _, hkey⟩
    have hadd := @NumericShape.addRecord db shape x.1 x.2 (hlast ▸ hshape) _ hkeys
    simp [hadd]

end Accumulate

section Exact

variable {db : Database} {shape : AggrShape} {source : AggrSource}

theorem isInt32_bmod {x : Int} (h : IsInt32 x) : x.bmod (2 ^ 32) = x := by
  obtain ⟨hlow, hhigh⟩ := h
  exact Int.bmod_eq_of_le (by omega) (by omega)

theorem AggrSource.isInt32_num (source : AggrSource) (row : Bytes) : IsInt32 (source.num row) := by
  unfold AggrSource.num
  split
  next i hread =>
    obtain ⟨col, -, hread⟩ := Option.bind_eq_some_iff.mp hread
    have hcol : col.read row = some (.int i) := by
      split at hread
      next => exact hread
      next => exact hread
      next => cases hread
    obtain ⟨raw, -, hraw⟩ := Option.bind_eq_some_iff.mp hcol
    split at hraw
    next =>
      cases hraw
      exact readInt_bounds raw
    next => cases hraw
    next => cases hraw
    next => cases hraw
  next => decide

/-- Sums that wrap around on the way end where the sum does. -/
theorem foldl_add_bmod {f : Bytes → Int} {rows : List Bytes} {a : Int}
    (ha : a.bmod (2 ^ 32) = a) :
    rows.foldl (fun n row => (n + f row).bmod (2 ^ 32)) a =
      (a + (rows.map f).sum).bmod (2 ^ 32) := by
  induction rows generalizing a with
  | nil => simpa using ha.symm
  | cons row rows ih =>
    rw [List.foldl_cons, ih (Int.bmod_bmod), List.map_cons, List.sum_cons, Int.bmod_add_bmod,
      Int.add_assoc]

theorem foldl_min_map (f : Bytes → Int) (rows : List Bytes) (a : Int) :
    rows.foldl (fun n row => min (f row) n) a = ((a :: rows.map f).min?).getD 0 := by
  rw [List.min?_cons', Option.getD_some, List.foldl_map]
  simp only [min_comm]

theorem foldl_max_map (f : Bytes → Int) (rows : List Bytes) (a : Int) :
    rows.foldl (fun n row => max (f row) n) a = ((a :: rows.map f).max?).getD 0 := by
  rw [List.max?_cons', Option.getD_some, List.foldl_map]
  simp only [max_comm]

/-- The combine steps lead to the aggregate. -/
theorem AggrSource.fold_exact (row : Bytes) (rows : List Bytes)
    (hrange : IsInt32 (source.exact (row :: rows))) :
    rows.foldl (fun n r => source.nextNum r n) (source.firstNum row) =
      source.exact (row :: rows) := by
  have hcount : ∀ l : List Bytes, (l.map fun _ => (1 : Int)).sum = l.length := by
    intro l
    rw [List.map_const', List.sum_replicate]
    simp
  have hnum := isInt32_bmod (source.isInt32_num row)
  unfold AggrSource.exact AggrSource.firstNum AggrSource.nextNum at *
  cases htype : source.type with
  | count | countStar =>
    simp only [htype] at hrange ⊢
    rw [@foldl_add_bmod (fun _ => 1) rows 1 (by decide), hcount, ← isInt32_bmod hrange,
      List.length_cons]
    push_cast
    rw [Int.add_comm]
  | sum =>
    simp only [htype] at hrange ⊢
    rw [foldl_add_bmod hnum, ← isInt32_bmod hrange, List.map_cons, List.sum_cons]
  | min =>
    simp only [List.map_cons]
    exact foldl_min_map source.num rows (source.num row)
  | max =>
    simp only [List.map_cons]
    exact foldl_max_map source.num rows (source.num row)

/-- What a group keeps is its aggregates. -/
theorem summary_exact {xs : List (Bytes × Nat)} {acc : AggrSource → Int}
    (hacc : (aggrScheme db shape).summary xs = some acc)
    (hrange : IsInt32 (source.exact (xs.map Prod.fst))) :
    acc source = source.exact (xs.map Prod.fst) := by
  cases xs with
  | nil => cases hacc
  | cons x xs =>
    have happly : ∀ first : AggrSource → Int,
        (xs.foldl (fun e x => (aggrScheme db shape).next x e) first) source =
          (xs.map Prod.fst).foldl (fun n r => source.nextNum r n) (first source) := by
      clear hacc hrange
      induction xs with
      | nil => exact fun first => rfl
      | cons x' xs ih => exact fun first => ih _
    rw [List.map_cons] at hrange ⊢
    rw [← source.fold_exact x.1 (xs.map Prod.fst) hrange, ← Option.some.inj hacc]
    exact happly _

end Exact

section Finish

variable {db : Database} {shape : AggrShape} {rows : List Bytes} {len : Nat}

def entryMeets (shape : AggrShape) (acc : AggrSource → Int) : Bool :=
  shape.havings.all fun having =>
    (Value.int (acc having.1)).comp having.2.rhsVal having.2.op = some true

def entryRecord (shape : AggrShape) (e : AggrKey × (AggrSource → Int)) : Bytes :=
  (shape.sources.map fun source => (Value.int (e.2 source)).raw 4).flatten ++
    e.1.flatMap KeyValue.raw

/-- The entries that are left after those that fail HAVING are erased by their keys. -/
def keptEntries (db : Database) (shape : AggrShape) (rows : List Bytes) :
    List (AggrKey × (AggrSource → Int)) :=
  ((aggrScheme db shape).build rows.zipIdx).filter fun e =>
    !((aggrScheme db shape).build rows.zipIdx).any fun e' =>
      !entryMeets shape e'.2 && sameKey db.strHash .erase e.1 e'.1

/-- A table that is empty then gets the entry that is meant for an empty input. -/
def finalEntries (db : Database) (shape : AggrShape) (rows : List Bytes) :
    List (AggrKey × (AggrSource → Int)) :=
  if (keptEntries db shape rows).isEmpty ∧ shape.groupBys.isEmpty ∧ shape.onlyCount then
    [([], fun _ => 0)]
  else keptEntries db shape rows

theorem judgeHaving_nums {havings : List (AggrSource × HavingCond)}
    (hrhs : ∀ having ∈ havings, having.2.rhsVal.type = .int ∨ having.2.rhsVal.type = .float)
    (acc : AggrSource → Int) :
    judgeHaving (havings.map Prod.snd) (havings.map fun having => .int (acc having.1)) =
      some (havings.all fun having =>
        (Value.int (acc having.1)).comp having.2.rhsVal having.2.op = some true) := by
  induction havings with
  | nil => rfl
  | cons having havings ih =>
    have hcomp : ∃ ok, (Value.int (acc having.1)).comp having.2.rhsVal having.2.op = some ok := by
      have htype := hrhs having List.mem_cons_self
      cases hval : having.2.rhsVal with
      | int i => exact ⟨_, rfl⟩
      | float x => exact ⟨_, rfl⟩
      | string s => simp [hval, Value.type] at htype
    obtain ⟨ok, hok⟩ := hcomp
    rw [List.map_cons, List.map_cons, judgeHaving, List.all_cons, hok, Option.bind_some,
      ih fun having' h' => hrhs having' (List.mem_cons_of_mem _ h')]
    cases ok with
    | true => rfl
    | false => rfl

/-- The entries that fail HAVING are erased one after the other. -/
theorem foldlM_eraseKey {keys : List AggrKey} {table : List (AggrKey × (AggrSource → Int))}
    (hshape : NumericShape shape len)
    (hkeys : ∀ key ∈ keys, ∃ fresh row, key = keyOf shape fresh row)
    (htable : ∀ e ∈ table, ∃ fresh row, e.1 = keyOf shape fresh row) :
    keys.foldlM (eraseKey db) (table.map (aggrEntry shape)) =
      some ((table.filter fun e =>
        !keys.any fun key => sameKey db.strHash .erase e.1 key).map (aggrEntry shape)) := by
  induction keys generalizing table with
  | nil => simp
  | cons key keys ih =>
    obtain ⟨fresh, row, hkey⟩ := hkeys key List.mem_cons_self
    have hfound : (table.map (aggrEntry shape)).mapM (fun entry =>
        hasKey db.strHash .erase entry.key key) =
        some (table.map fun e => sameKey db.strHash .erase e.1 key) := by
      rw [List.mapM_map]
      refine MapM.mapM_eq_map fun e he => ?_
      obtain ⟨fresh', row', hkey'⟩ := htable e he
      simp only [Function.comp_apply, aggrEntry, hkey, hkey']
      exact hshape.hasKey db.strHash .erase row
    have herase : eraseKey db (table.map (aggrEntry shape)) key = some ((table.filter fun e =>
        !sameKey db.strHash .erase e.1 key).map (aggrEntry shape)) := by
      rw [eraseKey, hfound, Option.map_some, List.zip_map', List.filter_map, List.map_map]
      rfl
    rw [List.foldlM_cons, herase]
    show List.foldlM (eraseKey db) _ keys = _
    rw [ih (fun k hk => hkeys k (List.mem_cons_of_mem _ hk))
      (fun e he => htable e (List.mem_of_mem_filter he)), List.filter_filter]
    refine congrArg (fun l => some (l.map (aggrEntry shape))) (List.filter_congr fun e _ => ?_)
    rw [List.any_cons, Bool.not_or, Bool.and_comm]

theorem finishTable_nums (hshape : NumericShape shape len)
    (hrhs : ∀ having ∈ shape.havings, having.2.rhsVal.type = .int ∨ having.2.rhsVal.type = .float) :
    finishTable db shape (((aggrScheme db shape).build rows.zipIdx).map (aggrEntry shape)) =
      some (if (keptEntries db shape rows).isEmpty ∧ shape.groupBys.isEmpty ∧ shape.onlyCount then
        [⟨[], shape.sources.map fun _ => .int 0, []⟩]
      else (keptEntries db shape rows).map (aggrEntry shape)) := by
  have hkeys := @keys_build db shape rows.zipIdx
  have hplain : ∀ e ∈ (aggrScheme db shape).build rows.zipIdx,
      ∃ fresh row, e.1 = keyOf shape fresh row := by
    intro e he
    obtain ⟨x, -, hkey⟩ := hkeys e he
    exact ⟨_, _, hkey⟩
  unfold keptEntries
  generalize (aggrScheme db shape).build rows.zipIdx = table at hplain
  have hjudge : (table.map (aggrEntry shape)).mapM (fun entry =>
      judgeHaving (shape.havings.map Prod.snd) entry.havings) =
        some (table.map fun e => entryMeets shape e.2) := by
    rw [List.mapM_map]
    exact MapM.mapM_eq_map fun e he => judgeHaving_nums hrhs e.2
  have hdeleted : (((table.map (aggrEntry shape)).zip
      (table.map fun e => entryMeets shape e.2)).filter fun judged => judged.2 = false).map
        (fun judged => judged.1.key) =
      (table.filter fun e => !entryMeets shape e.2).map Prod.fst := by
    rw [List.zip_map', List.filter_map, List.map_map]
    refine congrArg (List.map Prod.fst) (List.filter_congr fun e _ => ?_)
    cases hmeets : entryMeets shape e.2 <;> simp [hmeets]
  have herased := @foldlM_eraseKey db shape _
    ((table.filter fun e => !entryMeets shape e.2).map Prod.fst) table hshape (by
      intro key hkey
      obtain ⟨e, he, rfl⟩ := List.mem_map.mp hkey
      exact hplain e (List.mem_of_mem_filter he)) hplain
  unfold finishTable
  rw [hjudge, Option.bind_some]
  simp only [hdeleted, herased, Option.map_some, List.any_map, List.any_filter, List.isEmpty_map]
  rfl

end Finish

section Run

variable {db : Database} {prev : Executor} {rows : List Bytes} {aggregates : List AggrCol}
  {groupBys : List TabCol} {havings : List HavingCond} {shape : AggrShape} {fuel : Nat}

/-- An input for the aggregation: INT columns under MIN, MAX and SUM, INT and CHAR group-by columns,
numbers in HAVING, at least one record if there is no GROUP BY, and aggregates that an `int` can
hold. -/
structure AggrInput (prev : Executor) (rows : List Bytes) (aggregates : List AggrCol)
    (groupBys : List TabCol) (havings : List HavingCond) (shape : AggrShape) : Prop where
  pass : prev.FirstPass rows
  built : aggrShape prev.cols aggregates groupBys havings = some shape
  len : ∀ row ∈ rows, row.length = prev.tupleLen
  numeric : NumericShape shape prev.tupleLen
  rhs : ∀ having ∈ shape.havings, having.2.rhsVal.type = .int ∨ having.2.rhsVal.type = .float
  nonempty : shape.groupBys = [] → rows ≠ []
  sums : ∀ row ∈ rows, ∀ source ∈ shape.sources,
    IsInt32 (source.exact (groupOf shape rows (groupKey shape row)))
  havingSums : ∀ row ∈ rows, ∀ having ∈ shape.havings,
    IsInt32 (having.1.exact (groupOf shape rows (groupKey shape row)))

/-- What is asked of the aggregation, for every number of loop rounds that is large enough. -/
def Aggregates (db : Database) (prev : Executor) (rows : List Bytes) (aggregates : List AggrCol)
    (groupBys : List TabCol) (havings : List HavingCond) (shape : AggrShape) : Prop :=
  ∃ n, ∀ fuel, n ≤ fuel → ∃ exec result,
    aggregateExecutor db fuel prev havings aggregates groupBys = some exec ∧
      exec.FirstPass result ∧ result.Perm (referenceGroups shape rows)

/-- What the hash of a key is taken of: its values as C strings, one after the other. -/
def hashStr (key : List Bytes) (behind : Nat → Bytes) : Bytes :=
  key.zipIdx.flatMap fun (raw, i) => (raw ++ behind i).takeWhile (· ≠ 0)

/-- Two records have the same hash, whatever lies behind their values, exactly if they have the same
group-by values, and then no INT column is among these; with HAVING, the hash of a record does not
depend on what lies behind its values. -/
structure KeysTold (strHash : Bytes → UInt64) (shape : AggrShape) (rows : List Bytes) : Prop where
  hashes : ∀ (i j : Nat) row row', rows[i]? = some row → rows[j]? = some row' →
    i ≠ j ∨ shape.havings ≠ [] → ∀ behind behind',
      strHash (hashStr (groupKey shape row) behind) =
        strHash (hashStr (groupKey shape row') behind') ↔ groupKey shape row = groupKey shape row'
  ints : ∀ (i j : Nat) row row', rows[i]? = some row → rows[j]? = some row' → i ≠ j →
    groupKey shape row = groupKey shape row' → ∀ col ∈ shape.groupBys, col.type ≠ .int

/-- There are only counts of the whole input, and HAVING rules them out. -/
def CountsRefused (shape : AggrShape) (rows : List Bytes) : Prop :=
  shape.groupBys = [] ∧ shape.onlyCount = true ∧ meetsHavings shape rows = false

theorem aggregateCursor_delivers {prev : Cursor Bytes} {s : AggregateState prev.State}
    {result : List Bytes} (h : s.hashIt.mapM (aggrRecord shape) = some result) :
    (aggregateCursor db shape fuel prev).Delivers s result := by
  obtain ⟨entries, hentries⟩ : ∃ entries, s.hashIt = entries := ⟨_, rfl⟩
  induction entries generalizing s result with
  | nil =>
    rw [hentries] at h
    cases h
    exact .nil (by simp [aggregateCursor, hentries])
  | cons entry entries ih =>
    rw [hentries, List.mapM_cons] at h
    obtain ⟨row, hrow, h⟩ := Option.bind_eq_some_iff.mp h
    obtain ⟨rest, hrest, h⟩ := Option.bind_eq_some_iff.mp h
    cases h
    have hread : (aggregateCursor db shape fuel prev).read s = some (row, s) := by
      simp [aggregateCursor, hentries, hrow]
    have hadvance : (aggregateCursor db shape fuel prev).advance s =
        some { s with hashIt := entries } := by
      simp only [aggregateCursor, hentries]
    exact .cons (by simp [aggregateCursor, hentries]) hread hadvance
      (@ih { s with hashIt := entries } rest hrest rfl)

/-- The columns of the aggregates are as wide as an `int`. -/
theorem AggrInput.record (h : AggrInput prev rows aggregates groupBys havings shape)
    (key : AggrKey) (acc : AggrSource → Int) (havingVals : List Value) :
    aggrRecord shape ⟨key, shape.sources.map fun source => .int (acc source), havingVals⟩ =
      some (entryRecord shape (key, acc)) := by
  obtain ⟨results, groups, hsources, hcols, hmetas⟩ := aggrShape_results h.built
  have hlen : ∀ result ∈ results, result.2.len = 4 := by
    intro result hresult
    obtain ⟨aggr, hcol⟩ := hmetas result hresult
    have hmem : result.1 ∈ shape.sources := hsources ▸ List.mem_map_of_mem hresult
    rcases h.numeric.sources result.1 hmem with hcount | hstar | ⟨col', hcol', htype, hplain⟩
    · exact aggrMeta_len hcol (Or.inr hcount)
    · exact aggrMeta_len hcol (Or.inl hstar)
    · have hfour : col'.len = 4 := by
        rcases hplain.type with ⟨-, hfour⟩ | hstring
        · exact hfour
        · rw [htype] at hstring
          cases hstring
      exact aggrMeta_len_int hcol hcol' hfour
  rw [aggrRecord, hsources, hcols, initRaw_ints hlen acc, Option.map_some, entryRecord, hsources]

theorem AggrInput.firstPass (h : AggrInput prev rows aggregates groupBys havings shape)
    (hfuel : rows.length ≤ fuel) :
    ∃ exec, aggregateExecutor db fuel prev havings aggregates groupBys = some exec ∧
      exec.FirstPass ((finalEntries db shape rows).map (entryRecord shape)) := by
  obtain ⟨s₀, hstart, hdelivers⟩ := h.pass
  obtain ⟨p, hcollect⟩ := hdelivers.collect hfuel
  refine ⟨⟨shape.cols, (shape.cols.map ColMeta.len).sum, aggregateCursor db shape fuel prev.cursor,
    ⟨prev.init, [], [], 0⟩⟩, by rw [aggregateExecutor, h.built, Option.map_some], ?_⟩
  have htable := @foldlM_addRecord db shape _ rows.zipIdx h.numeric fun x hx =>
    h.len x.1 (List.fst_mem_of_mem_zipIdx hx)
  obtain ⟨table, hfinal⟩ : ∃ table, finishTable db shape
      (((aggrScheme db shape).build rows.zipIdx).map (aggrEntry shape)) = some table :=
    ⟨_, finishTable_nums h.numeric h.rhs⟩
  have htableEq := Option.some.inj (hfinal.symm.trans (finishTable_nums h.numeric h.rhs))
  refine ⟨⟨p, table, table, 0 + rows.length⟩, ?_, aggregateCursor_delivers ?_⟩
  · simp only [aggregateCursor, hstart, Option.bind_some, hcollect, htable, hfinal,
      Option.map_some]
  · rw [htableEq]
    unfold finalEntries
    split
    next =>
      rw [List.mapM_cons, h.record]
      rfl
    next =>
      rw [List.mapM_map]
      exact MapM.mapM_eq_map fun e he => h.record _ _ _

/-- The values of a key are the group-by values. -/
theorem raws_keyOf (shape : AggrShape) (fresh : FreshKey) (row : Bytes) :
    (keyOf shape fresh row).map KeyValue.raw = groupKey shape row := by
  unfold keyOf groupKey
  rw [List.map_map]
  conv_rhs => rw [← List.zipIdx_map_fst 0 shape.groupBys, List.map_map]
  rfl

theorem aggrKeyHash_keyOf (strHash : Bytes → UInt64) (moment : HashMoment) (shape : AggrShape)
    (fresh : FreshKey) (row : Bytes) : aggrKeyHash strHash moment (keyOf shape fresh row) =
      strHash (hashStr (groupKey shape row) fun i => (fresh i).behind moment) := by
  unfold aggrKeyHash keyOf hashStr groupKey
  rw [List.flatMap_map, List.zipIdx_map, List.flatMap_map]
  rfl

theorem keyNums_keyOf (fresh fresh' : FreshKey) (row row' : Bytes) :
    keyNums (keyOf shape fresh row) = keyNums (keyOf shape fresh' row') ↔
      ∀ col ∈ shape.groupBys.zipIdx, col.1.type = .int →
        (fresh col.2).num = (fresh' col.2).num := by
  unfold keyNums keyOf
  rw [List.map_map, List.map_map, List.map_inj_left]
  refine forall₂_congr fun col _ => ?_
  by_cases hint : col.1.type = .int
  · simp [hint]
  · simp [hint]

/-- The keys of two records of the input, at any two moments. -/
theorem KeysTold.sameKey_iff (h : KeysTold db.strHash shape rows) {x y : Bytes × Nat}
    (hx : x ∈ rows.zipIdx) (hy : y ∈ rows.zipIdx) (hne : x.2 ≠ y.2 ∨ shape.havings ≠ [])
    (moment : HashMoment) :
    sameKey db.strHash moment (keyOf shape (db.freshKeys x.2) x.1)
        (keyOf shape (db.freshKeys y.2) y.1) = true ↔
      groupKey shape x.1 = groupKey shape y.1 := by
  have hrow := List.mem_zipIdx_iff_getElem?.mp hx
  have hrow' := List.mem_zipIdx_iff_getElem?.mp hy
  rw [sameKey, decide_eq_true_iff, aggrKeyHash_keyOf, aggrKeyHash_keyOf, keyNums_keyOf,
    h.hashes x.2 y.2 x.1 y.1 hrow hrow' hne, and_iff_left_iff_imp]
  intro hkey col hcol hint
  by_cases hplace : x.2 = y.2
  · rw [hplace]
  · exact absurd hint
      (h.ints x.2 y.2 x.1 y.1 hrow hrow' hplace hkey col.1 (List.fst_mem_of_mem_zipIdx hcol))

theorem KeysTold.separates (h : KeysTold db.strHash shape rows) :
    (aggrScheme db shape).Separates (List.map KeyValue.raw) rows.zipIdx := by
  have hplaces : rows.zipIdx.Pairwise fun x y => x.2 ≠ y.2 := by
    refine List.pairwise_map.mp ?_
    rw [List.zipIdx_map_snd]
    exact List.nodup_range'
  refine hplaces.imp_of_mem fun {x y} hx hy hne => ?_
  show sameKey _ _ _ _ = true ↔ List.map _ (keyOf shape _ _) = List.map _ (keyOf shape _ _)
  rw [raws_keyOf, raws_keyOf]
  exact h.sameKey_iff hx hy (.inl hne) .lookup

/-- The records of a group, without their numbers. -/
theorem map_fst_filter (rows : List Bytes) (key : List Bytes) :
    (rows.zipIdx.filter fun x =>
      ((aggrScheme db shape).key x).map KeyValue.raw = key).map Prod.fst =
        groupOf shape rows key := by
  conv_rhs => rw [groupOf, ← List.zipIdx_map_fst 0 rows, List.filter_map]
  refine congrArg (List.map Prod.fst) (List.filter_congr fun x _ => ?_)
  show decide ((keyOf shape _ _).map _ = key) = _
  rw [raws_keyOf]
  rfl

/-- Keys that are told apart give the table of the reference. -/
theorem AggrInput.kept_perm (h : AggrInput prev rows aggregates groupBys havings shape)
    (htold : KeysTold db.strHash shape rows) :
    ((keptEntries db shape rows).map (entryRecord shape)).Perm (referenceGroups shape rows) := by
  have hexact := Scheme.build_exact htold.separates
  have hrow : ∀ e ∈ (aggrScheme db shape).build rows.zipIdx,
      ∃ row ∈ rows, e.1.map KeyValue.raw = groupKey shape row := by
    intro e he
    obtain ⟨x, hx, hkey⟩ := keys_build rows.zipIdx e he
    exact ⟨x.1, List.fst_mem_of_mem_zipIdx hx, by rw [hkey, raws_keyOf]⟩
  have hsummary : ∀ e ∈ (aggrScheme db shape).build rows.zipIdx, ∀ source : AggrSource,
      IsInt32 (source.exact (groupOf shape rows (e.1.map KeyValue.raw))) →
        e.2 source = source.exact (groupOf shape rows (e.1.map KeyValue.raw)) := by
    intro e he source hrange
    have hgroup := @map_fst_filter db shape rows (e.1.map KeyValue.raw)
    rw [← hgroup] at hrange ⊢
    exact summary_exact (hexact.summary e he) hrange
  have hmeets : ∀ e ∈ (aggrScheme db shape).build rows.zipIdx,
      entryMeets shape e.2 = meetsHavings shape (groupOf shape rows (e.1.map KeyValue.raw)) := by
    intro e he
    obtain ⟨row, hmem, hkey⟩ := hrow e he
    rw [Bool.eq_iff_iff, entryMeets, meetsHavings, List.all_eq_true, List.all_eq_true]
    refine forall₂_congr fun having hh => ?_
    rw [hsummary e he having.1 (hkey ▸ h.havingSums row hmem having hh)]
  have hkept : keptEntries db shape rows =
      ((aggrScheme db shape).build rows.zipIdx).filter fun e =>
        meetsHavings shape (groupOf shape rows (e.1.map KeyValue.raw)) := by
    refine List.filter_congr fun e he => ?_
    rw [← hmeets e he, Bool.not_eq_eq_eq_not, Bool.eq_iff_iff]
    simp only [List.any_eq_true, Bool.and_eq_true, Bool.not_eq_eq_eq_not, Bool.not_true]
    obtain ⟨x, hx, hkey⟩ := keys_build rows.zipIdx e he
    have hsame : ∀ e' ∈ (aggrScheme db shape).build rows.zipIdx, entryMeets shape e'.2 = false →
        (sameKey db.strHash .erase e.1 e'.1 = true ↔
          e.1.map KeyValue.raw = e'.1.map KeyValue.raw) := by
      intro e' he' hfail
      obtain ⟨y, hy, hkey'⟩ := keys_build rows.zipIdx e' he'
      have hhavings : shape.havings ≠ [] := by
        intro hnone
        simp [entryMeets, hnone] at hfail
      rw [hkey, hkey', raws_keyOf, raws_keyOf]
      exact htold.sameKey_iff hx hy (.inr hhavings) .erase
    constructor
    · intro ⟨e', he', hfail, hsame'⟩
      rw [hmeets e he, (hsame e' he' hfail).mp hsame', ← hmeets e' he']
      exact hfail
    · exact fun hfail => ⟨e, he, hfail, (hsame e he hfail).mpr rfl⟩
  have hrecord : (keptEntries db shape rows).map (entryRecord shape) =
      ((((aggrScheme db shape).build rows.zipIdx).map fun e =>
        e.1.map KeyValue.raw).filter fun key => meetsHavings shape (groupOf shape rows key)).map
          fun key => aggregateRecord shape (groupOf shape rows key) key := by
    rw [hkept, List.filter_map, List.map_map]
    refine List.map_congr_left fun e he => ?_
    have hbuild := (List.mem_filter.mp he).1
    obtain ⟨row, hmem, hkey⟩ := hrow e hbuild
    rw [Function.comp_apply, entryRecord, aggregateRecord, List.flatMap_def]
    congr 2
    refine List.map_congr_left fun source hs => ?_
    rw [hsummary e hbuild source (hkey ▸ h.sums row hmem source hs)]
  have hkeys : (((aggrScheme db shape).build rows.zipIdx).map fun e =>
      e.1.map KeyValue.raw).Perm (rows.map (groupKey shape)).dedup := by
    refine (List.perm_ext_iff_of_nodup hexact.nodup (List.nodup_dedup _)).mpr fun key => ?_
    rw [hexact.mem key, List.mem_dedup]
    conv_rhs => rw [← List.zipIdx_map_fst 0 rows, List.map_map]
    refine iff_of_eq (congrArg (key ∈ ·) (List.map_congr_left fun x _ => ?_))
    exact raws_keyOf shape _ x.1
  rw [hrecord]
  exact (hkeys.filter _).map _

/-- Without GROUP BY all records are one group. -/
theorem keys_without_groupBy (hnone : shape.groupBys = []) (hne : rows ≠ []) :
    (rows.map (groupKey shape)).dedup = [[]] ∧ groupOf shape rows [] = rows := by
  have hkey : ∀ row, groupKey shape row = [] := fun row => by rw [groupKey, hnone, List.map_nil]
  constructor
  · obtain ⟨row, rest, rfl⟩ := List.exists_cons_of_ne_nil hne
    have hmap : (row :: rest).map (groupKey shape) = List.replicate (rest.length + 1) [] := by
      refine List.eq_replicate_iff.mpr ⟨by simp, fun key hmem => ?_⟩
      obtain ⟨row', -, rfl⟩ := List.mem_map.mp hmem
      exact hkey row'
    rw [hmap, List.replicate_dedup (by omega)]
  · exact List.filter_eq_self.mpr fun row _ => by simp [hkey row]

theorem aggregates_of_told (h : AggrInput prev rows aggregates groupBys havings shape)
    (htold : KeysTold db.strHash shape rows) (hcounts : ¬CountsRefused shape rows) :
    Aggregates db prev rows aggregates groupBys havings shape := by
  refine ⟨rows.length, fun fuel hfuel => ?_⟩
  obtain ⟨exec, hexec, hpass⟩ := @AggrInput.firstPass db prev rows aggregates groupBys havings shape
    fuel h hfuel
  refine ⟨exec, _, hexec, hpass, ?_⟩
  have hperm := h.kept_perm htold
  unfold finalEntries
  split
  next hempty =>
    obtain ⟨hkept, hnone, hcount⟩ := hempty
    rw [List.isEmpty_iff] at hkept hnone
    obtain ⟨hdedup, hall⟩ := keys_without_groupBy hnone (h.nonempty hnone)
    -- HAVING has erased the one group
    have hnil : referenceGroups shape rows = [] := by
      rw [hkept, List.map_nil] at hperm
      exact hperm.symm.eq_nil
    rw [referenceGroups, hdedup, List.map_eq_nil_iff, List.filter_eq_nil_iff] at hnil
    have hfail := hnil [] List.mem_cons_self
    rw [hall, Bool.not_eq_true] at hfail
    exact absurd ⟨hnone, hcount, hfail⟩ hcounts
  next => exact hperm

theorem AggrInput.length_final (h : AggrInput prev rows aggregates groupBys havings shape)
    (hagg : Aggregates db prev rows aggregates groupBys havings shape) :
    (finalEntries db shape rows).length = (referenceGroups shape rows).length := by
  obtain ⟨n, hagg⟩ := hagg
  obtain ⟨exec, result, hexec, ⟨s, hstart, hdelivers⟩, hperm⟩ :=
    hagg (max n rows.length) (le_max_left _ _)
  obtain ⟨exec', hexec', ⟨s', hstart', hdelivers'⟩⟩ :=
    @AggrInput.firstPass db prev rows aggregates groupBys havings shape _ h (le_max_right n _)
  obtain rfl : exec = exec' := Option.some.inj (hexec.symm.trans hexec')
  obtain rfl : s = s' := Option.some.inj (hstart.symm.trans hstart')
  rw [hdelivers.unique hdelivers'] at hperm
  rw [← hperm.length_eq, List.length_map]

theorem keysTold_without_groupBy (strHash : Bytes → UInt64) (hnone : shape.groupBys = []) :
    KeysTold strHash shape rows := by
  have hkey : ∀ row, groupKey shape row = [] := fun row => by rw [groupKey, hnone, List.map_nil]
  refine ⟨fun i j row row' _ _ _ behind behind' => ?_, fun i j row row' _ _ _ _ => by simp [hnone]⟩
  rw [hkey row, hkey row']
  exact iff_of_true rfl rfl

/-- Counts of the whole input that HAVING refuses come back as zeros. -/
theorem counts_of_aggregates (h : AggrInput prev rows aggregates groupBys havings shape)
    (hagg : Aggregates db prev rows aggregates groupBys havings shape) :
    ¬CountsRefused shape rows := by
  intro ⟨hnone, hcount, hfail⟩
  obtain ⟨hdedup, hall⟩ := keys_without_groupBy hnone (h.nonempty hnone)
  have hreference : referenceGroups shape rows = [] := by
    rw [referenceGroups, hdedup, List.map_eq_nil_iff, List.filter_eq_nil_iff]
    intro key hkey'
    rw [List.mem_singleton.mp hkey', hall, hfail]
    simp
  have hkept : keptEntries db shape rows = [] := by
    have hperm' := @AggrInput.kept_perm db prev rows aggregates groupBys havings shape h
      (keysTold_without_groupBy db.strHash hnone)
    rw [hreference] at hperm'
    exact List.map_eq_nil_iff.mp hperm'.eq_nil
  have hlen := h.length_final hagg
  rw [finalEntries, if_pos ⟨by rw [hkept]; rfl, by rw [hnone]; rfl, hcount⟩, hreference] at hlen
  simp at hlen

theorem length_build (h : AggrInput prev rows aggregates groupBys havings shape)
    (hnone : shape.havings = []) (hagg : Aggregates db prev rows aggregates groupBys havings shape) :
    ((aggrScheme db shape).build rows.zipIdx).length =
      (rows.map (groupKey shape)).toFinset.card := by
  have hkept : keptEntries db shape rows = (aggrScheme db shape).build rows.zipIdx := by
    refine List.filter_eq_self.mpr fun e _ => ?_
    simp [entryMeets, hnone]
  have hreference : (referenceGroups shape rows).length =
      (rows.map (groupKey shape)).toFinset.card := by
    have hmeets : ∀ group, meetsHavings shape group = true := fun group => by
      rw [meetsHavings, hnone, List.all_nil]
    rw [referenceGroups, List.length_map, List.filter_eq_self.mpr fun key _ => hmeets _,
      List.card_toFinset]
  rw [← hreference, ← h.length_final hagg, finalEntries, hkept]
  split
  next hempty =>
    have hrows := h.nonempty (List.isEmpty_iff.mp hempty.2.1)
    refine absurd (List.isEmpty_iff.mp hempty.1) (Scheme.build_ne_nil ?_)
    simpa using hrows
  next => rfl

end Run

section Chance

variable {db : Database} {prev : Executor} {rows : List Bytes} {aggregates : List AggrCol}
  {groupBys : List TabCol} {havings : List HavingCond} {shape : AggrShape}

/-- Chance parts that do not change while the table works. -/
def steadyKey (num : UInt32) (behind : Nat → Bytes) : FreshKey :=
  fun i => ⟨num, fun _ => behind i⟩

/-- What the hash table compares. -/
def keyLabel (strHash : Bytes → UInt64) (key : AggrKey) : UInt64 × List UInt32 :=
  (aggrKeyHash strHash .insert key, keyNums key)

theorem keyLabel_steadyKey (strHash : Bytes → UInt64) (num : UInt32) (behind : Nat → Bytes)
    (row : Bytes) : keyLabel strHash (keyOf shape (steadyKey num behind) row) =
      (strHash (hashStr (groupKey shape row) behind),
        shape.groupBys.map fun col => if col.type = .int then num else 0) := by
  rw [keyLabel, aggrKeyHash_keyOf]
  refine congrArg (_, ·) ?_
  unfold keyNums keyOf
  rw [List.map_map]
  conv_rhs => rw [← List.zipIdx_map_fst 0 shape.groupBys, List.map_map]
  rfl

/-- With steady chance parts the table has an entry for every label. -/
theorem exact_label {num : Nat → UInt32} {behind : Nat → Nat → Bytes}
    (hfresh : db.freshKeys = fun n => steadyKey (num n) (behind n)) (xs : List (Bytes × Nat)) :
    (aggrScheme db shape).Exact (keyLabel db.strHash) xs ((aggrScheme db shape).build xs) := by
  refine Scheme.build_exact (List.pairwise_of_forall fun x y => ?_)
  show sameKey _ _ (keyOf _ _ _) (keyOf _ _ _) = true ↔
    keyLabel _ (keyOf _ _ _) = keyLabel _ (keyOf _ _ _)
  rw [sameKey, decide_eq_true_iff, keyLabel, keyLabel, Prod.mk.injEq, hfresh]
  simp only [aggrKeyHash_keyOf]
  rfl

/-- Different group-by values have different hashes. -/
theorem groupKey_of_hash (h : AggrInput prev rows aggregates groupBys havings shape)
    (hnone : shape.havings = [])
    (hagg : ∀ fresh, Aggregates { db with freshKeys := fresh } prev rows aggregates groupBys
      havings shape) {row row' : Bytes} (hrow : row ∈ rows) (hrow' : row' ∈ rows)
    {behind behind' : Nat → Bytes}
    (heq : db.strHash (hashStr (groupKey shape row) behind) =
      db.strHash (hashStr (groupKey shape row') behind')) :
    groupKey shape row = groupKey shape row' := by
  by_contra hne
  let chance : List Bytes → Nat → Bytes := fun key =>
    if key = groupKey shape row then behind else behind'
  let fresh : Nat → FreshKey := fun n => steadyKey 0 (chance (groupKey shape (rows.getD n [])))
  obtain ⟨n, hn⟩ := List.mem_iff_getElem?.mp hrow
  obtain ⟨n', hn'⟩ := List.mem_iff_getElem?.mp hrow'
  have hexact := @exact_label { db with freshKeys := fresh } shape (fun _ => 0)
    (fun n => chance (groupKey shape (rows.getD n []))) rfl rows.zipIdx
  let label (key : List Bytes) : UInt64 × List UInt32 :=
    (db.strHash (hashStr key (chance key)), shape.groupBys.map fun _ => 0)
  have hvalue : ∀ x ∈ rows.zipIdx, keyLabel db.strHash
      ((aggrScheme { db with freshKeys := fresh } shape).key x) = label (groupKey shape x.1) := by
    intro x hx
    have hplace := List.mem_zipIdx_iff_getElem?.mp hx
    show keyLabel db.strHash (keyOf shape (steadyKey 0 _) x.1) = _
    rw [keyLabel_steadyKey, List.getD_eq_getElem?_getD, hplace, Option.getD_some]
    simp only [label, ite_self]
  have hlen : (rows.zipIdx.map fun x => groupKey shape x.1).toFinset.card ≤
      ((aggrScheme { db with freshKeys := fresh } shape).build rows.zipIdx).length := by
    rw [length_build h hnone (hagg fresh)]
    conv_rhs => rw [← List.zipIdx_map_fst 0 rows, List.map_map]
    exact le_rfl
  refine hne (hexact.inj_of_length (f := label) hvalue hlen (x := (row, n)) (y := (row', n'))
    (List.mem_zipIdx_iff_getElem?.mpr hn) (List.mem_zipIdx_iff_getElem?.mpr hn') ?_)
  simp only [label, chance, if_neg (Ne.symm hne), if_true, heq]

/-- Equal group-by values have the same hash and no numbers that could be compared. -/
theorem hash_of_groupKey (h : AggrInput prev rows aggregates groupBys havings shape)
    (hnone : shape.havings = [])
    (hagg : ∀ fresh, Aggregates { db with freshKeys := fresh } prev rows aggregates groupBys
      havings shape) {i j : Nat} {row row' : Bytes} (hrow : rows[i]? = some row)
    (hrow' : rows[j]? = some row') (hne : i ≠ j) (hkey : groupKey shape row = groupKey shape row')
    (behind behind' : Nat → Bytes) :
    db.strHash (hashStr (groupKey shape row) behind) =
        db.strHash (hashStr (groupKey shape row') behind') ∧
      ∀ col ∈ shape.groupBys, col.type ≠ .int := by
  -- only the second record meets other chance parts than all the rest
  let fresh : Nat → FreshKey := fun _ => steadyKey 0 behind
  let fresh' : Nat → FreshKey := fun n => steadyKey (if n = j then 1 else 0)
    (if n = j then behind' else behind)
  let label (fresh : Nat → FreshKey) (x : Bytes × Nat) : UInt64 × List UInt32 :=
    keyLabel db.strHash (keyOf shape (fresh x.2) x.1)
  have hcard : (rows.zipIdx.map (label fresh')).toFinset.card ≤
      (rows.zipIdx.map (label fresh)).toFinset.card := by
    have hexact := @exact_label { db with freshKeys := fresh } shape (fun _ => 0)
      (fun _ => behind) rfl rows.zipIdx
    have hexact' := @exact_label { db with freshKeys := fresh' } shape
      (fun n => if n = j then 1 else 0) (fun n => if n = j then behind' else behind) rfl rows.zipIdx
    exact (hexact'.length.symm.trans ((length_build h hnone (hagg fresh')).trans
      ((length_build h hnone (hagg fresh)).symm.trans hexact.length))).le
  have hrest : ∀ x : Bytes × Nat, x.2 ≠ j → label fresh' x = label fresh x := by
    intro x hx
    simp only [label, fresh, fresh', if_neg hx]
  have hsub : (rows.zipIdx.map (label fresh)).toFinset ⊆
      (rows.zipIdx.map (label fresh')).toFinset := by
    intro l hl
    rw [List.mem_toFinset] at hl ⊢
    obtain ⟨x, hx, rfl⟩ := List.mem_map.mp hl
    by_cases hplace : x.2 = j
    · have hsame : x.1 = row' := by
        have hx' := List.mem_zipIdx_iff_getElem?.mp hx
        rw [hplace, hrow'] at hx'
        exact (Option.some.inj hx').symm
      refine List.mem_map.mpr ⟨(row, i), List.mem_zipIdx_iff_getElem?.mpr hrow, ?_⟩
      rw [hrest (row, i) hne]
      simp only [label, fresh, keyLabel_steadyKey, hkey, hsame]
    · exact List.mem_map.mpr ⟨x, hx, hrest x hplace⟩
  have hmem : label fresh' (row', j) ∈ (rows.zipIdx.map (label fresh)).toFinset := by
    rw [Finset.eq_of_subset_of_card_le hsub hcard, List.mem_toFinset]
    exact List.mem_map_of_mem (List.mem_zipIdx_iff_getElem?.mpr hrow')
  obtain ⟨x, hx, hlabel⟩ := List.mem_map.mp (List.mem_toFinset.mp hmem)
  have hxrow := List.mem_of_getElem? (List.mem_zipIdx_iff_getElem?.mp hx)
  simp only [label, fresh, fresh', keyLabel_steadyKey, if_true, Prod.mk.injEq] at hlabel
  obtain ⟨hhash, hnums⟩ := hlabel
  have hsame := groupKey_of_hash h hnone hagg hxrow (List.mem_of_getElem? hrow') hhash
  constructor
  · rw [hkey, ← hsame, hhash, hsame]
  · intro col hcol hint
    have hnum := List.map_inj_left.mp hnums col hcol
    simp [hint] at hnum

theorem told_of_aggregates (h : AggrInput prev rows aggregates groupBys havings shape)
    (hnone : shape.havings = [])
    (hagg : ∀ fresh, Aggregates { db with freshKeys := fresh } prev rows aggregates groupBys
      havings shape) : KeysTold db.strHash shape rows := by
  constructor
  · intro i j row row' hrow hrow' hne behind behind'
    have hplace : i ≠ j := hne.resolve_right fun hsome => hsome hnone
    exact ⟨groupKey_of_hash h hnone hagg (List.mem_of_getElem? hrow) (List.mem_of_getElem? hrow'),
      fun hkey => (hash_of_groupKey h hnone hagg hrow hrow' hplace hkey behind behind').1⟩
  · intro i j row row' hrow hrow' hne hkey
    exact (hash_of_groupKey h hnone hagg hrow hrow' hne hkey (fun _ => []) fun _ => []).2

end Chance

/-- The aggregation is the reference grouping, whatever the chance parts of the keys are, where the
hash tells the group-by values apart, except for counts of the whole input that HAVING refuses: they
come back as zeros. Without HAVING or without GROUP BY it is so for no other input. -/
theorem aggregateExecutor_groups (db : Database) (prev : Executor) (rows : List Bytes)
    (aggregates : List AggrCol) (groupBys : List TabCol) (havings : List HavingCond)
    (shape : AggrShape) (h : AggrInput prev rows aggregates groupBys havings shape) :
    (KeysTold db.strHash shape rows ∧ ¬CountsRefused shape rows →
      ∀ fresh, Aggregates { db with freshKeys := fresh } prev rows aggregates groupBys havings
        shape) ∧
    (shape.havings = [] ∨ shape.groupBys = [] →
      ((∀ fresh, Aggregates { db with freshKeys := fresh } prev rows aggregates groupBys havings
        shape) ↔ KeysTold db.strHash shape rows ∧ ¬CountsRefused shape rows)) := by
  have hsound : KeysTold db.strHash shape rows ∧ ¬CountsRefused shape rows →
      ∀ fresh, Aggregates { db with freshKeys := fresh } prev rows aggregates groupBys havings
        shape :=
    fun hcond fresh => @aggregates_of_told { db with freshKeys := fresh } prev rows aggregates groupBys
      havings shape h hcond.1 hcond.2
  refine ⟨hsound, fun hplain => ⟨fun hagg => ⟨?_, counts_of_aggregates h (hagg db.freshKeys)⟩,
    hsound⟩⟩
  rcases hplain with hnone | hnone
  · exact told_of_aggregates h hnone hagg
  · exact keysTold_without_groupBy db.strHash hnone

section Short

variable {strHash : Bytes → UInt64} {rows : List Bytes} {shape : AggrShape}

/-- Values that are not as long as their columns end inside them. -/
theorem hashStr_short {key : List Bytes} (hshort : ∀ raw ∈ key, 0 ∈ raw) (behind : Nat → Bytes) :
    hashStr key behind = key.flatMap fun raw => raw.takeWhile (· ≠ 0) := by
  have hends : ∀ raw ∈ key, ∀ more : Bytes,
      (raw ++ more).takeWhile (· ≠ 0) = raw.takeWhile (· ≠ 0) := by
    intro raw hraw more
    have hstop : ¬(raw.takeWhile (· ≠ 0)).length = raw.length := by
      intro hlen
      have hall := List.takeWhile_eq_self_iff.mp ((List.takeWhile_prefix _).eq_of_length hlen)
      simpa using hall 0 (hshort raw hraw)
    rw [List.takeWhile_append, if_neg hstop]
  unfold hashStr
  conv_rhs => rw [← List.zipIdx_map_fst 0 key, List.flatMap_map]
  refine List.flatMap_congr fun x hx => ?_
  exact hends x.1 (List.fst_mem_of_mem_zipIdx hx) (behind x.2)

/-- CHAR values that are not as long as their columns are told apart by the hashes of their C
strings. -/
theorem keysTold_of_short (hstring : ∀ col ∈ shape.groupBys, col.type ≠ .int)
    (hshort : ∀ row ∈ rows, ∀ raw ∈ groupKey shape row, 0 ∈ raw)
    (hhash : ∀ row ∈ rows, ∀ row' ∈ rows,
      strHash ((groupKey shape row).flatMap fun raw => raw.takeWhile (· ≠ 0)) =
        strHash ((groupKey shape row').flatMap fun raw => raw.takeWhile (· ≠ 0)) →
          groupKey shape row = groupKey shape row') : KeysTold strHash shape rows := by
  refine ⟨fun i j row row' hrow hrow' _ behind behind' => ?_, fun _ _ _ _ _ _ _ _ => hstring⟩
  have hmem := List.mem_of_getElem? hrow
  have hmem' := List.mem_of_getElem? hrow'
  rw [hashStr_short (hshort row hmem), hashStr_short (hshort row' hmem')]
  exact ⟨hhash row hmem row' hmem', fun hkey => by rw [hkey]⟩

end Short

/-- Two CHAR(3) columns and an INT column. -/
def namesTab : TabMeta :=
  ⟨"t", [⟨"t", "c", .string, 3, 0⟩, ⟨"t", "d", .string, 3, 3⟩, ⟨"t", "y", .int, 4, 6⟩], []⟩

/-- `("ab", "", 5)`, `("b", "", 7)` and `("ab", "", 1)`. -/
def namesRows : List Bytes :=
  [[97, 98, 0, 0, 0, 0, 5, 0, 0, 0], [98, 0, 0, 0, 0, 0, 7, 0, 0, 0],
    [97, 98, 0, 0, 0, 0, 1, 0, 0, 0]]

/-- `("ab", "", 5)` and `("a", "b", 7)`. -/
def clashRows : List Bytes :=
  [[97, 98, 0, 0, 0, 0, 5, 0, 0, 0], [97, 0, 0, 98, 0, 0, 7, 0, 0, 0]]

def namesAggregates : List AggrCol := [⟨⟨"", "*"⟩, .countStar, "n"⟩, ⟨⟨"t", "y"⟩, .sum, "s"⟩]

/-- The columns of `SELECT COUNT(*) AS n, SUM(y) AS s FROM t GROUP BY c, d`. -/
def namesShape : AggrShape where
  sources := [⟨.countStar, none⟩, ⟨.sum, some ⟨"t", "y", .int, 4, 6⟩⟩]
  groupBys := [⟨"t", "c", .string, 3, 0⟩, ⟨"t", "d", .string, 3, 3⟩]
  havings := []
  cols := [⟨"", "n", .int, 4, 0⟩, ⟨"", "s", .int, 4, 4⟩, ⟨"t", "c", .string, 3, 8⟩,
    ⟨"t", "d", .string, 3, 11⟩]

theorem namesInput {prev : Executor} {rows : List Bytes} (hpass : prev.FirstPass rows)
    (hcols : prev.cols = namesTab.cols) (hlen : prev.tupleLen = 10)
    (hrows : ∀ row ∈ rows, row.length = 10)
    (hsums : ∀ row ∈ rows, ∀ source ∈ namesShape.sources,
      IsInt32 (source.exact (groupOf namesShape rows (groupKey namesShape row)))) :
    AggrInput prev rows namesAggregates [⟨"t", "c"⟩, ⟨"t", "d"⟩] [] namesShape := by
  refine ⟨hpass, by rw [hcols]; rfl, by rwa [hlen], ?_, by simp [namesShape], by simp [namesShape],
    hsums, by simp [namesShape]⟩
  rw [hlen]
  refine ⟨fun source hsource => ?_, by simp [namesShape], fun col hcol => ?_⟩
  · simp only [namesShape, List.mem_cons, List.not_mem_nil, or_false] at hsource
    rcases hsource with rfl | rfl
    · exact Or.inr (Or.inl rfl)
    · exact Or.inr (Or.inr ⟨_, rfl, rfl, Or.inl ⟨rfl, rfl⟩, by decide⟩)
  · simp only [namesShape, List.mem_cons, List.not_mem_nil, or_false] at hcol
    rcases hcol with rfl | rfl
    · exact ⟨Or.inr rfl, by decide⟩
    · exact ⟨Or.inr rfl, by decide⟩

/-- Two groups, one of them of two records. -/
theorem aggregateExecutor_groups_names :
    ∃ (file : TableFile) (prev : Executor),
      seqScanExecutor namesTab file (fun _ => none) [] = some prev ∧
      prev.FirstPass namesRows ∧ ∀ fresh, Aggregates { twoRowsDatabase with
        strHash := fun s => s.foldl (fun hash byte => hash * 31 + byte.toUInt64) 0
        freshKeys := fresh } prev namesRows namesAggregates [⟨"t", "c"⟩, ⟨"t", "d"⟩] []
          namesShape := by
  have hscan : ∃ (file : TableFile) (prev : Executor),
      seqScanExecutor namesTab file (fun _ => none) [] = some prev ∧ prev.FirstPass namesRows ∧
        prev.cols = namesTab.cols ∧ prev.tupleLen = 10 :=
    ⟨⟨[⟨1, 0⟩, ⟨1, 1⟩, ⟨1, 2⟩].zip namesRows, by decide⟩, _, rfl, ⟨_, rfl, .cons rfl rfl rfl
      (.cons rfl rfl rfl (.cons rfl rfl rfl (.nil rfl)))⟩, rfl, rfl⟩
  obtain ⟨file, prev, hscan, hpass, hcols, hlen⟩ := hscan
  refine ⟨file, prev, hscan, hpass, (aggregateExecutor_groups { twoRowsDatabase with
    strHash := fun s => s.foldl (fun hash byte => hash * 31 + byte.toUInt64) 0 } prev namesRows _ _ _
      _ (namesInput hpass hcols hlen (by decide) (by decide))).1 ⟨?_, fun hcounts => ?_⟩⟩
  · exact keysTold_of_short (by decide) (by decide) (by decide)
  · exact absurd hcounts.1 (by decide)

/-- `HAVING COUNT(*) > 1`. -/
def countAboveOne : HavingCond := ⟨⟨⟨"", "*"⟩, .countStar, ""⟩, .gt, .int 1⟩

/-- The columns of `SELECT COUNT(*) AS n FROM a HAVING COUNT(*) > 1`. -/
def countShape : AggrShape where
  sources := [⟨.countStar, none⟩]
  groupBys := []
  havings := [(⟨.countStar, none⟩, countAboveOne)]
  cols := [⟨"", "n", .int, 4, 0⟩]

/-- Two vectors of group-by values come out as one group, whatever the hash and the chance parts
are, and one record that HAVING refuses comes out as a count of zero. -/
theorem aggregateExecutor_wrong_groups :
    (∃ (file : TableFile) (prev : Executor),
      seqScanExecutor namesTab file (fun _ => none) [] = some prev ∧ prev.FirstPass clashRows ∧
      ∀ strHash fresh, ¬Aggregates
        { twoRowsDatabase with strHash := strHash, freshKeys := fresh } prev clashRows
          namesAggregates [⟨"t", "c"⟩, ⟨"t", "d"⟩] [] namesShape) ∧
    ∃ prev, (Plan.scan ⟨false, "a", [], []⟩).Yields (joinDatabase twoRows) 2 prev
        [[2, 0, 0, 0, 5, 0, 0, 0]] ∧
      ¬Aggregates (joinDatabase twoRows) prev [[2, 0, 0, 0, 5, 0, 0, 0]]
        [⟨⟨"", "*"⟩, .countStar, "n"⟩] [] [countAboveOne] countShape := by
  constructor
  · have hscan : ∃ (file : TableFile) (prev : Executor),
        seqScanExecutor namesTab file (fun _ => none) [] = some prev ∧ prev.FirstPass clashRows ∧
          prev.cols = namesTab.cols ∧ prev.tupleLen = 10 :=
      ⟨⟨[⟨1, 0⟩, ⟨1, 1⟩].zip clashRows, by decide⟩, _, rfl,
        ⟨_, rfl, .cons rfl rfl rfl (.cons rfl rfl rfl (.nil rfl))⟩, rfl, rfl⟩
    obtain ⟨file, prev, hscan, hpass, hcols, hlen⟩ := hscan
    refine ⟨file, prev, hscan, hpass, fun strHash fresh hagg => ?_⟩
    have hentries := length_build (namesInput hpass hcols hlen (by decide) (by decide)) rfl hagg
    have hsame : sameKey strHash .lookup
        (keyOf namesShape (fresh 0) [97, 98, 0, 0, 0, 0, 5, 0, 0, 0])
        (keyOf namesShape (fresh 1) [97, 0, 0, 98, 0, 0, 7, 0, 0, 0]) = true := by
      rw [sameKey, decide_eq_true_iff, aggrKeyHash_keyOf, aggrKeyHash_keyOf, keyNums_keyOf,
        hashStr_short (by decide), hashStr_short (by decide)]
      have hstring : ∀ col ∈ namesShape.groupBys.zipIdx, col.1.type ≠ .int := by decide
      exact ⟨rfl, fun col hcol hint => absurd hint (hstring col hcol)⟩
    have hone : ((aggrScheme { twoRowsDatabase with strHash := strHash, freshKeys := fresh }
        namesShape).build clashRows.zipIdx).length = 1 := by
      simp only [Scheme.build, clashRows, List.zipIdx_cons, List.zipIdx_nil, List.foldl_cons,
        List.foldl_nil, Scheme.add, aggrScheme, List.any_nil, Bool.false_eq_true, if_false,
        Nat.zero_add, List.nil_append, List.any_cons, hsame, Bool.or_false, if_true, List.map_cons,
        List.map_nil, List.length_singleton]
    rw [hone] at hentries
    exact absurd hentries (by decide)
  · have hscan : ∃ prev, (Plan.scan ⟨false, "a", [], []⟩).Yields (joinDatabase twoRows) 2 prev
        [[2, 0, 0, 0, 5, 0, 0, 0]] ∧
        prev.cols = [⟨"a", "x", .int, 4, 0⟩, ⟨"a", "y", .int, 4, 4⟩] ∧ prev.tupleLen = 8 :=
      ⟨_, ⟨rfl, _, rfl, .cons rfl rfl rfl (.nil rfl)⟩, rfl, rfl⟩
    obtain ⟨prev, hyields, hcols, hlen⟩ := hscan
    have hnumeric : NumericShape countShape prev.tupleLen := by
      refine ⟨fun source hsource => Or.inr (Or.inl ?_), fun having hh => Or.inr (Or.inl ?_),
        by simp [countShape]⟩
      · rw [List.mem_singleton.mp hsource]
      · rw [List.mem_singleton.mp hh]
    refine ⟨prev, hyields, fun hagg => ?_⟩
    exact counts_of_aggregates ⟨hyields.2, by rw [hcols]; rfl, by rw [hlen]; decide, hnumeric,
      by simp [countShape, countAboveOne, Value.type], by simp, by decide, by decide⟩ hagg
        ⟨rfl, rfl, by decide⟩

end Grmdb
