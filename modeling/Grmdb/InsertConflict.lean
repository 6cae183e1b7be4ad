import Grmdb.IndexMap
import Grmdb.InsertExecutor
import Grmdb.KeyedIndex
import Grmdb.PinBalance

namespace Grmdb

open PagedTree Tiling MapM

/-- An index of a table as the open file. -/
structure TreeIndex where
  index : IndexMeta
  offset : String → Nat
  fits : colTotLen index.ixCols ≤ IX_MAX_COL_LEN
  file : IxFile (IxKey index.ixCols)

/-- The bytes in front of the first key of a leaf, for keys of the given columns. -/
abbrev LeafFront : Type := (cols : List IxCol) → IxNode (IxKey cols) → IxKey cols

namespace TreeIndex

def key (ix : TreeIndex) (rec : Bytes) : IxKey ix.index.ixCols := ix.index.makeKey ix.offset rec

def layout (ix : TreeIndex) : IxLayout (IxKey ix.index.ixCols) := .ofCols ix.index.ixCols ix.fits

def insertEntry (ix : TreeIndex) (key : IxKey ix.index.ixCols) (rid : Rid) :
    IxResult (IxKey ix.index.ixCols) :=
  ix.file.insertEntry ix.layout key rid

/-- `delete_entry`; `none` where it follows no page or takes the bytes in front of the keys for the
key. -/
def deleteEntry (front : LeafFront) (ix : TreeIndex) (key : IxKey ix.index.ixCols) :
    Option TreeIndex :=
  (ix.file.deleteEntryPins ix.layout (front ix.index.ixCols) key).map fun r =>
    { ix with file := r.2 }

/-- The index leads from the bytes of a key to a row. -/
def Leads (ix : TreeIndex) (bytes : Bytes) (rid : Rid) : Prop :=
  ∃ k : IxKey ix.index.ixCols, k.1 = bytes ∧ Stores ix.file.tree k rid

/-- The invariant of the file. -/
def Sound (ix : TreeIndex) : Prop := IsIndex ix.layout ix.file

/-- `delete_entry` of the key changes nothing: the key is not there, there is a leaf for it, and
this leaf holds a greater key or has other bytes in front of its keys. -/
def Spares (front : LeafFront) (ix : TreeIndex) (key : IxKey ix.index.ixCols) : Prop :=
  (∀ r, ¬ Stores ix.file.tree key r) ∧
    ∃ p leaf, ix.file.findLeafPage ix.layout key = some p ∧ ix.file.pages p = some leaf ∧
      ((∃ e ∈ leaf.entries, key ≤ e.1) ∨ front ix.index.ixCols leaf ≠ key)

end TreeIndex

structure TreeTable where
  file : RmFile
  indexes : List TreeIndex

/-- The write set is kept with its back first. -/
structure TreeRun where
  tab : TreeTable
  writeSet : List WriteRecord

/-- The index loop of `InsertExecutor::Next` from the `i`-th index on; `granted i` says whether
`lock_exclusive_on_record_gap` returns there or throws. -/
def insertTreeKeys (granted : Nat → Bool) (rec : Bytes) (rid : Rid) :
    Nat → List TreeIndex → Option (List TreeIndex × Ended)
  | _, [] => some ([], .returned)
  | i, ix :: rest =>
    if granted i then
      match ix.insertEntry (ix.key rec) rid with
      | .failed => none
      | .existsError file => some ({ ix with file := file } :: rest, .constraintViolation)
      | .returned file =>
        (insertTreeKeys granted rec rid (i + 1) rest).map fun r =>
          ({ ix with file := file } :: r.1, r.2)
    else some (ix :: rest, .lockConflict)

namespace TreeRun

/-- `InsertExecutor::Next` for the record `rec`. -/
def insertNext (s : TreeRun) (rec : Bytes) (lsn lsnBack : Lsn) (granted : Nat → Bool) :
    Option (TreeRun × Ended) :=
  (s.tab.file.insertRecord rec (some lsn)).bind fun (file, rid) =>
    (insertTreeKeys granted rec rid 0 s.tab.indexes).bind fun (indexes, ended) =>
      let writeSet := .insertTuple rid rec :: s.writeSet
      match ended with
      | .constraintViolation =>
        (file.deleteRecord rid (some lsnBack)).map fun file =>
          (⟨⟨file, indexes⟩, writeSet.tail⟩, ended)
      | _ => some (⟨⟨file, indexes⟩, writeSet⟩, ended)

/-- The iteration of `TransactionManager::abort` for an insert, up to its recalculation of gaps,
which changes neither rows nor entries. -/
def undoInsert (front : LeafFront) (tab : TreeTable) (rid : Rid) (rec : Bytes) :
    Option TreeTable :=
  (tab.file.deleteRecord rid none).bind fun file =>
    (tab.indexes.mapM fun ix : TreeIndex => ix.deleteEntry front (ix.key rec)).map fun indexes =>
      ⟨file, indexes⟩

/-- The abort of a statement that has left the write record of an insert takes the table back to
the rows of `s` and the map of each index. -/
def Restored (front : LeafFront) (s s' : TreeRun) : Prop :=
  ∃ rid rec t, s'.writeSet = .insertTuple rid rec :: s.writeSet ∧
    undoInsert front s'.tab rid rec = some t ∧ t.file.record = s.tab.file.record ∧
    List.Forall₂ (fun ix ix' : TreeIndex => ∀ bytes r, ix'.Leads bytes r ↔ ix.Leads bytes r)
      s.tab.indexes t.indexes

end TreeRun

namespace TreeIndex

variable {ix ix' : TreeIndex} {front : LeafFront} {key : IxKey ix.index.ixCols} {rid : Rid}
  {file : IxFile (IxKey ix.index.ixCols)}

theorem leads_iff {key : IxKey ix.index.ixCols} :
    ix.Leads key.1 rid ↔ Stores ix.file.tree key rid := by
  constructor
  · rintro ⟨k, hk, hstored⟩
    rwa [← Subtype.ext hk]
  · exact fun hstored => ⟨key, rfl, hstored⟩

theorem leads_congr (h : ∀ k r, Stores file.tree k r ↔ Stores ix.file.tree k r) (bytes : Bytes)
    (r : Rid) : TreeIndex.Leads { ix with file := file } bytes r ↔ ix.Leads bytes r :=
  exists_congr fun k => and_congr_right fun _ => h k r

theorem deleteEntry_of_some (front : LeafFront)
    (h : ix.file.deleteEntry ix.layout key = some file) :
    ix.deleteEntry front key = some { ix with file := file } := by
  obtain ⟨p, hfind, h⟩ := Option.bind_eq_some_iff.mp h
  obtain ⟨leaf, hleaf, h⟩ := Option.bind_eq_some_iff.mp h
  obtain ⟨pos, hpos, h⟩ := Option.bind_eq_some_iff.mp h
  simp only [deleteEntry, IxFile.deleteEntryPins, hfind, Option.bind_some, hleaf, hpos]
  split at h
  next hkey => rw [if_pos hkey, h, Option.map_some, Option.map_some]
  next hkey =>
    cases Option.some.inj h
    rw [if_neg hkey, Option.map_some]

/-- Where every key of the leaf is smaller, the bytes in front of its keys decide. -/
theorem deleteEntry_behind (front : LeafFront) {p : PageNo} {leaf : IxNode (IxKey ix.index.ixCols)}
    (hfind : ix.file.findLeafPage ix.layout key = some p) (hleaf : ix.file.pages p = some leaf)
    (hnone : leaf.lowerBound ix.layout key = none) :
    ix.deleteEntry front key = if front ix.index.ixCols leaf = key then none else some ix := by
  simp only [deleteEntry, IxFile.deleteEntryPins, hfind, Option.bind_some, hleaf, hnone]
  split <;> rfl

/-- An entry that an insert has made is taken away again. -/
theorem deleteEntry_inserted (h : ix.Sound) (front : LeafFront)
    (hins : ix.insertEntry key rid = .returned file) :
    ∃ ix', TreeIndex.deleteEntry front { ix with file := file } key = some ix' ∧
      ∀ bytes r, ix'.Leads bytes r ↔ ix.Leads bytes r := by
  obtain ⟨hindex, hstores⟩ := IsIndex.insertEntry h hins
  have hfresh : ∀ r, ¬ Stores ix.file.tree key r := by
    intro r hr
    have hthrow : ix.insertEntry key rid = .existsError ix.file := IsIndex.insertEntry_stored h hr
    cases hins.symm.trans hthrow
  have hthere : Stores file.tree key rid := (hstores key rid).mpr (.inr ⟨rfl, rfl⟩)
  obtain ⟨file', hdel⟩ := hindex.deleteEntry_returns hthere
  obtain ⟨-, hleft⟩ := hindex.deleteEntry hdel
  refine ⟨{ ix with file := file' }, deleteEntry_of_some front hdel, leads_congr fun k r => ?_⟩
  rw [hleft, hstores]
  constructor
  · rintro ⟨hold | ⟨rfl, -⟩, hne⟩
    · exact hold
    · exact absurd rfl hne
  · refine fun hold => ⟨.inl hold, ?_⟩
    rintro rfl
    exact hfresh r hold

/-- `delete_entry` of a key that no insert has made. -/
theorem deleteEntry_restores_iff (h : ix.Sound) (front : LeafFront) (key : IxKey ix.index.ixCols) :
    (∃ ix', ix.deleteEntry front key = some ix' ∧ ∀ bytes r, ix'.Leads bytes r ↔ ix.Leads bytes r) ↔
      ix.Spares front key := by
  rcases h with h | ⟨g, ls, h⟩
  · have hnone : ix.deleteEntry front key = none := by
      rw [deleteEntry, IxFile.deleteEntryPins, h.findLeafPage]
      rfl
    constructor
    · rintro ⟨ix', hdel, -⟩
      rw [hnone] at hdel
      cases hdel
    · rintro ⟨-, p, leaf, hfind, -⟩
      rw [h.findLeafPage] at hfind
      cases hfind
  obtain ⟨p, n, low, high, c⟩ := h.exists_leafCut key
  have hbound := c.lowerBound h
  have hleaf : ∀ {P : IxNode (IxKey ix.index.ixCols) → Prop},
      (∃ p leaf, ix.file.findLeafPage ix.layout key = some p ∧ ix.file.pages p = some leaf ∧
        P leaf) ↔ P n := by
    intro P
    constructor
    · rintro ⟨p', leaf, hfind, hp', hP⟩
      cases Option.some.inj (hfind.symm.trans c.find)
      cases Option.some.inj (hp'.symm.trans c.page)
      exact hP
    · exact fun hP => ⟨p, n, c.find, c.page, hP⟩
  rw [Spares, hleaf]
  cases high with
  | nil =>
    rw [if_pos rfl] at hbound
    rw [deleteEntry_behind front c.find c.page hbound]
    have habsent : ∀ r, ¬ Stores ix.file.tree key r := by
      intro r hr
      obtain ⟨rest, heq⟩ := (c.stores_iff h).mp hr
      cases heq
    have hbelow : ¬ ∃ e ∈ n.entries, key ≤ e.1 := by
      rintro ⟨e, he, hle⟩
      rw [c.entries, List.append_nil] at he
      exact absurd (c.below e he) hle.not_gt
    rw [and_iff_right habsent, or_iff_right hbelow]
    by_cases hfront : front ix.index.ixCols n = key
    · simp [hfront]
    · rw [if_neg hfront]
      exact ⟨fun _ => hfront, fun _ => ⟨ix, rfl, fun _ _ => Iff.rfl⟩⟩
  | cons e rest =>
    by_cases he : e.1 = key
    · obtain ⟨file, hdel, -, hstores⟩ := h.deleteEntry_found c he
      have hthere : Stores ix.file.tree key e.2 := (c.stores_iff h).mpr ⟨rest, by rw [← he]⟩
      rw [deleteEntry_of_some front hdel]
      constructor
      · rintro ⟨ix', heq, hleads⟩
        cases heq
        have hkept := leads_iff.mp ((hleads key.1 e.2).mpr (leads_iff.mpr hthere))
        exact absurd rfl ((hstores key e.2).mp hkept).2
      · exact fun hspares => absurd hthere (hspares.1 e.2)
    · have habsent : ∀ r, ¬ Stores ix.file.tree key r := by
        intro r hr
        obtain ⟨rest', heq⟩ := (c.stores_iff h).mp hr
        cases heq
        exact he rfl
      rw [deleteEntry_of_some front (h.deleteEntry_absent c he)]
      refine ⟨fun _ => ⟨habsent, .inl ⟨e, by simp [c.entries], c.above e List.mem_cons_self⟩⟩,
        fun _ => ⟨ix, rfl, fun _ _ => Iff.rfl⟩⟩

end TreeIndex

/-- A lock conflict stops the loop at an index; those in front of it have the new key. -/
theorem insertTreeKeys_conflict {granted : Nat → Bool} {rec : Bytes} {rid : Rid} {i : Nat}
    {ixs ixs' : List TreeIndex}
    (h : insertTreeKeys granted rec rid i ixs = some (ixs', .lockConflict)) :
    ∃ before before' after, ixs = before ++ after ∧ ixs' = before' ++ after ∧
      List.Forall₂ (fun ix ix' : TreeIndex => ∃ file,
        ix.insertEntry (ix.key rec) rid = .returned file ∧ ix' = { ix with file := file })
        before before' ∧
      (∀ j < before.length, granted (i + j) = true) ∧ granted (i + before.length) = false := by
  induction ixs generalizing i ixs' with
  | nil => simp [insertTreeKeys] at h
  | cons ix rest ih =>
    unfold insertTreeKeys at h
    split at h
    next hgranted =>
      split at h
      next => cases h
      next => cases h
      next file hins =>
        obtain ⟨⟨more, ended⟩, hrest, heq⟩ := Option.map_eq_some_iff.mp h
        cases heq
        obtain ⟨before, before', after, rfl, rfl, hall, hlocks, hstop⟩ := ih hrest
        refine ⟨ix :: before, _ :: before', after, rfl, rfl,
          List.Forall₂.cons ⟨file, hins, rfl⟩ hall, ?_, ?_⟩
        · intro j hj
          cases j with
          | zero => exact hgranted
          | succ j =>
            rw [show i + (j + 1) = i + 1 + j by omega]
            exact hlocks j (by simpa using hj)
        · rw [List.length_cons, show i + (before.length + 1) = i + 1 + before.length by omega]
          exact hstop
    next hgranted =>
      cases h
      exact ⟨[], [], ix :: rest, rfl, rfl, List.Forall₂.nil, by simp, by simpa using hgranted⟩

namespace TreeRun

/-- A statement that a lock conflict ends leaves the row, its write record and the keys in front
of the index where it stopped. -/
theorem insertNext_conflict {s s' : TreeRun} {rec : Bytes} {lsn lsnBack : Lsn}
    {granted : Nat → Bool} (hfile : s.tab.file.Reached)
    (h : s.insertNext rec lsn lsnBack granted = some (s', .lockConflict)) :
    ∃ rid, insertTreeKeys granted rec rid 0 s.tab.indexes = some (s'.tab.indexes, .lockConflict) ∧
      (s.tab.file.record rid = none ↔ s.tab.file.Room) ∧
      s'.writeSet = .insertTuple rid rec :: s.writeSet ∧
      s'.tab.file.record = Function.update s.tab.file.record rid (some rec) := by
  obtain ⟨free, hlow⟩ := hfile.low
  obtain ⟨file, rid, hrun, hputs, hroom⟩ :=
    RmFile.insertRecord_takes hlow.toChained rec (some lsn)
  simp only [insertNext, hrun, Option.bind_some] at h
  obtain ⟨⟨indexes, ended⟩, hkeys, h⟩ := Option.bind_eq_some_iff.mp h
  split at h
  next hended =>
    obtain ⟨file', -, heq⟩ := Option.map_eq_some_iff.mp h
    cases heq
    cases hended
  next =>
    cases Option.some.inj h
    exact ⟨rid, hkeys, hroom, rfl, hputs.record⟩

/-- What becomes of the indexes when the keys of `before` are taken back and `delete_entry` is also
called for those of `after`. -/
theorem undoKeys_iff {rec : Bytes} {rid : Rid} {before before' after : List TreeIndex}
    (front : LeafFront)
    (hall : List.Forall₂ (fun ix ix' : TreeIndex => ∃ file,
      ix.insertEntry (ix.key rec) rid = .returned file ∧ ix' = { ix with file := file })
      before before')
    (hsound : ∀ ix ∈ before ++ after, ix.Sound) :
    (∃ indexes, (before' ++ after).mapM (fun ix : TreeIndex =>
      ix.deleteEntry front (ix.key rec)) = some indexes ∧
        List.Forall₂ (fun ix ix' : TreeIndex => ∀ bytes r, ix'.Leads bytes r ↔ ix.Leads bytes r)
          (before ++ after) indexes) ↔ ∀ ix ∈ after, ix.Spares front (ix.key rec) := by
  obtain ⟨hsoundBefore, hsoundAfter⟩ := List.forall_mem_append.mp hsound
  have hlen := hall.length_eq
  have hback : List.Forall₂ (fun ix ix' : TreeIndex => ∃ z,
      ix'.deleteEntry front (ix'.key rec) = some z ∧
        ∀ bytes r, z.Leads bytes r ↔ ix.Leads bytes r) before before' := by
    clear hsound hlen
    induction hall with
    | nil => exact List.Forall₂.nil
    | cons hins _ ih =>
      obtain ⟨hone, hrest⟩ := List.forall_mem_cons.mp hsoundBefore
      obtain ⟨file, hins, rfl⟩ := hins
      exact List.Forall₂.cons (TreeIndex.deleteEntry_inserted hone front hins) (ih hrest)
  have hstay : ∀ ix ∈ after, ((∃ z, ix.deleteEntry front (ix.key rec) = some z ∧
      ∀ bytes r, z.Leads bytes r ↔ ix.Leads bytes r) ↔ ix.Spares front (ix.key rec)) :=
    fun ix hix => TreeIndex.deleteEntry_restores_iff (hsoundAfter ix hix) front _
  rw [exists_mapM_iff]
  constructor
  · intro hpairs ix hix
    have hafter := List.forall₂_drop_append _ _ _ hpairs
    rw [← hlen, List.drop_left] at hafter
    exact (hstay ix hix).mp (List.forall₂_same.mp hafter ix hix)
  · intro hspares
    exact List.rel_append hback (List.forall₂_same.mpr fun ix hix =>
      (hstay ix hix).mpr (hspares ix hix))

/-- The abort takes back exactly the statement if its record went to a free slot and `delete_entry`
of its key leaves alone every index that the insert did not come to. -/
theorem restored_conflict_iff (front : LeafFront) {s s' : TreeRun} {rec : Bytes} {lsn lsnBack : Lsn}
    {granted : Nat → Bool} (hfile : s.tab.file.Reached) (hsound : ∀ ix ∈ s.tab.indexes, ix.Sound)
    (h : s.insertNext rec lsn lsnBack granted = some (s', .lockConflict)) :
    ∃ before after, s.tab.indexes = before ++ after ∧ (∀ j < before.length, granted j = true) ∧
      granted before.length = false ∧
      (Restored front s s' ↔
        s.tab.file.Room ∧ ∀ ix ∈ after, ix.Spares front (ix.key rec)) := by
  obtain ⟨rid, hkeys, hroom, hws, hrec⟩ := insertNext_conflict hfile h
  obtain ⟨before, before', after, hixs, hixs', hall, hlocks, hstop⟩ :=
    insertTreeKeys_conflict hkeys
  simp only [Nat.zero_add] at hlocks hstop
  refine ⟨before, after, hixs, hlocks, hstop, ?_⟩
  have hrow : s'.tab.file.record rid = some rec := by rw [hrec, Function.update_self]
  obtain ⟨file, hdel, hputs⟩ := RmFile.deleteRecord_of_record hrow none
  have hrows : file.record = s.tab.file.record ↔ s.tab.file.Room := by
    rw [hputs.record, hrec, Function.update_idem, Function.update_eq_self_iff, ← hroom]
    exact eq_comm
  have hentries := undoKeys_iff front hall (hixs ▸ hsound)
  rw [← hixs, ← hixs'] at hentries
  rw [← hrows, ← hentries]
  constructor
  · rintro ⟨rid', rec', t, hws', hundo, hrec', hsame⟩
    cases List.cons.inj (hws.symm.trans hws') |>.1
    simp only [undoInsert, hdel, Option.bind_some] at hundo
    obtain ⟨indexes, hdels, rfl⟩ := Option.map_eq_some_iff.mp hundo
    exact ⟨hrec', indexes, hdels, hsame⟩
  · rintro ⟨hrec', indexes, hdels, hsame⟩
    refine ⟨rid, rec, ⟨file, indexes⟩, hws, ?_, hrec', hsame⟩
    simp only [undoInsert, hdel, Option.bind_some, hdels, Option.map_some]

theorem insertTreeKeys_sound {granted : Nat → Bool} {rec : Bytes} {rid : Rid} {i : Nat}
    {ixs ixs' : List TreeIndex} (hsound : ∀ ix ∈ ixs, ix.Sound)
    (h : insertTreeKeys granted rec rid i ixs = some (ixs', .returned)) :
    ∀ ix ∈ ixs', ix.Sound := by
  induction ixs generalizing i ixs' with
  | nil =>
    cases h
    simp
  | cons ix rest ih =>
    obtain ⟨hone, hrest⟩ := List.forall_mem_cons.mp hsound
    unfold insertTreeKeys at h
    split at h
    next =>
      split at h
      next => cases h
      next => cases h
      next file hins =>
        obtain ⟨⟨more, ended⟩, hmore, heq⟩ := Option.map_eq_some_iff.mp h
        cases heq
        exact List.forall_mem_cons.mpr ⟨(IsIndex.insertEntry hone hins).1, ih hrest hmore⟩
    next => cases h

/-- A statement that returns leaves a file and indexes that are in order. -/
theorem insertNext_sound {s s' : TreeRun} {rec : Bytes} {lsn lsnBack : Lsn}
    {granted : Nat → Bool} (hfile : s.tab.file.Reached) (hsound : ∀ ix ∈ s.tab.indexes, ix.Sound)
    (h : s.insertNext rec lsn lsnBack granted = some (s', .returned)) :
    s'.tab.file.Reached ∧ ∀ ix ∈ s'.tab.indexes, ix.Sound := by
  obtain ⟨⟨file, rid⟩, hins, h⟩ := Option.bind_eq_some_iff.mp h
  obtain ⟨⟨indexes, ended⟩, hkeys, h⟩ := Option.bind_eq_some_iff.mp h
  simp only at h
  split at h
  next hended =>
    obtain ⟨file', -, heq⟩ := Option.map_eq_some_iff.mp h
    cases heq
  next =>
    cases Option.some.inj h
    exact ⟨hfile.insertRecord hins, insertTreeKeys_sound hsound hkeys⟩

/-- `CREATE TABLE t (a INT, b INT)` with an index on each column. -/
def twoIndexes : TreeRun :=
  let offset : String → Nat := fun name => if name = "b" then 4 else 0
  ⟨⟨RmFile.create 8, [⟨⟨"t", 4, 1, [⟨"t", "a", .int, 4, 0⟩]⟩, offset, by decide, IxFile.create _⟩,
    ⟨⟨"t", 4, 1, [⟨"t", "b", .int, 4, 0⟩]⟩, offset, by decide, IxFile.create _⟩]⟩, []⟩

theorem twoIndexes_sound :
    twoIndexes.tab.file.Reached ∧ ∀ ix ∈ twoIndexes.tab.indexes, ix.Sound := by
  refine ⟨⟨8, by decide, [], rfl⟩, fun ix hix => ?_⟩
  have hempty : ∀ ix : TreeIndex, ix.file = IxFile.create _ → ix.Sound := by
    intro ix hfile
    rw [TreeIndex.Sound, hfile]
    exact .inl (IxFile.create_emptied ix.layout)
  rcases List.mem_cons.mp hix with rfl | hix
  · exact hempty _ rfl
  · rw [List.mem_singleton.mp hix]
    exact hempty _ rfl

def smallRow (a b : UInt8) : Bytes := [a, 0, 0, 0, b, 0, 0, 0]

end TreeRun

namespace TreeIndex

/-- The leaf has no entry for the key and a greater one. -/
theorem spares_of_leaf {ix : TreeIndex} {key : IxKey ix.index.ixCols} (h : ix.Sound)
    (front : LeafFront)
    (hleaf : (ix.file.findLeafPage ix.layout key).bind (fun p => (ix.file.pages p).map fun leaf =>
      (leaf.leafLookup ix.layout key, leaf.entries.any fun e => decide (key ≤ e.1))) =
        some (none, true)) : ix.Spares front key := by
  obtain ⟨p, hfind, hleaf⟩ := Option.bind_eq_some_iff.mp hleaf
  obtain ⟨leaf, hpage, heq⟩ := Option.map_eq_some_iff.mp hleaf
  obtain ⟨hlook, hge⟩ := Prod.mk.inj heq
  refine ⟨fun r hr => ?_, p, leaf, hfind, hpage, .inl (by simpa using hge)⟩
  obtain ⟨p', leaf', hfind', hpage', hlook'⟩ := (IsIndex.finds_iff h).mpr hr
  cases Option.some.inj (hfind.symm.trans hfind')
  cases Option.some.inj (hpage.symm.trans hpage')
  rw [hlook] at hlook'
  cases hlook'

/-- The leaf has an entry for the key. -/
theorem not_spares_of_leaf {ix : TreeIndex} {key : IxKey ix.index.ixCols} {r : Rid} (h : ix.Sound)
    (front : LeafFront)
    (hleaf : (ix.file.findLeafPage ix.layout key).bind (fun p => (ix.file.pages p).bind fun leaf =>
      leaf.leafLookup ix.layout key) = some r) : ¬ ix.Spares front key := by
  obtain ⟨p, hfind, hleaf⟩ := Option.bind_eq_some_iff.mp hleaf
  obtain ⟨leaf, hpage, hlook⟩ := Option.bind_eq_some_iff.mp hleaf
  exact fun hspares => hspares.1 r ((IsIndex.finds_iff h).mp ⟨p, leaf, hfind, hpage, hlook⟩)

end TreeIndex

namespace TreeRun

/-- An insert that every index takes and that no lock stops. -/
def insertRow (s : TreeRun) (rec : Bytes) : Option TreeRun :=
  (s.insertNext rec 1 1 fun _ => true).bind fun r => if r.2 = .returned then some r.1 else none

theorem insertRow_sound {s s' : TreeRun} {rec : Bytes} (h : s.insertRow rec = some s')
    (hs : s.tab.file.Reached ∧ ∀ ix ∈ s.tab.indexes, ix.Sound) :
    s'.tab.file.Reached ∧ ∀ ix ∈ s'.tab.indexes, ix.Sound := by
  obtain ⟨⟨mid, ended⟩, hnext, h⟩ := Option.bind_eq_some_iff.mp h
  obtain ⟨hended, heq⟩ := Option.ite_none_right_eq_some.mp h
  simp only at hended
  subst hended
  cases heq
  exact insertNext_sound hs.1 hs.2 hnext

end TreeRun

end Grmdb
