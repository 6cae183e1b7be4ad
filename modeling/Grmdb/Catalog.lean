import Grmdb.IndexHeader
import Grmdb.TokenStream

namespace Grmdb

open TokenStream

namespace Catalog

/-- A column with everything that the catalog keeps of it. -/
structure ColMeta where
  tabName : String
  name : String
  type : ColType
  len : Int
  offset : Int
  index : Bool
  deriving DecidableEq, Repr

structure IndexMeta where
  tabName : String
  colTotLen : Int
  colNum : Int
  cols : List ColMeta
  deriving DecidableEq, Repr

structure TabMeta where
  name : String
  cols : List ColMeta
  indexes : List IndexMeta
  deriving DecidableEq, Repr

/-- `tabs` is the `std::map` of the tables, in the order of its keys. -/
structure DbMeta where
  name : String
  tabs : List (String × TabMeta)
  sorted : (tabs.map Prod.fst).Pairwise (· < ·)

def DbMeta.empty : DbMeta := ⟨"", [], List.Pairwise.nil⟩

def ColMeta.put (col : ColMeta) : List Char :=
  col.tabName.toList ++ ' ' :: (col.name.toList ++ ' ' :: (putInt col.type.toInt ++ ' ' ::
    (putInt col.len ++ ' ' :: (putInt col.offset ++ ' ' :: putBool col.index))))

def IndexMeta.put (index : IndexMeta) : List Char :=
  index.tabName.toList ++ ' ' :: (putInt index.colTotLen ++ ' ' :: putInt index.colNum) ++
    index.cols.flatMap fun col => '\n' :: col.put

def TabMeta.put (tab : TabMeta) : List Char :=
  tab.name.toList ++ '\n' :: (putNat tab.cols.length ++ '\n' ::
    (tab.cols.flatMap (fun col => col.put ++ ['\n']) ++
      (putNat tab.indexes.length ++ '\n' ::
        tab.indexes.flatMap fun index => index.put ++ ['\n'])))

def DbMeta.put (db : DbMeta) : List Char :=
  db.name.toList ++ '\n' :: (putNat db.tabs.length ++ '\n' ::
    db.tabs.flatMap fun entry => entry.2.put ++ ['\n'])

def getString : Reader String := do
  let w ← getWord
  pure (String.ofList w)

def getType : Reader ColType := do
  let i ← getInt 32
  match ColType.ofInt i with
  | some type => pure type
  | none => failure

def ColMeta.get : Reader ColMeta := do
  let tabName ← getString
  let name ← getString
  let type ← getType
  let len ← getInt 32
  let offset ← getInt 32
  let index ← getBool
  pure ⟨tabName, name, type, len, offset, index⟩

def IndexMeta.get : Reader IndexMeta := do
  let tabName ← getString
  let colTotLen ← getInt 32
  let colNum ← getInt 32
  let cols ← getMany ColMeta.get colNum.toNat
  pure ⟨tabName, colTotLen, colNum, cols⟩

def TabMeta.get : Reader TabMeta := do
  let name ← getString
  let n ← getNat 64
  let cols ← getMany ColMeta.get n
  let n ← getNat 64
  let indexes ← getMany IndexMeta.get n
  pure ⟨name, cols, indexes⟩

/-- `tabs_[key] = tab`. -/
def assign (key : String) (tab : TabMeta) : List (String × TabMeta) → List (String × TabMeta)
  | [] => [(key, tab)]
  | entry :: tabs =>
    if key < entry.1 then (key, tab) :: entry :: tabs
    else if entry.1 < key then entry :: assign key tab tabs
    else (key, tab) :: tabs

theorem mem_keys_assign {key k : String} {tab : TabMeta} {tabs : List (String × TabMeta)}
    (h : k ∈ (assign key tab tabs).map Prod.fst) : k = key ∨ k ∈ tabs.map Prod.fst := by
  induction tabs with
  | nil => simpa [assign] using h
  | cons entry tabs ih =>
    unfold assign at h
    split at h
    next => simpa using h
    next =>
      split at h
      next =>
        rw [List.map_cons, List.mem_cons] at h ⊢
        rcases h with rfl | h
        · exact .inr (.inl rfl)
        · exact (ih h).imp_right .inr
      next =>
        rw [List.map_cons, List.mem_cons] at h ⊢
        exact h.imp_right .inr

theorem assign_sorted {key : String} {tab : TabMeta} {tabs : List (String × TabMeta)}
    (h : (tabs.map Prod.fst).Pairwise (· < ·)) :
    ((assign key tab tabs).map Prod.fst).Pairwise (· < ·) := by
  induction tabs with
  | nil => simp [assign]
  | cons entry tabs ih =>
    rw [List.map_cons, List.pairwise_cons] at h
    unfold assign
    split
    next hlt =>
      rw [List.map_cons, List.map_cons, List.pairwise_cons, List.pairwise_cons]
      refine ⟨fun k hk => ?_, h⟩
      rcases List.mem_cons.mp hk with rfl | hk
      · exact hlt
      · exact hlt.trans (h.1 k hk)
    next hnot =>
      split
      next hlt =>
        rw [List.map_cons, List.pairwise_cons]
        refine ⟨fun k hk => ?_, ih h.2⟩
        rcases mem_keys_assign hk with rfl | hk
        · exact hlt
        · exact h.1 k hk
      next hnot' =>
        have heq : key = entry.1 := le_antisymm (not_lt.mp hnot') (not_lt.mp hnot)
        rw [List.map_cons, List.pairwise_cons, heq]
        exact h

def DbMeta.setTab (db : DbMeta) (tab : TabMeta) : DbMeta :=
  ⟨db.name, assign tab.name tab db.tabs, assign_sorted db.sorted⟩

/-- The loop over the tables. -/
def getTabs : Nat → DbMeta → Reader DbMeta
  | 0, db => pure db
  | n + 1, db => do
    let tab ← TabMeta.get
    getTabs n (db.setTab tab)

def DbMeta.get (db : DbMeta) : Reader DbMeta := do
  let name ← getString
  let n ← getNat 64
  getTabs n ⟨name, db.tabs, db.sorted⟩

/-- A name as the lexer lets it through. -/
def IsName (s : String) : Prop := IsWord s.toList

namespace ColMeta

/-- The `int`s of the column are 32 bits long. -/
structure Valid (col : ColMeta) : Prop where
  tabName : IsName col.tabName
  name : IsName col.name
  len : IsInt32 col.len
  offset : IsInt32 col.offset

def wordsOf (col : ColMeta) : List (List Char) :=
  [col.tabName.toList, col.name.toList, putInt col.type.toInt, putInt col.len, putInt col.offset,
    putBool col.index]

end ColMeta

namespace IndexMeta

structure Valid (index : IndexMeta) : Prop where
  tabName : IsName index.tabName
  colTotLen : IsInt32 index.colTotLen
  colNum : IsInt32 index.colNum
  count : index.colNum = index.cols.length
  cols : ∀ col ∈ index.cols, col.Valid

def wordsOf (index : IndexMeta) : List (List Char) :=
  [index.tabName.toList, putInt index.colTotLen, putInt index.colNum] ++
    index.cols.flatMap ColMeta.wordsOf

end IndexMeta

namespace TabMeta

/-- The sizes of the vectors are `size_t`. -/
structure Valid (tab : TabMeta) : Prop where
  name : IsName tab.name
  colCount : tab.cols.length < 2 ^ 64
  cols : ∀ col ∈ tab.cols, col.Valid
  indexCount : tab.indexes.length < 2 ^ 64
  indexes : ∀ index ∈ tab.indexes, index.Valid

def wordsOf (tab : TabMeta) : List (List Char) :=
  [tab.name.toList, putNat tab.cols.length] ++ (tab.cols.flatMap ColMeta.wordsOf ++
    ([putNat tab.indexes.length] ++ tab.indexes.flatMap IndexMeta.wordsOf))

end TabMeta

namespace DbMeta

structure Valid (db : DbMeta) : Prop where
  name : IsName db.name
  tabCount : db.tabs.length < 2 ^ 64
  keys : ∀ entry ∈ db.tabs, entry.1 = entry.2.name
  tabs : ∀ entry ∈ db.tabs, entry.2.Valid

def wordsOf (db : DbMeta) : List (List Char) :=
  [db.name.toList, putNat db.tabs.length] ++ db.tabs.flatMap fun entry => entry.2.wordsOf

end DbMeta

section Written

theorem isSpace_blank : isSpace ' ' = true := by decide

theorem isSpace_newLine : isSpace '\n' = true := by decide

theorem ColMeta.Valid.words_put {col : ColMeta} (h : col.Valid) : words col.put = col.wordsOf := by
  rw [ColMeta.put, words_word_space h.tabName isSpace_blank, words_word_space h.name isSpace_blank,
    words_word_space (isWord_putInt _) isSpace_blank,
    words_word_space (isWord_putInt _) isSpace_blank,
    words_word_space (isWord_putInt _) isSpace_blank, words_word (isWord_putBool _), ColMeta.wordsOf]

theorem IndexMeta.Valid.words_put {index : IndexMeta} (h : index.Valid) :
    words index.put = index.wordsOf := by
  rw [IndexMeta.put, words_newLines (fun col hcol => (h.cols col hcol).words_put) isSpace_newLine,
    words_word_space h.tabName isSpace_blank, words_word_space (isWord_putInt _) isSpace_blank,
    words_word (isWord_putInt _), IndexMeta.wordsOf]

theorem TabMeta.Valid.words_put {tab : TabMeta} (h : tab.Valid) : words tab.put = tab.wordsOf := by
  have hindexes := @words_lines [] '\n' IndexMeta IndexMeta.put IndexMeta.wordsOf tab.indexes
    (fun index hindex => (h.indexes index hindex).words_put) isSpace_newLine
  rw [List.append_nil, words_nil, List.append_nil] at hindexes
  rw [TabMeta.put, words_word_space h.name isSpace_newLine,
    words_word_space (isWord_putNat _) isSpace_newLine,
    words_lines (fun col hcol => (h.cols col hcol).words_put) isSpace_newLine,
    words_word_space (isWord_putNat _) isSpace_newLine, hindexes, TabMeta.wordsOf]
  rfl

/-- The words that `<<` writes. -/
theorem DbMeta.Valid.words_put {db : DbMeta} (h : db.Valid) : words db.put = db.wordsOf := by
  have htabs := @words_lines [] '\n' (String × TabMeta) (fun entry => entry.2.put)
    (fun entry => entry.2.wordsOf) db.tabs (fun entry hentry => (h.tabs entry hentry).words_put)
    isSpace_newLine
  rw [List.append_nil, words_nil, List.append_nil] at htabs
  rw [DbMeta.put, words_word_space h.name isSpace_newLine,
    words_word_space (isWord_putNat _) isSpace_newLine, htabs, DbMeta.wordsOf]
  rfl

end Written

section Read

theorem takes_getString (s : String) : Takes getString [s.toList] s := by
  have hmap := (Takes.word s.toList).map String.ofList
  rwa [String.ofList_toList] at hmap

theorem takes_int32 {i : Int} (h : IsInt32 i) : Takes (getInt 32) [putInt i] i := Takes.int h.1 h.2

theorem takes_getType (type : ColType) : Takes getType [putInt type.toInt] type := by
  have hint : IsInt32 type.toInt := by cases type <;> decide
  have hof : ColType.ofInt type.toInt = some type := by cases type <;> rfl
  have hpure : Takes (match ColType.ofInt type.toInt with
      | some type => pure type
      | none => failure) [] type := by
    rw [hof]
    exact Takes.pure type
  exact @Takes.bind _ _ _ (fun i =>
    match ColType.ofInt i with
    | some type => pure type
    | none => failure) _ [] _ _ (takes_int32 hint) hpure

theorem ColMeta.Valid.takes_get {col : ColMeta} (h : col.Valid) : Takes ColMeta.get col.wordsOf col :=
  (takes_getString col.tabName).bind <| (takes_getString col.name).bind <|
    (takes_getType col.type).bind <| (takes_int32 h.len).bind <| (takes_int32 h.offset).bind <|
      (Takes.bool col.index).map _

theorem IndexMeta.Valid.takes_get {index : IndexMeta} (h : index.Valid) :
    Takes IndexMeta.get index.wordsOf index := by
  have hcols : Takes (getMany ColMeta.get index.colNum.toNat)
      (index.cols.flatMap ColMeta.wordsOf) index.cols := by
    rw [h.count, Int.toNat_natCast]
    exact Takes.many fun col hcol => (h.cols col hcol).takes_get
  exact (takes_getString index.tabName).bind <| (takes_int32 h.colTotLen).bind <|
    (takes_int32 h.colNum).bind <| hcols.map _

theorem TabMeta.Valid.takes_get {tab : TabMeta} (h : tab.Valid) :
    Takes TabMeta.get tab.wordsOf tab := by
  have hcols : Takes (getMany ColMeta.get tab.cols.length)
      (tab.cols.flatMap ColMeta.wordsOf) tab.cols :=
    Takes.many fun col hcol => (h.cols col hcol).takes_get
  have hindexes : Takes (getMany IndexMeta.get tab.indexes.length)
      (tab.indexes.flatMap IndexMeta.wordsOf) tab.indexes :=
    Takes.many fun index hindex => (h.indexes index hindex).takes_get
  exact (takes_getString tab.name).bind <| (Takes.nat h.colCount).bind <| hcols.bind <|
    (Takes.nat h.indexCount).bind <| hindexes.map _

theorem assign_of_lt {key : String} {tab : TabMeta} {tabs : List (String × TabMeta)}
    (h : ∀ k ∈ tabs.map Prod.fst, k < key) : assign key tab tabs = tabs ++ [(key, tab)] := by
  induction tabs with
  | nil => rfl
  | cons entry tabs ih =>
    have hlt := h entry.1 List.mem_cons_self
    rw [assign, if_neg hlt.not_gt, if_pos hlt, ih fun k hk => h k (List.mem_cons_of_mem _ hk)]
    rfl

/-- The tables come in the order of their names, so that each one goes to the end of the map. -/
theorem takes_getTabs {db : DbMeta} {tabs : List (String × TabMeta)}
    (hsorted : ((db.tabs ++ tabs).map Prod.fst).Pairwise (· < ·))
    (hkeys : ∀ entry ∈ tabs, entry.1 = entry.2.name) (htabs : ∀ entry ∈ tabs, entry.2.Valid) :
    Takes (getTabs tabs.length db) (tabs.flatMap fun entry => entry.2.wordsOf)
      ⟨db.name, db.tabs ++ tabs, hsorted⟩ := by
  induction tabs generalizing db with
  | nil =>
    have heq : (⟨db.name, db.tabs ++ [], hsorted⟩ : DbMeta) = db := by
      simp only [List.append_nil]
    rw [heq]
    exact Takes.pure db
  | cons entry tabs ih =>
    obtain ⟨key, tab⟩ := entry
    have hkey : key = tab.name := hkeys (key, tab) List.mem_cons_self
    subst hkey
    have hbelow : ∀ k ∈ db.tabs.map Prod.fst, k < tab.name := by
      intro k hk
      rw [List.map_append, List.map_cons, List.pairwise_append] at hsorted
      exact hsorted.2.2 k hk tab.name List.mem_cons_self
    have hassign : (db.setTab tab).tabs = db.tabs ++ [(tab.name, tab)] := assign_of_lt hbelow
    have happend : (db.setTab tab).tabs ++ tabs = db.tabs ++ (tab.name, tab) :: tabs := by
      rw [hassign, List.append_assoc, List.singleton_append]
    have hrest := @ih (db.setTab tab) (by rw [happend]; exact hsorted)
      (fun entry hentry => hkeys entry (List.mem_cons_of_mem _ hentry))
      fun entry hentry => htabs entry (List.mem_cons_of_mem _ hentry)
    have htab := (htabs (tab.name, tab) List.mem_cons_self).takes_get
    have hnext := @Takes.bind _ _ _ (fun tab => getTabs tabs.length (db.setTab tab)) _ _ _ _ htab
      hrest
    simp only [happend] at hnext
    exact hnext

end Read

/-- What `<<` writes of a database `>>` reads back, with white space left over at the end. -/
theorem dbMeta_round_trip (db : DbMeta) (h : db.Valid) :
    ∃ rest, DbMeta.get DbMeta.empty db.put = some (db, rest) ∧ words rest = [] := by
  have htabs : Takes (getTabs db.tabs.length ⟨db.name, [], List.Pairwise.nil⟩)
      (db.tabs.flatMap fun entry => entry.2.wordsOf) db :=
    @takes_getTabs ⟨db.name, [], List.Pairwise.nil⟩ db.tabs db.sorted h.keys h.tabs
  have hget : Takes (DbMeta.get DbMeta.empty) db.wordsOf db :=
    (takes_getString db.name).bind <| (Takes.nat h.tabCount).bind htabs
  exact hget db.put [] (by rw [h.words_put, List.append_nil])

/-- Two tables, one of them with an index. -/
def twoTables : DbMeta where
  name := "db"
  tabs := [("a", ⟨"a", [⟨"a", "x", .int, 4, 0, true⟩, ⟨"a", "y", .string, 8, 4, false⟩],
      [⟨"a", 4, 1, [⟨"a", "x", .int, 4, 0, true⟩]⟩]⟩),
    ("b", ⟨"b", [⟨"b", "z", .float, 4, 0, false⟩], []⟩)]
  sorted := by decide

theorem dbMeta_round_trip_twoTables :
    ∃ rest, DbMeta.get DbMeta.empty twoTables.put = some (twoTables, rest) ∧ words rest = [] := by
  have hne : ∀ s ∈ ["db", "a", "b", "x", "y", "z"], s.toList ≠ [] := by decide
  have hclean : ∀ s ∈ ["db", "a", "b", "x", "y", "z"],
      (s.toList.all fun c => !isSpace c) = true := by decide
  have hname : ∀ s ∈ ["db", "a", "b", "x", "y", "z"], IsName s := fun s hs =>
    ⟨hne s hs, fun c hc => by simpa using List.all_eq_true.mp (hclean s hs) c hc⟩
  have hx : (⟨"a", "x", .int, 4, 0, true⟩ : ColMeta).Valid :=
    ⟨hname _ (by decide), hname _ (by decide), by decide, by decide⟩
  have hy : (⟨"a", "y", .string, 8, 4, false⟩ : ColMeta).Valid :=
    ⟨hname _ (by decide), hname _ (by decide), by decide, by decide⟩
  have hz : (⟨"b", "z", .float, 4, 0, false⟩ : ColMeta).Valid :=
    ⟨hname _ (by decide), hname _ (by decide), by decide, by decide⟩
  have hindex : (⟨"a", 4, 1, [⟨"a", "x", .int, 4, 0, true⟩]⟩ : IndexMeta).Valid :=
    ⟨hname _ (by decide), by decide, by decide, rfl, by simpa using hx⟩
  have ha : (⟨"a", [⟨"a", "x", .int, 4, 0, true⟩, ⟨"a", "y", .string, 8, 4, false⟩],
      [⟨"a", 4, 1, [⟨"a", "x", .int, 4, 0, true⟩]⟩]⟩ : TabMeta).Valid :=
    ⟨hname _ (by decide), by decide, by simpa using ⟨hx, hy⟩, by decide, by simpa using hindex⟩
  have hb : (⟨"b", [⟨"b", "z", .float, 4, 0, false⟩], []⟩ : TabMeta).Valid :=
    ⟨hname _ (by decide), by decide, by simpa using hz, by decide, by simp⟩
  exact dbMeta_round_trip twoTables ⟨hname _ (by decide), by decide, by decide,
    by simpa [twoTables] using ⟨ha, hb⟩⟩

end Catalog

end Grmdb
