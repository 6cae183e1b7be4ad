import Grmdb.IndexNode

namespace Grmdb

inductive ColType where
  | int
  | float
  | string
  | datetime
  deriving DecidableEq, Repr

structure ColMeta where
  tabName : String
  name : String
  type : ColType
  len : Nat
  offset : Nat
  deriving DecidableEq, Repr

/-- The columns of an index have their offsets in the key. -/
structure IndexMeta where
  tabName : String
  colTotLen : Nat
  colNum : Nat
  cols : List ColMeta
  deriving DecidableEq, Repr

structure TabMeta where
  name : String
  cols : List ColMeta
  indexes : List IndexMeta
  deriving DecidableEq, Repr

def TabMeta.isCol (tab : TabMeta) (colName : String) : Bool :=
  tab.cols.any fun col => col.name == colName

/-- `none` is the `ColumnNotFoundError`. -/
def TabMeta.getCol (tab : TabMeta) (colName : String) : Option ColMeta :=
  tab.cols.find? fun col => col.name == colName

/-- The index has `colNum` columns with these names, in this order. -/
def IndexMeta.hasCols (index : IndexMeta) (colNames : List String) : Bool :=
  index.colNum == colNames.length &&
    (index.cols.take index.colNum).map ColMeta.name == colNames

def TabMeta.isIndex (tab : TabMeta) (colNames : List String) : Bool :=
  tab.indexes.any fun index => index.hasCols colNames

/-- `get_index_name`, the name of the file of an index. -/
def getIndexName (filename : String) (indexCols : List String) : String :=
  indexCols.foldl (fun name col => name ++ "_" ++ col) filename ++ ".idx"

theorem TabMeta.getCol_isSome (tab : TabMeta) (colName : String) :
    (tab.getCol colName).isSome = tab.isCol colName := by
  rw [getCol, isCol, List.isSome_find?]

end Grmdb
