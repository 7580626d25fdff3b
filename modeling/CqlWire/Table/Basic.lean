import CqlWire.Error
import CqlWire.Order.Sort
import CqlWire.Text.Utf8
import CqlWire.Type.Name

namespace CqlWire

/-- Which way the rows of a partition are sorted by a column. -/
inductive Direction where
  | ascending
  | descending
deriving DecidableEq, Repr

/-- What a column is to the primary key. -/
inductive Role where
  | partition
  | clustering (direction : Direction)
  /-- One value for all rows of a partition. -/
  | shared
  | regular
deriving DecidableEq, Repr

/-- A column of a table. -/
structure Column where
  name : String
  type : DataType
  role : Role
deriving DecidableEq, Repr

namespace Column

/-- Whether the column is in the partition key. -/
def isPartitionKey (c : Column) : Bool := c.role = .partition

/-- Whether the column sorts the rows of a partition. -/
def isClusteringKey (c : Column) : Bool :=
  match c.role with
  | .clustering _ => true
  | _ => false

/-- Whether the column is in the primary key. -/
def isKey (c : Column) : Bool := c.isPartitionKey || c.isClusteringKey

/-- Whether the column has a value for each row and is in no key. -/
def isRegular (c : Column) : Bool := c.role = .regular

end Column

/-- A table: its columns in the order of their positions. -/
structure Table where
  keyspace : String
  name : String
  columns : List Column
  /-- The columns that an insertion names, if not all. -/
  insertFields? : Option (List String)
  /-- The conditions of a deletion, each with its operator, if not those of the primary key. -/
  deleteConditions? : Option (List String)
deriving DecidableEq, Repr

/-- What a table is made of, the columns in the order in which they were declared. -/
structure TableSpec where
  keyspace? : Option String
  name? : Option String
  columns : List Column
  insertFields? : Option (List String)
  deleteConditions? : Option (List String)
deriving DecidableEq, Repr

namespace TableSpec

/-- A call that adds to a specification. -/
inductive Call where
  | keyspace (name : String)
  | table (name : String)
  | partitionKey (name : String) (type : DataType)
  | clusteringKey (name : String) (type : DataType) (direction : Direction)
  | shared (name : String) (type : DataType)
  | regular (name : String) (type : DataType)
  | insertFields (names : List String)
  | deleteConditions (conditions : List String)

/-- The column that a call declares. -/
def Call.column? : Call → Option Column
  | partitionKey name type => some ⟨name, type, .partition⟩
  | clusteringKey name type direction => some ⟨name, type, .clustering direction⟩
  | shared name type => some ⟨name, type, .shared⟩
  | regular name type => some ⟨name, type, .regular⟩
  | keyspace _ | table _ | insertFields _ | deleteConditions _ => none

/-- The specification after one more call. -/
def add (spec : TableSpec) (call : Call) : TableSpec :=
  match call with
  | .keyspace name => { spec with keyspace? := some name }
  | .table name => { spec with name? := some name }
  | .insertFields names => { spec with insertFields? := some names }
  | .deleteConditions conditions => { spec with deleteConditions? := some conditions }
  | call => { spec with columns := spec.columns ++ call.column?.toList }

/-- Columns by position: partition keys and clustering keys as they were declared, then the others
by name. -/
def arranged (columns : List Column) : List Column :=
  columns.filter Column.isPartitionKey ++ columns.filter Column.isClusteringKey ++
    sortBy (fun a b => Text.order a.name b.name) (columns.filter fun c => !c.isKey)

/-- The first name that stands in a list for the second time. -/
def repeated? (seen : List String) : List String → Option String
  | [] => none
  | name :: rest => if seen.contains name then some name else repeated? (name :: seen) rest

/-- The refusal of a name that stands twice. -/
def duplicate (name : String) : Error :=
  .mismatch "unique column names" ("duplicate '" ++ name ++ "'")

/-- A made-up name with a number in sixteen hexadecimal digits. -/
def generated (stem : String) (word : UInt64) : String :=
  stem ++ "_" ++ String.ofList (Hex.padded 16 word.toNat)

/-- The table of a specification. Names that it leaves out are made up from the two words. -/
def build (spec : TableSpec) (keyspaceWord nameWord : UInt64) : Except Error Table :=
  if spec.columns.any Column.isPartitionKey then
    let columns := arranged spec.columns
    match repeated? [] (columns.map Column.name) with
    | some name => .error (duplicate name)
    | none =>
      .ok ⟨spec.keyspace?.getD (generated "keyspace" keyspaceWord),
        spec.name?.getD (generated "table" nameWord), columns, spec.insertFields?,
        spec.deleteConditions?⟩
  else .error (.mismatch "at least one partition key" "none")

end TableSpec

namespace Table

/-- The position of a column. -/
def position? (t : Table) (name : String) : Option Nat :=
  t.columns.findIdx? fun c => c.name = name

/-- The column of a name. -/
def column? (t : Table) (name : String) : Option Column :=
  t.columns.find? fun c => c.name = name

/-- The types of the columns. -/
def types (t : Table) : List DataType := t.columns.map Column.type

/-- The columns of the partition key. -/
def partitionKeys (t : Table) : List Column := t.columns.filter Column.isPartitionKey

/-- The columns that sort the rows of a partition. -/
def clusteringKeys (t : Table) : List Column := t.columns.filter Column.isClusteringKey

/-- Keyspace and name as statements write them. -/
def qualifiedName (t : Table) : String :=
  Quoted.identifier t.keyspace ++ "." ++ Quoted.identifier t.name

/-- Every user-defined type in the columns, each after those that it needs. -/
def udts (t : Table) : List Udt :=
  DataType.collectUdtsEach [] t.types

end Table

end CqlWire
