import CqlWire.Engine.Bridge
import CqlWire.Json.Printer
import CqlWire.Json.View
import CqlWire.Random.Value
import CqlWire.Table.Basic
import CqlWire.Wire.Decode
import CqlWire.Wire.Encode

namespace CqlWire

/-- The values of a row by the positions of a table's columns. -/
abbrev Row := List Value

namespace Table

/-- Values cut off or filled up with nulls to the width of the table. -/
def fit (t : Table) (values : List Value) : Row :=
  (values ++ List.replicate t.columns.length Value.null).take t.columns.length

/-- Refuses a row of another width. -/
def widthError (t : Table) (found : Nat) : Error :=
  .schemaMismatch t.qualifiedName t.columns.length found

/-- The row with these values; those that are missing at the end are null. -/
def row (t : Table) (values : List Value) : Except Error Row :=
  if values.length ≤ t.columns.length then .ok (t.fit values)
  else .error (t.widthError values.length)

/-- The value of a column. -/
def get? (t : Table) (row : Row) (name : String) : Option Value := do
  row[← t.position? name]?

/-- The row with another value in a column. -/
def set (t : Table) (row : Row) (name : String) (value : Value) : Except Error Row :=
  match t.position? name with
  | some position => .ok (List.set row position value)
  | none => .error (.mismatch "a column of the table" ("'" ++ name ++ "'"))

/-- Whether every regular column is null. -/
def isTombstone (t : Table) (row : Row) : Bool :=
  (t.columns.zip row).all fun c => !c.1.isRegular || c.2.isNull

/-- The row with null in every regular column. -/
def toTombstone (t : Table) (row : Row) : Row :=
  (t.columns.zip row).map fun c => if c.1.isRegular then .null else c.2

/-- The view of a value in a column, in one line. -/
def cellText (c : Column × Value) : String :=
  (c.1.type.view c.2).compact

/-- The values of the primary key, each with a colon after it. -/
def key (t : Table) (row : Row) : String :=
  String.join (((t.columns.zip row).filter fun c => c.1.isKey).map fun c => cellText c ++ ":")

/-- The row with the names of its columns. -/
def describe (t : Table) (row : Row) : String :=
  "TestRow\x7b" ++
    ", ".intercalate ((t.columns.zip row).map fun c => c.1.name ++ "=" ++ cellText c) ++ "\x7d"

/-- The encoding of each cell, none for null. -/
def encodeRow (t : Table) (r : Registry) (row : Row) : Except Error (List Payload) :=
  (t.columns.zip row).mapM fun c =>
    if c.2.isNull then .ok none else some <$> Value.encode r c.1.type c.2 false

/-- The row of encoded cells. -/
def decodeRow (t : Table) (r : Registry) (cells : List Payload) : Except Error Row :=
  if cells.length = t.columns.length then
    (t.columns.zip cells).mapM fun c =>
      match c.2 with
      | some bytes => Value.decode r c.1.type bytes false
      | none => .ok .null
  else .error (t.widthError cells.length)

/-- The row as a tabular engine holds it. -/
def toEngineRow (t : Table) (row : Row) : Except Error EngineRow :=
  EngineRow.ofValues (t.columns.map fun c => (c.name, c.type)) row

/-- The row that a tabular engine holds. -/
def ofEngineRow (t : Table) (row : EngineRow) : Except Error Row :=
  return t.fit (← row.toValues t.types)

/-- A row of random values. -/
def randomRow [RandomSource σ] (t : Table) (settings : Settings) : StateM σ Row :=
  Random.values settings settings.minSize t.types

/-- Random rows, the first of them tombstones. -/
def randomRows [RandomSource σ] (t : Table) (settings : Settings) (count tombstones : Nat) :
    StateM σ (List Row) :=
  (List.range count).mapM fun i => do
    let row ← t.randomRow settings
    return if i < tombstones then t.toTombstone row else row

end Table

end CqlWire
