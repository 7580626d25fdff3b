import CqlWire.Decimal
import CqlWire.Error

namespace CqlWire

/-- A value as a tabular engine holds it. A nested row is a list of named values. -/
inductive EngineValue where
  | null
  | boolean (b : Bool)
  | byte (n : Int8)
  | short (n : Int16)
  | int (n : Int32)
  | long (n : Int64)
  | float (bits : UInt32)
  | double (bits : UInt64)
  | text (s : String)
  | binary (bytes : Bytes)
  | decimal (d : Decimal)
  /-- Days since the first of January 1970. -/
  | date (days : Int32)
  /-- Microseconds since the first of January 1970. -/
  | timestamp (micros : Int64)
  | array (items : List EngineValue)
  | map (entries : List (EngineValue × EngineValue))
  | row (fields : List (String × EngineValue))
deriving Repr, Inhabited

namespace EngineValue

/-- Whether the value is null. -/
def isNull : EngineValue → Bool
  | null => true
  | _ => false

end EngineValue

/-- The fields of a row by position. Names may repeat. -/
abbrev EngineRow := List (String × EngineValue)

/-- Refuses a row of another width than that of its columns. -/
def checkWidth (expected found : Nat) : Except Error Unit :=
  if expected = found then .ok () else .error (.schemaMismatch "row" expected found)

namespace EngineRow

/-- The row with these names and values. -/
def ofColumns (names : List String) (values : List EngineValue) : Except Error EngineRow := do
  checkWidth names.length values.length
  return names.zip values

/-- Whether the value at a position is null; beyond the end it is. -/
def isNull (row : EngineRow) (position : Nat) : Bool :=
  row[position]?.all fun f => f.2.isNull

/-- The value of a name, of several fields with the name the last. -/
def get? (row : EngineRow) (name : String) : Option EngineValue :=
  (row.reverse.find? fun f => f.1 = name).map Prod.snd

end EngineRow

end CqlWire
