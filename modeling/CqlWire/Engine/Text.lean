import CqlWire.Engine.Basic
import CqlWire.Ieee.Text
import CqlWire.Text.Literal

namespace CqlWire.EngineValue

/-- Numbers from 10^-4 to below 10^16 have no power of ten, and a positive power has no sign. -/
def numberStyle : Ieee.Style := ⟨-4, 15, false, .up⟩

/-- A variant around its content. -/
def applied (variant content : String) : String :=
  variant ++ "(" ++ content ++ ")"

/-- Texts in square brackets. -/
def bracketed (items : List String) : String :=
  "[" ++ ", ".intercalate items ++ "]"

/-- The parts of a decimal number by name. -/
def decimalText (d : Decimal) : String :=
  "Decimal \x7b unscaled: " ++ d.unscaled.repr ++ ", scale: " ++ d.scale.toInt.repr ++ " \x7d"

mutual

/-- How a value is shown in messages. -/
def toText : EngineValue → String
  | null => "Null"
  | boolean b => applied "Boolean" (if b then "true" else "false")
  | byte n => applied "Byte" n.toInt.repr
  | short n => applied "Short" n.toInt.repr
  | int n => applied "Int" n.toInt.repr
  | long n => applied "Long" n.toInt.repr
  | float bits => applied "Float" (numberStyle.text Ieee.single bits.toNat)
  | double bits => applied "Double" (numberStyle.text Ieee.double bits.toNat)
  | text s => applied "String" (Literal.quote s)
  | binary bytes => applied "Binary" (bracketed (bytes.map fun b => b.toNat.repr))
  | decimal d => applied "Decimal" (decimalText d)
  | date days => applied "Date" days.toInt.repr
  | timestamp micros => applied "Timestamp" micros.toInt.repr
  | array items => applied "Array" (bracketed (texts items))
  | map entries => applied "Map" (bracketed (entryTexts entries))
  | row fields => applied "Struct" (bracketed (fieldTexts fields))

/-- `toText` of each item. -/
def texts : List EngineValue → List String
  | [] => []
  | v :: vs => toText v :: texts vs

/-- Pairs of key and value. -/
def entryTexts : List (EngineValue × EngineValue) → List String
  | [] => []
  | (k, v) :: rest => applied "" (toText k ++ ", " ++ toText v) :: entryTexts rest

/-- Pairs of name and value. -/
def fieldTexts : List (String × EngineValue) → List String
  | [] => []
  | (name, v) :: rest => applied "" (Literal.quote name ++ ", " ++ toText v) :: fieldTexts rest

end

end CqlWire.EngineValue
