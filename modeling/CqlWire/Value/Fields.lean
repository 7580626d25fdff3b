import CqlWire.Text.Utf8
import CqlWire.Value.Basic

namespace CqlWire

/-- The fields of a record that are not null, in the order of their names. -/
abbrev Fields := List (String × Value)

namespace Fields

/-- The value of a field; `none` when it is null. -/
def get? (fields : Fields) (name : String) : Option Value :=
  (fields.find? fun f => f.1 = name).map Prod.snd

/-- The value of a field, null included. -/
def getD (fields : Fields) (name : String) : Value :=
  (fields.get? name).getD .null

/-- Whether a field is null. -/
def isNull (fields : Fields) (name : String) : Bool :=
  (fields.get? name).isNone

/-- Makes a field null. -/
def erase (fields : Fields) (name : String) : Fields :=
  fields.filter fun f => f.1 ≠ name

/-- Puts a field in its place among the names, instead of one of the same name. -/
def put (name : String) (value : Value) : Fields → Fields
  | [] => [(name, value)]
  | f :: rest =>
    match Text.order name f.1 with
    | .lt => (name, value) :: f :: rest
    | .eq => (name, value) :: rest
    | .gt => f :: put name value rest

/-- Gives a field a value; null clears it. -/
def set (fields : Fields) (name : String) (value : Value) : Fields :=
  if value.isNull then fields.erase name else put name value fields

/-- The fields that result when values are given one after the other. -/
def ofList (values : List (String × Value)) : Fields :=
  values.foldl (fun fields f => set fields f.1 f.2) []

end Fields

namespace Value

/-- The fields of a record. -/
def fields? : Value → Option Fields
  | record fields => some fields
  | _ => none

end Value

end CqlWire
