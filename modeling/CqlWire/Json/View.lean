import CqlWire.Ieee.Text
import CqlWire.Json.Basic
import CqlWire.Order.Collation
import CqlWire.Type.Layout

namespace CqlWire

namespace Json

/-- A number of double format; a text where it is not finite. -/
def ofDouble (bits : UInt64) : Json :=
  if Ieee.double.isFinite bits.toNat then real bits
  else text (Ieee.specialText Ieee.double bits.toNat)

/-- The entries of a map: an object if every key is a text, otherwise pairs. -/
def ofEntries (entries : List (Json × Json)) : Json :=
  match entries.mapM fun e => e.1.toString?.map fun name => (name, e.2) with
  | some members => ofMembers members
  | none => array (entries.map fun e => array [e.1, e.2])

end Json

namespace Value

mutual

/-- A value for display, sets and maps in the order in which they are held. Numbers without bounds
become texts and byte strings hexadecimal texts. -/
def toJson : Value → Json
  | .null => .null
  | .ascii s | .text s => .text s
  | .boolean b => .boolean b
  | .tinyint n => .integer n.toInt
  | .smallint n => .integer n.toInt
  | .int n | .date n => .integer n.toInt
  | .bigint n | .timestamp n | .time n => .integer n.toInt
  | .float bits => .ofDouble (Ieee.widen bits)
  | .double bits => .ofDouble bits
  | .uuid u | .timeuuid u => .text u.toText
  | .inet a => .text a.toText
  | .blob bytes => .text (Hex.ofBytes bytes)
  | .varint n => .text n.repr
  | .decimal d => .text d.toText
  | .empty => .text ""
  | .list items | .set items | .tuple items => .array (toJsonEach items)
  | .map entries => .ofEntries (toJsonEntries entries)
  | .record fields => .ofMembers (toJsonFields fields)

/-- `toJson` on each item. -/
def toJsonEach : List Value → List Json
  | [] => []
  | v :: vs => toJson v :: toJsonEach vs

/-- `toJson` on each key and value. -/
def toJsonEntries : List (Value × Value) → List (Json × Json)
  | [] => []
  | (k, v) :: rest => (toJson k, toJson v) :: toJsonEntries rest

/-- `toJson` on each field. -/
def toJsonFields : List (String × Value) → List (String × Json)
  | [] => []
  | (name, v) :: rest => (name, toJson v) :: toJsonFields rest

end

end Value

namespace DataType

mutual

/-- A value for display, sets and maps in the order of the type. Fields that are null are left
out, and a value of another shape than the type's is shown as it is held. -/
def view : DataType → Value → Json
  | .list t, .list items => .array (items.map fun v => view t v)
  | .set t, .set items => .array ((sortBy (order t) items).map fun v => view t v)
  | .map k v, .map entries =>
    .ofEntries ((sortBy (fun a b => order k a.1 b.1) entries).map fun e => (view k e.1, view v e.2))
  | .tuple ts, .tuple items => .array (viewPositions ts items)
  | .udt _ _ fields, .record values => .ofMembers (viewFields fields values)
  | .frozen t, value => view t value
  | _, value => value.toJson

/-- Items by position; those beyond the type are shown as they are held. -/
def viewPositions : List DataType → List Value → List Json
  | [], vs => vs.map Value.toJson
  | _ :: _, [] => []
  | t :: ts, v :: vs => view t v :: viewPositions ts vs

/-- The fields of a type that are not null. -/
def viewFields : List (String × DataType) → Fields → List (String × Json)
  | [], _ => []
  | (name, t) :: rest, values =>
    match values.get? name with
    | some v => (name, view t v) :: viewFields rest values
    | none => viewFields rest values

end

end DataType

end CqlWire
