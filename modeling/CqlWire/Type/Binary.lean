import CqlWire.Bytes.Frame
import CqlWire.Text.Utf8
import CqlWire.Type.Layout
import CqlWire.Type.Name

namespace CqlWire

/-- The deepest nesting of types that names and binary forms may have. -/
def nestingLimit : Nat := 64

/-- The tag of a leaf type. -/
def Kind.tag : Kind → UInt8
  | ascii => 0x01
  | text => 0x02
  | boolean => 0x03
  | tinyint => 0x04
  | smallint => 0x05
  | int => 0x06
  | bigint => 0x07
  | float => 0x08
  | double => 0x09
  | timestamp => 0x0a
  | date => 0x0b
  | time => 0x0c
  | uuid => 0x0d
  | timeuuid => 0x0e
  | inet => 0x0f
  | blob => 0x10
  | varint => 0x11
  | decimal => 0x12
  | empty => 0x13

/-- The leaf type of a tag. -/
def Kind.ofTag? (tag : UInt8) : Option Kind :=
  all.find? fun kind => kind.tag = tag

namespace DataType

def listTag : UInt8 := 0x20
def setTag : UInt8 := 0x21
def mapTag : UInt8 := 0x22
def tupleTag : UInt8 := 0x23
def udtTag : UInt8 := 0x24
def frozenTag : UInt8 := 0x30

/-- A text after its length. -/
def textBytes (s : String) : Except Error Bytes :=
  Frame.payload (some (Text.toBytes s))

mutual

/-- The binary form of a type: a tag, then the parts of the type in their order. -/
def toBytes : DataType → Except Error Bytes
  | .leaf kind => return [kind.tag]
  | .list t => return listTag :: (← toBytes t)
  | .set t => return setTag :: (← toBytes t)
  | .map k v => return mapTag :: (← toBytes k) ++ (← toBytes v)
  | .tuple ts => return tupleTag :: (← Frame.count ts.length) ++ (← toBytesEach ts)
  | .udt keyspace name fields =>
    return udtTag :: (← textBytes keyspace) ++ (← textBytes name) ++
      (← Frame.count fields.length) ++ (← toBytesFields fields)
  | .frozen t => return frozenTag :: (← toBytes t)

/-- The binary forms of several types. -/
def toBytesEach : List DataType → Except Error Bytes
  | [] => return []
  | t :: ts => return (← toBytes t) ++ (← toBytesEach ts)

/-- The names of fields, each before the binary form of its type. -/
def toBytesFields : List (String × DataType) → Except Error Bytes
  | [] => return []
  | (name, t) :: fields =>
    return (← textBytes name) ++ (← toBytes t) ++ (← toBytesFields fields)

end

end DataType

namespace Reading

/-- The same reading `n` times. -/
def many (reading : Reading α) : Nat → Reading (List α)
  | 0 => return []
  | n + 1 => do
    let a ← reading
    return a :: (← many reading n)

/-- A text after its length. -/
def text : Reading String := do
  match ← payload with
  | none => throw (.malformed .nullText)
  | some bytes =>
    match Text.ofBytes? bytes with
    | some s => return s
    | none => throw (.invalidUtf8 "type descriptor")

/-- A name, then what `reading` reads. -/
def named (reading : Reading α) : Reading (String × α) := do
  let name ← text
  return (name, ← reading)

/-- A type with at most `levels` constructors on each path, leaves included. -/
def typeWithin : Nat → Reading DataType
  | 0 => throw (.malformed (.deepType nestingLimit))
  | levels + 1 => do
    let tag := (← bytes 1).headD 0
    match Kind.ofTag? tag with
    | some kind => return .leaf kind
    | none =>
      if tag = DataType.listTag then return .list (← typeWithin levels)
      else if tag = DataType.setTag then return .set (← typeWithin levels)
      else if tag = DataType.mapTag then return .map (← typeWithin levels) (← typeWithin levels)
      else if tag = DataType.tupleTag then return .tuple (← many (typeWithin levels) (← count))
      else if tag = DataType.udtTag then
        let keyspace ← text
        let name ← text
        let fields ← many (named (typeWithin levels)) (← count)
        return .udt keyspace name (FieldTypes.ofList fields)
      else if tag = DataType.frozenTag then return (← typeWithin levels).freeze
      else throw (.malformed (.unknownTag tag))

/-- A type in its binary form. -/
def type : Reading DataType :=
  typeWithin (nestingLimit + 1)

end Reading

namespace DataType

/-- The type that a byte string spells from its first byte to its last. -/
def ofBytes (bytes : Bytes) : Except Error DataType :=
  match Reading.type (.ofBytes bytes) with
  | .error e _ => .error e
  | .ok t c =>
    if c.remaining = 0 then .ok t
    else .error (.malformed (.trailingAfterType c.remaining t.name))

end DataType

end CqlWire
