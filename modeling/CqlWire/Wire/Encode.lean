import CqlWire.Order.Collation
import CqlWire.Registry.Resolve
import CqlWire.Type.Name
import CqlWire.Wire.Leaf

namespace CqlWire

namespace Shape

/-- What an encoder says it expected where it found a value of another shape. -/
def expected : Shape → String
  | leaf kind => kind.name
  | list _ => "list"
  | set _ => "set"
  | map _ _ => "map"
  | tuple _ => "tuple"
  | udt u => u.qualifiedName

end Shape

namespace Value

/-- The payload of an element: nothing for null, otherwise its encoding. -/
@[macro_inline] def payloadOf (value : Value) (encoded : Except Error Bytes) :
    Except Error Payload :=
  if value.isNull then .ok none else some <$> encoded

/-- By value and, between values that compare equal, by encoding with null first. -/
def wireOrder (t : DataType) (a b : Value × Payload) : Ordering :=
  (t.order a.1 b.1).then (compare a.2 b.2)

/-- The elements of a set in the order they are written, each encoding once. -/
def writtenElements (t : DataType) (elements : List (Value × Payload)) : List (Value × Payload) :=
  collapse (fun a b => a.2 = b.2) (sortBy (wireOrder t) elements)

/-- The entries of a map in the order they are written, each key encoding once. -/
def writtenEntries (t : DataType) (entries : List ((Value × Payload) × Payload)) :
    List ((Value × Payload) × Payload) :=
  collapse (fun a b => a.1.2 = b.1.2) (sortBy (fun a b => wireOrder t a.1 b.1) entries)

/-- The frames of a record's fields in the order of its type; `encoders` has the encoder of each
field that is not null. -/
def encodeFields (encoders : List (String × (DataType → Except Error Payload))) :
    FieldTypes → Except Error Bytes
  | [] => return []
  | (name, t) :: rest => do
    let payload ←
      match encoders.find? fun e => e.1 = name with
      | some e => e.2 t
      | none => pure none
    return (← Frame.payload payload) ++ (← encodeFields encoders rest)

mutual

/-- The encoding of a value that is not null. Everything inside another value is frozen; a record
that is not frozen starts with the number of its fields. -/
def encodeAs (r : Registry) : Value → DataType → (frozen : Bool) → Except Error Bytes
  | .list items, t, _ =>
    match t.shape with
    | .list e => do
      let count ← Frame.count items.length
      return count ++ (← encodeItems r items e)
    | s => .error (.mismatch s.expected "list")
  | .set items, t, _ =>
    match t.shape with
    | .set e => do
      let elements ← elementPayloads r items e
      let order ← r.resolve e
      let written := writtenElements order elements
      let count ← Frame.count written.length
      return count ++ (← Frame.payloads (written.map Prod.snd))
    | s => .error (.mismatch s.expected "set")
  | .map entries, t, _ =>
    match t.shape with
    | .map k v => do
      let entries ← entryPayloads r entries k v
      let order ← r.resolve k
      let written := writtenEntries order entries
      let count ← Frame.count written.length
      return count ++ (← Frame.payloads (written.flatMap fun e => [e.1.2, e.2]))
    | s => .error (.mismatch s.expected "map")
  | .tuple items, t, _ =>
    match t.shape with
    | .tuple ts =>
      if items.length ≤ ts.length then encodePositions r items ts
      else
        .error (.schemaMismatch ("tuple<" ++ ts.length.repr ++ " elements>") ts.length items.length)
    | s => .error (.mismatch s.expected "tuple")
  | .record fields, t, frozen =>
    match t.shape with
    | .udt declared => do
      let udt ← r.lookup declared.keyspace declared.name
      match fields.find? fun f => (udt.fields.position? f.1).isNone with
      | some unknown =>
        throw (.mismatch ("a field of " ++ udt.qualifiedName) ("field '" ++ unknown.1 ++ "'"))
      | none =>
        let count ← if frozen || t.isFrozen then pure [] else Frame.count udt.fields.length
        return count ++ (← encodeFields (fieldEncoders r fields) udt.fields)
    | s => .error (.mismatch s.expected "udt")
  | value, t, _ =>
    match t.shape with
    | .leaf kind => Leaf.encode kind value
    | s => .error (.mismatch s.expected value.kindName)

/-- The frames of a list's elements. -/
def encodeItems (r : Registry) : List Value → DataType → Except Error Bytes
  | [], _ => return []
  | v :: vs, t => do
    let frame ← Frame.payload (← payloadOf v (encodeAs r v t true))
    return frame ++ (← encodeItems r vs t)

/-- The elements of a set, each with its payload. -/
def elementPayloads (r : Registry) :
    List Value → DataType → Except Error (List (Value × Payload))
  | [], _ => return []
  | v :: vs, t => do
    let p ← payloadOf v (encodeAs r v t true)
    return (v, p) :: (← elementPayloads r vs t)

/-- The entries of a map: each key with its payload, and the payload of its value. -/
def entryPayloads (r : Registry) :
    List (Value × Value) → DataType → DataType →
      Except Error (List ((Value × Payload) × Payload))
  | [], _, _ => return []
  | (k, v) :: rest, s, t => do
    let p ← payloadOf k (encodeAs r k s true)
    let q ← payloadOf v (encodeAs r v t true)
    return ((k, p), q) :: (← entryPayloads r rest s t)

/-- The frames of a tuple's positions; those without an item are null. -/
def encodePositions (r : Registry) : List Value → List DataType → Except Error Bytes
  | v :: vs, t :: ts => do
    let frame ← Frame.payload (← payloadOf v (encodeAs r v t true))
    return frame ++ (← encodePositions r vs ts)
  | _, ts => Frame.payloads (ts.map fun _ => none)

/-- The encoders of a record's fields. -/
def fieldEncoders (r : Registry) :
    List (String × Value) → List (String × (DataType → Except Error Payload))
  | [] => []
  | (name, v) :: rest =>
    (name, fun t => payloadOf v (encodeAs r v t true)) :: fieldEncoders r rest

end

/-- The payload of a value where it stands inside another one. -/
def encodeElement (r : Registry) (t : DataType) (value : Value) : Except Error Payload :=
  payloadOf value (encodeAs r value t true)

/-- The encoding of a column's value, or with `nested` of a value inside another one. -/
def encode (r : Registry) (t : DataType) (value : Value) (nested : Bool) : Except Error Bytes :=
  if value.isNull then
    .error (.mismatch ("a " ++ t.name ++ " value") "null (nulls only exist inside a container)")
  else encodeAs r value t nested

end Value

namespace Registry

/-- The order of two values of a type, the fields of records in the order on record. -/
def order (r : Registry) (t : DataType) (a b : Value) : Except Error Ordering :=
  return (← r.resolve t).order a b

end Registry

end CqlWire
