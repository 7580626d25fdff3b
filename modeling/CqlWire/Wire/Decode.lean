import CqlWire.Registry.Basic
import CqlWire.Type.Layout
import CqlWire.Wire.Leaf
import CqlWire.Value.Fields

namespace CqlWire

/-- Where a payload stands, which decides what no bytes at all mean. -/
inductive Slot where
  /-- An element, a key, a mapped value or a field: null, but for the kind `empty`. -/
  | element
  /-- A position of a tuple: the empty value of a kind that has one. -/
  | position
deriving DecidableEq, Repr

namespace Slot

/-- Whether no bytes at all are a value of the kind here. -/
def keepsEmpty : Slot → Kind → Bool
  | element, kind => kind = .empty
  | position, kind => kind.allowsEmpty

end Slot

/-- The items of a list with the first of each key only. -/
def distinctBy [BEq β] (key : α → β) : (seen : List β) → List α → List α
  | _, [] => []
  | seen, a :: rest =>
    if seen.contains (key a) then distinctBy key seen rest
    else a :: distinctBy key (key a :: seen) rest

namespace Value

/-- A decoder of frozen values. -/
abbrev Decoder := DataType → Bytes → Except Error Value

/-- The value of a payload where it stands. -/
def ofPayload (decode : Decoder) (slot : Slot) (t : DataType) : Payload → Except Error Value
  | none => .ok .null
  | some [] => if t.leaf?.any slot.keepsEmpty then decode t [] else .ok .null
  | some bytes => decode t bytes

/-- What tells elements apart on the wire: the payload, one for all nulls. -/
def wireKey (payload : Payload) (value : Value) : Payload :=
  if value.isNull then none else payload

/-- The elements of payloads, each with its key on the wire. -/
def decodeElements (decode : Decoder) (t : DataType) (payloads : List Payload) :
    Except Error (List (Payload × Value)) :=
  payloads.mapM fun p => return (p, ← ofPayload decode .element t p)

/-- The entries of payloads, keys and values in turn. A key without a value is read and dropped. -/
def decodeEntries (decode : Decoder) (k v : DataType) :
    List Payload → Except Error (List (Payload × Value × Value))
  | [] => return []
  | [p] => do
    let _ ← ofPayload decode .element k p
    return []
  | p :: q :: rest => do
    let key ← ofPayload decode .element k p
    let value ← ofPayload decode .element v q
    return (p, key, value) :: (← decodeEntries decode k v rest)

/-- The values of payloads by position; positions without a payload are null. -/
def decodePositions (decode : Decoder) (slot : Slot) :
    List DataType → List Payload → Except Error (List Value)
  | t :: ts, p :: ps => do
    let value ← ofPayload decode slot t p
    return value :: (← decodePositions decode slot ts ps)
  | ts, _ => return ts.map fun _ => .null

/-- The frames after a count. No bytes, or fewer than a count, are no frames at all. -/
def countedFrames (width : Nat) (bytes : Bytes) : Except Error (List Payload × Frame.Tail) :=
  let c := Cursor.ofBytes bytes
  if c.hasLength then
    match Reading.count c with
    | .ok n c => .ok (Frame.read (n * width) c)
    | .error e _ => .error e
  else .ok ([], .clean)

/-- Reads past the count of a record's fields, which has to be the number on record. -/
def skipFieldCount (udt : Udt) (c : Cursor) : Except Error Cursor :=
  if c.hasLength then
    match Reading.count c with
    | .ok n c =>
      if n = udt.fields.length then .ok c
      else .error (.schemaMismatch udt.qualifiedName udt.fields.length n)
    | .error e _ => .error e
  else .ok c

/-- The value that bytes spell, where at most `depth` values lie within one another. -/
def decodeWithin (r : Registry) : (depth : Nat) → DataType → (frozen : Bool) → Bytes →
    Except Error Value
  | 0, _, _, _ => .error .outOfDepth
  | depth + 1, t, frozen, bytes =>
    let inner : Decoder := fun t bytes => decodeWithin r depth t true bytes
    match t.shape with
    | .leaf kind => Leaf.decode kind bytes
    | .list e => do
      let (payloads, tail) ← countedFrames 1 bytes
      let elements ← decodeElements inner e payloads
      tail.close (.list (elements.map Prod.snd))
    | .set e => do
      let (payloads, tail) ← countedFrames 1 bytes
      let elements ← decodeElements inner e payloads
      tail.close (.set ((distinctBy (fun x => wireKey x.1 x.2) [] elements).map Prod.snd))
    | .map k v => do
      let (payloads, tail) ← countedFrames 2 bytes
      let entries ← decodeEntries inner k v payloads
      tail.close (.map ((distinctBy (fun x => wireKey x.1 x.2.1) [] entries).map Prod.snd))
    | .tuple ts => do
      let (payloads, tail) := Frame.read ts.length (.ofBytes bytes)
      let items ← decodePositions inner .position ts payloads
      tail.close (.tuple items)
    | .udt declared => do
      let udt ← r.lookup declared.keyspace declared.name
      let start := Cursor.ofBytes bytes
      let start ← if frozen || t.isFrozen then pure start else skipFieldCount udt start
      let (payloads, tail) := Frame.read udt.fields.length start
      let items ← decodePositions inner .element (udt.fields.map Prod.snd) payloads
      tail.close (.record (Fields.ofList ((udt.fields.map Prod.fst).zip items)))

/-- The deepest nesting of values that bytes can spell: each level takes a length. -/
def depthBound (bytes : Bytes) : Nat :=
  bytes.length / lengthSize + 1

/-- The value of a column from its encoding, or with `nested` of a value inside another one. -/
def decode (r : Registry) (t : DataType) (bytes : Bytes) (nested : Bool) : Except Error Value :=
  decodeWithin r (depthBound bytes) t nested bytes

/-- The value of a payload where it stands inside another value. -/
def decodeElement (r : Registry) (slot : Slot) (t : DataType) (payload : Payload) :
    Except Error Value :=
  ofPayload (fun t bytes => decode r t bytes true) slot t payload

end Value

end CqlWire
