import CqlWire.Wire.Decode
import CqlWire.Wire.Encode

namespace CqlWire

/-- A type whose values have a fixed number of positions. -/
inductive Composite where
  | tuple (elements : List DataType)
  /-- The fields of a type on record. -/
  | record (udt : Udt)
deriving DecidableEq, Repr

namespace Composite

/-- The types of the positions. -/
def types : Composite → List DataType
  | tuple elements => elements
  | record udt => udt.fields.map Prod.snd

/-- The composite as a type. -/
def toType : Composite → DataType
  | tuple elements => .tuple elements
  | record udt => udt.type

/-- Where the payloads of the positions stand. -/
def slot : Composite → Slot
  | tuple _ => .position
  | record _ => .element

/-- What a type is below all frozen wrappers, a user-defined type as it is on record. -/
def ofType (r : Registry) (t : DataType) : Except Error Composite :=
  match t.shape with
  | .tuple elements => .ok (tuple elements)
  | .udt declared => record <$> r.lookup declared.keyspace declared.name
  | s => .error (.mismatch "a tuple or UDT type" s.toType.name)

end Composite

/-- A tuple or a record in the making: the payload of each position. -/
structure Holder where
  composite : Composite
  cells : List Payload
  length_cells : cells.length = composite.types.length
deriving DecidableEq, Repr

namespace Holder

/-- The holder in which each position is null. -/
def empty (composite : Composite) : Holder :=
  ⟨composite, List.replicate composite.types.length none, by simp⟩

/-- The holder of a type in which each position is null. -/
def ofType (r : Registry) (t : DataType) : Except Error Holder :=
  empty <$> Composite.ofType r t

/-- The type that the holder was made for. -/
def type (h : Holder) : DataType := h.composite.toType

/-- The number of positions. -/
def size (h : Holder) : Nat := h.cells.length

/-- The type of a position. -/
def elementType? (h : Holder) (position : Nat) : Option DataType :=
  h.composite.types[position]?

/-- The refusal of a position that there is not. -/
def outOfRange (h : Holder) (position : Nat) : Error :=
  .mismatch s!"a position below {h.size}" position.repr

/-- The payload of a position; beyond the end there is none. -/
def payload (h : Holder) (position : Nat) : Payload :=
  h.cells[position]?.getD none

/-- Puts a payload at a position as it is. -/
def setPayload (h : Holder) (position : Nat) (payload : Payload) : Except Error Holder :=
  if position < h.size then
    .ok ⟨h.composite, h.cells.set position payload, by simp [h.length_cells]⟩
  else .error (h.outOfRange position)

/-- Puts the encoding of a value at a position. -/
def set (r : Registry) (h : Holder) (position : Nat) (value : Value) : Except Error Holder :=
  match h.elementType? position with
  | some t => do h.setPayload position (← Value.encodeElement r t value)
  | none => .error (h.outOfRange position)

/-- The value at a position. -/
def get (r : Registry) (h : Holder) (position : Nat) : Except Error Value :=
  match h.elementType? position with
  | some t => Value.decodeElement r h.composite.slot t (h.payload position)
  | none => .error (h.outOfRange position)

/-- The frozen encoding of what the holder holds. -/
def toBytes (h : Holder) : Except Error Bytes :=
  Frame.payloads h.cells

/-- What a holder says of bytes after its last position. -/
def endingFault (type : DataType) : Error → Error
  | .malformed (.trailingAt count _) => .malformed (.trailingAfterHolder count type.name)
  | e => e

/-- Payloads filled up with nulls, or cut off, to a length. -/
def fit (length : Nat) (payloads : List Payload) : List Payload :=
  (payloads ++ List.replicate length none).take length

theorem length_fit (length : Nat) (payloads : List Payload) :
    (fit length payloads).length = length := by
  simp only [fit, List.length_take, List.length_append, List.length_replicate]
  omega

/-- The holder of a frozen encoding. Positions that it lacks at its end are null. -/
def ofBytes (r : Registry) (t : DataType) (bytes : Bytes) : Except Error Holder := do
  let composite ← Composite.ofType r t
  match Frame.read composite.types.length (.ofBytes bytes) with
  | (payloads, .clean) =>
    return ⟨composite, fit composite.types.length payloads, length_fit _ payloads⟩
  | (_, .fault e) => throw (endingFault composite.toType e)

/-- The value that the holder holds. -/
def toValue (r : Registry) (h : Holder) : Except Error Value := do
  Value.decode r h.type (← h.toBytes) true

/-- Puts values at the positions from `start` on. -/
def setAll (r : Registry) (h : Holder) (start : Nat) : List Value → Except Error Holder
  | [] => return h
  | v :: vs => do setAll r (← h.set r start v) (start + 1) vs

/-- The holder of a record. Fields that it lacks are null. -/
def ofRecord (r : Registry) (t : DataType) (value : Value) : Except Error Holder := do
  let .record fields := value | throw (.mismatch t.name value.kindName)
  let h ← ofType r t
  let .record udt := h.composite | throw (.mismatch "a UDT type" h.type.name)
  match fields.find? fun f => (udt.fields.position? f.1).isNone with
  | some unknown =>
    throw (.mismatch ("a field of " ++ udt.qualifiedName) ("field '" ++ unknown.1 ++ "'"))
  | none => h.setAll r 0 (udt.fields.map fun f => Fields.getD fields f.1)

/-- The holder of a tuple. Positions that it lacks are null. -/
def ofTuple (r : Registry) (t : DataType) (value : Value) : Except Error Holder := do
  let .tuple items := value | throw (.mismatch t.name value.kindName)
  let h ← ofType r t
  if items.length ≤ h.size then h.setAll r 0 items
  else throw (.schemaMismatch t.name h.size items.length)

end Holder

end CqlWire
