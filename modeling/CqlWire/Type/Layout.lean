import CqlWire.Type.Udt

namespace CqlWire

/-- How a value is laid out where it stands. -/
inductive Layout where
  /-- A leaf value. -/
  | simple
  /-- One payload that holds the whole value. -/
  | frozen
  /-- A count, then cells that can be addressed one by one. -/
  | multiCell
deriving DecidableEq, Repr

/-- A type without regard to its frozen wrappers. -/
inductive Shape where
  | leaf (kind : Kind)
  | list (element : DataType)
  | set (element : DataType)
  | map (key value : DataType)
  | tuple (elements : List DataType)
  | udt (udt : Udt)
deriving DecidableEq, Repr

namespace Shape

/-- The type of a shape, without a wrapper. -/
def toType : Shape → DataType
  | leaf kind => .leaf kind
  | list t => .list t
  | set t => .set t
  | map k v => .map k v
  | tuple ts => .tuple ts
  | udt u => u.type

end Shape

namespace DataType

/-- Freezes a type; a frozen type stays as it is. -/
def freeze : DataType → DataType
  | .frozen t => .frozen t
  | t => .frozen t

/-- Takes off one frozen wrapper. -/
def unfreeze : DataType → DataType
  | .frozen t => t
  | t => t

/-- Whether the outermost constructor is the frozen wrapper. -/
def isFrozen : DataType → Bool
  | .frozen _ => true
  | _ => false

/-- The type below all frozen wrappers. -/
def base : DataType → DataType
  | .frozen t => base t
  | t => t

/-- What a type is below all frozen wrappers. -/
def shape : DataType → Shape
  | .leaf kind => .leaf kind
  | .list t => .list t
  | .set t => .set t
  | .map k v => .map k v
  | .tuple ts => .tuple ts
  | .udt keyspace name fields => .udt ⟨keyspace, name, fields⟩
  | .frozen t => shape t

/-- The leaf kind below all frozen wrappers. -/
def leaf? (t : DataType) : Option Kind :=
  match t.shape with
  | .leaf kind => some kind
  | _ => none

/-- The user-defined type below all frozen wrappers. -/
def udt? (t : DataType) : Option Udt :=
  match t.shape with
  | .udt u => some u
  | _ => none

/-- Whether the type is a list, a set or a map, frozen or not. -/
def isCollection (t : DataType) : Bool :=
  match t.shape with
  | .list _ | .set _ | .map _ _ => true
  | _ => false

/-- Whether the type is a collection or a user-defined type that is not frozen. -/
def isMultiCell : DataType → Bool
  | .list _ | .set _ | .map _ _ | .udt _ _ _ => true
  | _ => false

/-- The layout of a value at the top or inside another value, where all is frozen. -/
def layout (t : DataType) (nested : Bool) : Layout :=
  if t.leaf?.isSome then .simple
  else if !nested && t.isMultiCell then .multiCell
  else .frozen

/-- The type with its outermost wrapper added or all of them removed; leaves and tuples have one
layout only and stay as they are. -/
def withMultiCell (t : DataType) (multiCell : Bool) : DataType :=
  match t.shape with
  | .leaf _ | .tuple _ => t
  | _ => if multiCell then t.base else t.freeze

/-- The types directly inside a type. -/
def children : DataType → List DataType
  | .leaf _ => []
  | .list t | .set t | .frozen t => [t]
  | .map k v => [k, v]
  | .tuple ts => ts
  | .udt _ _ fields => fields.map Prod.snd

theorem toType_shape (t : DataType) : t.shape.toType = t.base := by
  induction t with
  | frozen _ ih => exact ih
  | _ => rfl

end DataType

end CqlWire
