import CqlWire.Type.Basic

namespace CqlWire

/-- The named fields of a user-defined type, in the order of their declaration. -/
abbrev FieldTypes := List (String × DataType)

namespace FieldTypes

/-- Declares a field: at the end, or in place of the type of a field that has the name already. -/
def declare (fields : FieldTypes) (name : String) (type : DataType) : FieldTypes :=
  match fields with
  | [] => [(name, type)]
  | (n, t) :: rest => if n = name then (n, type) :: rest else (n, t) :: declare rest name type

/-- Declares fields one after the other. -/
def ofList (declarations : List (String × DataType)) : FieldTypes :=
  declarations.foldl (fun fields d => declare fields d.1 d.2) []

/-- The place of a field. -/
def position? (fields : FieldTypes) (name : String) : Option Nat :=
  fields.findIdx? fun f => f.1 = name

/-- The field of a name. -/
def field? (fields : FieldTypes) (name : String) : Option (String × DataType) :=
  fields.find? fun f => f.1 = name

end FieldTypes

/-- A user-defined type: a named record in a keyspace. -/
structure Udt where
  keyspace : String
  name : String
  fields : FieldTypes
deriving DecidableEq, Repr

namespace Udt

/-- The type of columns that hold the record. -/
def type (udt : Udt) : DataType :=
  .udt udt.keyspace udt.name udt.fields

/-- Keyspace and name with a point between them. -/
def qualifiedName (udt : Udt) : String :=
  udt.keyspace ++ "." ++ udt.name

end Udt

namespace DataType

mutual

/-- The user-defined types in a type that `found` does not hold yet, added after those that their
fields need. -/
def collectUdts (found : List Udt) : DataType → List Udt
  | .leaf _ => found
  | .list t | .set t | .frozen t => collectUdts found t
  | .map k v => collectUdts (collectUdts found k) v
  | .tuple ts => collectUdtsEach found ts
  | .udt keyspace name fields =>
    let found := collectUdtsFields found fields
    if found.contains ⟨keyspace, name, fields⟩ then found
    else found ++ [⟨keyspace, name, fields⟩]

/-- `collectUdts` through a list of types. -/
def collectUdtsEach (found : List Udt) : List DataType → List Udt
  | [] => found
  | t :: ts => collectUdtsEach (collectUdts found t) ts

/-- `collectUdts` through a list of fields. -/
def collectUdtsFields (found : List Udt) : List (String × DataType) → List Udt
  | [] => found
  | (_, t) :: fs => collectUdtsFields (collectUdts found t) fs

end

/-- Every user-defined type in a type, itself included, each after those that it needs. -/
def udts (t : DataType) : List Udt :=
  collectUdts [] t

end DataType

end CqlWire
