import CqlWire.Text.Utf8

namespace CqlWire

/-- A JSON value. A real number is given by the bits of a finite double, and the members of an
object keep their order. -/
inductive Json where
  | null
  | boolean (b : Bool)
  | integer (n : Int)
  | real (bits : UInt64)
  | text (s : String)
  | array (items : List Json)
  | object (members : List (String × Json))
deriving Repr, Inhabited

namespace Json

/-- Puts a member in its place among the names, instead of one of the same name. -/
def putMember (name : String) (value : Json) : List (String × Json) → List (String × Json)
  | [] => [(name, value)]
  | m :: rest =>
    match Text.order name m.1 with
    | .lt => (name, value) :: m :: rest
    | .eq => (name, value) :: rest
    | .gt => m :: putMember name value rest

/-- An object in the order of the names; of members with the same name the last one stays. -/
def ofMembers (members : List (String × Json)) : Json :=
  object (members.foldl (fun ms m => putMember m.1 m.2 ms) [])

/-- The characters of a text. -/
def toString? : Json → Option String
  | text s => some s
  | _ => none

end Json

end CqlWire
