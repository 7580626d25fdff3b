import CqlWire.Text.Quoted
import CqlWire.Type.Udt

namespace CqlWire

namespace DataType

mutual

/-- The name of a type as statements write it. -/
def name : DataType → String
  | .leaf kind => kind.name
  | .list t => "list<" ++ name t ++ ">"
  | .set t => "set<" ++ name t ++ ">"
  | .map k v => "map<" ++ name k ++ ", " ++ name v ++ ">"
  | .tuple ts => "tuple<" ++ ", ".intercalate (names ts) ++ ">"
  | .udt _ n _ => Quoted.identifier n
  | .frozen t => "frozen<" ++ name t ++ ">"

/-- The names of several types. -/
def names : List DataType → List String
  | [] => []
  | t :: ts => name t :: names ts

end

theorem names_eq_map (ts : List DataType) : names ts = ts.map name := by
  induction ts with
  | nil => rfl
  | cons t ts ih => simp [names, ih]

end DataType

namespace Udt

/-- The statement that creates the type. -/
def createStatement (udt : Udt) : String :=
  let body := udt.fields.map fun f => Quoted.identifier f.1 ++ " " ++ f.2.name
  "CREATE TYPE " ++ Quoted.identifier udt.keyspace ++ "." ++ Quoted.identifier udt.name ++ " (" ++
    ", ".intercalate body ++ ");"

end Udt

end CqlWire
