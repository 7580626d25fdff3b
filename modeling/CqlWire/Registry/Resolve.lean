import CqlWire.Registry.Basic
import CqlWire.Type.Layout

namespace CqlWire

namespace DataType

mutual

/-- A type in which each user-defined type is what `expand` makes of its keyspace and name. -/
def expandWith (expand : String → String → Except Error DataType) :
    DataType → Except Error DataType
  | .leaf kind => return .leaf kind
  | .list t => return .list (← expandWith expand t)
  | .set t => return .set (← expandWith expand t)
  | .map k v => return .map (← expandWith expand k) (← expandWith expand v)
  | .tuple ts => return .tuple (← expandEach expand ts)
  | .udt keyspace name _ => expand keyspace name
  | .frozen t => return (← expandWith expand t).freeze

/-- `expandWith` on each type of a list. -/
def expandEach (expand : String → String → Except Error DataType) :
    List DataType → Except Error (List DataType)
  | [] => return []
  | t :: ts => return (← expandWith expand t) :: (← expandEach expand ts)

end

end DataType

namespace Registry

/-- `resolve` for types in which at most `depth` registered types lie within one another. -/
def resolveWithin (r : Registry) : Nat → DataType → Except Error DataType
  | 0 => DataType.expandWith fun keyspace name => do
    let udt ← r.lookup keyspace name
    throw (.endlessType udt.keyspace udt.name)
  | depth + 1 => DataType.expandWith fun keyspace name => do
    let udt ← r.lookup keyspace name
    let fields ← udt.fields.mapM fun f => return (f.1, ← resolveWithin r depth f.2)
    return .udt udt.keyspace udt.name fields

/-- A type with every user-defined type in it, at any depth, replaced by the one on record. More
types within one another than are on record means that some type lies within itself. -/
def resolve (r : Registry) (t : DataType) : Except Error DataType :=
  r.resolveWithin r.size t

end Registry

end CqlWire
