import CqlWire.Document.FromJson
import CqlWire.Json.Printer
import CqlWire.Order.Sort
import CqlWire.Type.Parser

namespace CqlWire

/-- A user-defined type by names alone: each field with the name of its type. -/
structure Definition where
  keyspace : String
  name : String
  fields : List (String × String)
deriving DecidableEq, Repr

namespace Definition

/-- The order by keyspace and then by name. -/
def order (a b : Definition) : Ordering :=
  (Text.order a.keyspace b.keyspace).then (Text.order a.name b.name)

/-- The type that a definition describes, the names of types read in its keyspace. -/
def resolve (r : Registry) (d : Definition) : Except Error Udt := do
  let fields ← d.fields.mapM fun f => return (f.1, ← DataType.parse r d.keyspace f.2)
  return ⟨d.keyspace, d.name, FieldTypes.ofList fields⟩

/-- A definition as JSON. -/
def toJson (d : Definition) : Json :=
  .object [("keyspace", .text d.keyspace), ("name", .text d.name),
    ("fields", .array (d.fields.map fun f =>
      .object [("name", .text f.1), ("type", .text f.2)]))]

/-- A field that a document describes. -/
def fieldOf? (d : Document) : Option (String × String) := do
  let [some name, some type] ← d.record? ["name", "type"] | none
  return (← name.text?, ← type.text?)

/-- The definition that a document describes, which leaves nothing out. -/
def ofDocument? (d : Document) : Option Definition := do
  let [some keyspace, some name, some fields] ← d.record? ["keyspace", "name", "fields"] | none
  return ⟨← keyspace.text?, ← name.text?, ← (← fields.sequence?).mapM fieldOf?⟩

/-- The definitions in a JSON text. -/
def listOfJson (input : String) : Except Error (List Definition) :=
  match Document.ofJson? input >>= Document.sequence? >>= List.mapM ofDocument? with
  | some ds => .ok ds
  | none => .error .invalidJson

end Definition

/-- The definition of a type. -/
def Udt.definition (udt : Udt) : Definition :=
  ⟨udt.keyspace, udt.name, udt.fields.map fun f => (f.1, f.2.name)⟩

namespace Registry

/-- The definitions of all types on record, by keyspace and name. -/
def definitions (r : Registry) : List Definition :=
  sortBy Definition.order (r.entries.map Udt.definition)

/-- The definitions of all types on record as a JSON text. -/
def toJsonText (r : Registry) : String :=
  (Json.array (r.definitions.map Definition.toJson)).pretty

/-- Puts definitions on record one after the other. Those that need a type that is not on record
are left over, with the error; any other error ends the pass. -/
def loadPass (r : Registry) :
    List Definition → Registry × Except Error (List (Definition × Error))
  | [] => (r, .ok [])
  | d :: ds =>
    match d.resolve r with
    | .ok udt => loadPass (r.insert udt) ds
    | .error (.notRegistered keyspace name) =>
      let (r, left) := loadPass r ds
      (r, left.map fun l => (d, .notRegistered keyspace name) :: l)
    | .error e => (r, .error e)

/-- Puts definitions on record, in passes until none is left over. A pass that gets none of them on
record ends with the last error. What was put on record before an error stays. -/
def loadPasses (r : Registry) (pending : List Definition) : Registry × Except Error Unit :=
  match loadPass r pending with
  | (r, .error e) => (r, .error e)
  | (r, .ok left) =>
    match left.getLast? with
    | none => (r, .ok ())
    | some (_, e) =>
      if left.length < pending.length then loadPasses r (left.map Prod.fst) else (r, .error e)
termination_by pending.length
decreasing_by simpa

/-- Puts definitions on record, whatever order they are listed in, and counts them. -/
def load (r : Registry) (ds : List Definition) : Registry × Except Error Nat :=
  let (r, outcome) := r.loadPasses ds
  (r, outcome.map fun _ => ds.length)

theorem load_eq_ok {r : Registry} {ds : List Definition} {n : Nat} :
    (r.load ds).2 = .ok n ↔ (r.loadPasses ds).2 = .ok () ∧ n = ds.length := by
  unfold load
  generalize r.loadPasses ds = outcome
  obtain ⟨s, e | ⟨⟩⟩ := outcome <;> simp [Except.map, eq_comm]

theorem load_eq_error {r : Registry} {ds : List Definition} {e : Error} :
    (r.load ds).2 = .error e ↔ (r.loadPasses ds).2 = .error e := by
  unfold load
  generalize r.loadPasses ds = outcome
  obtain ⟨s, e | ⟨⟩⟩ := outcome <;> simp [Except.map]

/-- Puts the definitions of a JSON text on record, and counts them. -/
def loadJson (r : Registry) (input : String) : Registry × Except Error Nat :=
  match Definition.listOfJson input with
  | .error e => (r, .error e)
  | .ok ds => r.load ds

/-- The registry of a JSON text. -/
def ofJson (input : String) : Except Error Registry :=
  match empty.loadJson input with
  | (r, .ok _) => .ok r
  | (_, .error e) => .error e

/-- The registry of a file; `none` stands for a file that is missing. -/
def ofFile : Option String → Except Error Registry
  | none => .error .missingFile
  | some text => ofJson text

end Registry

end CqlWire
