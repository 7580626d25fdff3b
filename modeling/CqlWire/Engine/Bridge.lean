import CqlWire.Engine.Text
import CqlWire.Type.Layout
import CqlWire.Type.Name
import CqlWire.Value.Equality
import CqlWire.Value.Fields

namespace CqlWire

namespace Kind

/-- The microseconds of a number of milliseconds. -/
def microsOf (millis : Int64) : Except Error Int64 :=
  let micros := millis.toInt * 1000
  if Int64.minValue.toInt ≤ micros ∧ micros ≤ Int64.maxValue.toInt then .ok (Int64.ofInt micros)
  else .error (.mismatch "timestamp within engine range" millis.toInt.repr)

/-- The milliseconds at or before a number of microseconds. -/
def millisOf (micros : Int64) : Int64 :=
  Int64.ofInt (micros.toInt / 1000)

/-- A leaf value as the engine holds it: identifiers become texts, addresses octets, whole numbers
without bounds decimal numbers of scale 0, and milliseconds microseconds. -/
def toEngine (kind : Kind) (value : Value) : Except Error EngineValue :=
  match kind, value with
  | .ascii, .ascii s | .ascii, .text s | .text, .ascii s | .text, .text s => .ok (.text s)
  | .boolean, .boolean b => .ok (.boolean b)
  | .tinyint, .tinyint n => .ok (.byte n)
  | .smallint, .smallint n => .ok (.short n)
  | .int, .int n => .ok (.int n)
  | .bigint, .bigint n => .ok (.long n)
  | .float, .float bits => .ok (.float bits)
  | .double, .double bits => .ok (.double bits)
  | .timestamp, .timestamp millis => .timestamp <$> microsOf millis
  | .date, .date days => .ok (.date days)
  | .time, .time nanos => .ok (.long nanos)
  | .uuid, .uuid u | .timeuuid, .timeuuid u => .ok (.text u.toText)
  | .inet, .inet a => .ok (.binary a.toBytes)
  | .blob, .blob bytes => .ok (.binary bytes)
  | .varint, .varint n => .ok (.decimal ⟨n, 0⟩)
  | .decimal, .decimal d => .ok (.decimal d)
  | .empty, .empty => .ok (.binary [])
  | kind, value => .error (.mismatch kind.name value.kindName)

/-- The identifier that a text spells. -/
def uuidOf (s : String) : Except Error Uuid :=
  match Uuid.ofText? s with
  | some u => .ok u
  | none => .error (.mismatch "uuid string" (Literal.quote s))

/-- The address of octets. -/
def addressOf (octets : Bytes) : Except Error Address :=
  match Address.ofBytes? octets with
  | some a => .ok a
  | none => .error (.mismatch "4 or 16 address octets" (octets.length.repr ++ " octets"))

/-- A leaf value from what the engine holds. -/
def ofEngine (kind : Kind) (value : EngineValue) : Except Error Value :=
  match kind, value with
  | .ascii, .text s => .ok (.ascii s)
  | .text, .text s => .ok (.text s)
  | .boolean, .boolean b => .ok (.boolean b)
  | .tinyint, .byte n => .ok (.tinyint n)
  | .smallint, .short n => .ok (.smallint n)
  | .int, .int n => .ok (.int n)
  | .bigint, .long n => .ok (.bigint n)
  | .float, .float bits => .ok (.float bits)
  | .double, .double bits => .ok (.double bits)
  | .timestamp, .timestamp micros => .ok (.timestamp (millisOf micros))
  | .date, .date days => .ok (.date days)
  | .time, .long nanos => .ok (.time nanos)
  | .uuid, .text s => .uuid <$> uuidOf s
  | .timeuuid, .text s => .timeuuid <$> uuidOf s
  | .inet, .binary octets => .inet <$> addressOf octets
  | .blob, .binary bytes => .ok (.blob bytes)
  | .empty, .binary [] => .ok .empty
  | .varint, .decimal ⟨n, 0⟩ => .ok (.varint n)
  | .decimal, .decimal d => .ok (.decimal d)
  | kind, value => .error (.mismatch kind.name ("engine " ++ value.toText))

end Kind

/-- The items of a list with only the first of those that are equal to one before them. -/
def Value.distinct (items : List Value) : List Value :=
  (items.foldl (fun kept v => if kept.any (· == v) then kept else v :: kept) []).reverse

namespace DataType

mutual

/-- A value as the engine holds it. Lists and sets become arrays; tuples become rows with the names
`_1`, `_2` and so on, and records rows with the names of their fields, null where a position or a
field is missing. -/
def toEngine : DataType → Value → Except Error EngineValue
  | .leaf kind, v => if v.isNull then .ok .null else kind.toEngine v
  | .list t, v =>
    match v with
    | .null => .ok .null
    | .list items => .array <$> items.mapM fun v => toEngine t v
    | v => .error (.mismatch (list t).name v.kindName)
  | .set t, v =>
    match v with
    | .null => .ok .null
    | .set items => .array <$> items.mapM fun v => toEngine t v
    | v => .error (.mismatch (set t).name v.kindName)
  | .map k w, v =>
    match v with
    | .null => .ok .null
    | .map entries =>
      .map <$> entries.mapM fun e => return (← toEngine k e.1, ← toEngine w e.2)
    | v => .error (.mismatch (map k w).name v.kindName)
  | .tuple ts, v =>
    match v with
    | .null => .ok .null
    | .tuple items => .row <$> positionsToEngine 1 ts items
    | v => .error (.mismatch (tuple ts).name v.kindName)
  | .udt keyspace name fields, v =>
    match v with
    | .null => .ok .null
    | .record values => .row <$> fieldsToEngine fields values
    | v => .error (.mismatch (udt keyspace name fields).name v.kindName)
  | .frozen t, v => toEngine t v

/-- Items by position, the first of which has the number `n`. -/
def positionsToEngine : Nat → List DataType → List Value → Except Error EngineRow
  | _, [], _ => return []
  | n, t :: ts, items => do
    let v ← toEngine t (items.headD .null)
    return ("_" ++ n.repr, v) :: (← positionsToEngine (n + 1) ts items.tail)

/-- The declared fields of a record. -/
def fieldsToEngine : List (String × DataType) → Fields → Except Error EngineRow
  | [], _ => return []
  | (name, t) :: rest, values => do
    let v ← toEngine t (values.getD name)
    return (name, v) :: (← fieldsToEngine rest values)

end

/-- The field of a record that a name stands for, read by the reader of its type. -/
def fieldOfEngine (udt : Udt) (readers : List (String × (EngineValue → Except Error Value)))
    (values : Fields) (f : String × EngineValue) : Except Error Fields :=
  match readers.find? fun r => r.1 = f.1 with
  | none =>
    .error (.mismatch ("a field of " ++ udt.qualifiedName) ("field '" ++ f.1 ++ "'"))
  | some r => if f.2.isNull then .ok values else return values.set f.1 (← r.2 f.2)

mutual

/-- A value from what the engine holds. Rows are read by position for a tuple, whose width they
have, and by name for a record, whose field the last of equal names becomes. -/
def ofEngine : DataType → EngineValue → Except Error Value
  | .leaf kind, v => if v.isNull then .ok .null else kind.ofEngine v
  | .list t, v =>
    match v with
    | .null => .ok .null
    | .array items => .list <$> items.mapM fun v => ofEngine t v
    | v => .error (.mismatch (list t).name ("engine " ++ v.toText))
  | .set t, v =>
    match v with
    | .null => .ok .null
    | .array items => do
      let items ← items.mapM fun v => ofEngine t v
      return .set (Value.distinct items)
    | v => .error (.mismatch (set t).name ("engine " ++ v.toText))
  | .map k w, v =>
    match v with
    | .null => .ok .null
    | .map entries =>
      .map <$> entries.mapM fun e => return (← ofEngine k e.1, ← ofEngine w e.2)
    | v => .error (.mismatch (map k w).name ("engine " ++ v.toText))
  | .tuple ts, v =>
    match v with
    | .null => .ok .null
    | .row fields =>
      if fields.length = ts.length then .tuple <$> positionsOfEngine ts (fields.map Prod.snd)
      else .error (.schemaMismatch (tuple ts).name ts.length fields.length)
    | v => .error (.mismatch (tuple ts).name ("engine " ++ v.toText))
  | .udt keyspace name types, v =>
    match v with
    | .null => .ok .null
    | .row fields =>
      .record <$>
        fields.foldlM (fieldOfEngine ⟨keyspace, name, types⟩ (fieldReaders types)) []
    | v => .error (.mismatch (udt keyspace name types).name ("engine " ++ v.toText))
  | .frozen t, v => ofEngine t v

/-- Items by position. -/
def positionsOfEngine : List DataType → List EngineValue → Except Error (List Value)
  | t :: ts, v :: vs => do
    let item ← ofEngine t v
    return item :: (← positionsOfEngine ts vs)
  | _, _ => return []

/-- The readers of declared fields. -/
def fieldReaders :
    List (String × DataType) → List (String × (EngineValue → Except Error Value))
  | [] => []
  | (name, t) :: rest => (name, fun v => ofEngine t v) :: fieldReaders rest

end

end DataType

namespace EngineRow

/-- The row of the values of columns. -/
def ofValues (columns : List (String × DataType)) (values : List Value) :
    Except Error EngineRow := do
  checkWidth columns.length values.length
  (columns.zip values).mapM fun c => return (c.1.1, ← c.1.2.toEngine c.2)

/-- The values of a row under the types of its columns. -/
def toValues (types : List DataType) (row : EngineRow) : Except Error (List Value) := do
  checkWidth types.length row.length
  (types.zip row).mapM fun c => c.1.ofEngine c.2.2

end EngineRow

end CqlWire
