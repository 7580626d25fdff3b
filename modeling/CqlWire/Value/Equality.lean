import CqlWire.Value.Basic

namespace CqlWire.Value

/-- Whether the entries of a map, of those with the same key only the first, all stand in another
map. Each entry is given by its tests for an equal key and an equal value, and `earlier` holds the
tests for the keys before it. -/
def entriesWithin (earlier : List (Value → Bool)) :
    List (Value × (Value → Bool) × (Value → Bool)) → List (Value × Value) → Bool
  | [], _ => true
  | (key, sameKey, sameValue) :: rest, other =>
    (earlier.any (· key) ||
      match other.find? fun e => sameKey e.1 with
      | some e => sameValue e.2
      | none => false) &&
    entriesWithin (sameKey :: earlier) rest other

mutual

/-- Equality of values. Sets and maps are equal as sets: order and repeats do not count, and of map
entries with the same key only the first does. Floating-point numbers are equal when their bits
are. -/
def same : Value → Value → Bool
  | .null, b => match b with | .null => true | _ => false
  | .ascii s, b => match b with | .ascii t => s = t | _ => false
  | .text s, b => match b with | .text t => s = t | _ => false
  | .boolean x, b => match b with | .boolean y => x = y | _ => false
  | .tinyint x, b => match b with | .tinyint y => x = y | _ => false
  | .smallint x, b => match b with | .smallint y => x = y | _ => false
  | .int x, b => match b with | .int y => x = y | _ => false
  | .bigint x, b => match b with | .bigint y => x = y | _ => false
  | .float x, b => match b with | .float y => x = y | _ => false
  | .double x, b => match b with | .double y => x = y | _ => false
  | .timestamp x, b => match b with | .timestamp y => x = y | _ => false
  | .date x, b => match b with | .date y => x = y | _ => false
  | .time x, b => match b with | .time y => x = y | _ => false
  | .uuid x, b => match b with | .uuid y => x = y | _ => false
  | .timeuuid x, b => match b with | .timeuuid y => x = y | _ => false
  | .inet x, b => match b with | .inet y => x = y | _ => false
  | .blob x, b => match b with | .blob y => x = y | _ => false
  | .varint x, b => match b with | .varint y => x = y | _ => false
  | .decimal x, b => match b with | .decimal y => x = y | _ => false
  | .empty, b => match b with | .empty => true | _ => false
  | .list x, b => match b with | .list y => sameItems x y | _ => false
  | .set x, b =>
    match b with
    | .set y => allHeldBy x y && y.all (holds x)
    | _ => false
  | .map x, b =>
    match b with
    | .map y =>
      entriesWithin [] (tests x) y && y.all fun e => holdsKey x e.1
    | _ => false
  | .tuple x, b => match b with | .tuple y => sameItems x y | _ => false
  | .record x, b => match b with | .record y => sameFields x y | _ => false

/-- Equality item by item. -/
def sameItems : List Value → List Value → Bool
  | [], [] => true
  | a :: as, b :: bs => same a b && sameItems as bs
  | _, _ => false

/-- Whether some item equals a value. -/
def holds : List Value → Value → Bool
  | [], _ => false
  | a :: as, b => same a b || holds as b

/-- Whether each item equals some item of another list. -/
def allHeldBy : List Value → List Value → Bool
  | [], _ => true
  | a :: as, bs => bs.any (fun b => same a b) && allHeldBy as bs

/-- Whether some entry has a key. -/
def holdsKey : List (Value × Value) → Value → Bool
  | [], _ => false
  | (k, _) :: rest, b => same k b || holdsKey rest b

/-- The entries of a map as `entriesWithin` takes them. -/
def tests : List (Value × Value) → List (Value × (Value → Bool) × (Value → Bool))
  | [] => []
  | (k, v) :: rest => (k, (fun b => same k b), (fun b => same v b)) :: tests rest

/-- Equality field by field, names included. -/
def sameFields : List (String × Value) → List (String × Value) → Bool
  | [], [] => true
  | (n, a) :: as, (m, b) :: bs => n = m && same a b && sameFields as bs
  | _, _ => false

end

instance : BEq Value := ⟨same⟩

end CqlWire.Value
