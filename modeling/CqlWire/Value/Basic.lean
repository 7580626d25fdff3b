import CqlWire.Address
import CqlWire.Decimal
import CqlWire.Kind
import CqlWire.Uuid

namespace CqlWire

/-- A decoded value of any type. Floating-point numbers are kept as their bits. A record holds its
fields in the order of their names and no null among them. -/
inductive Value where
  | null
  | ascii (s : String)
  | text (s : String)
  | boolean (b : Bool)
  | tinyint (n : Int8)
  | smallint (n : Int16)
  | int (n : Int32)
  | bigint (n : Int64)
  | float (bits : UInt32)
  | double (bits : UInt64)
  /-- Milliseconds since the first of January 1970. -/
  | timestamp (millis : Int64)
  /-- Days since the first of January 1970. -/
  | date (days : Int32)
  /-- Nanoseconds since midnight. -/
  | time (nanos : Int64)
  | uuid (u : Uuid)
  | timeuuid (u : Uuid)
  | inet (a : Address)
  | blob (bytes : Bytes)
  | varint (n : Int)
  | decimal (d : Decimal)
  | empty
  | list (items : List Value)
  | set (items : List Value)
  | map (entries : List (Value × Value))
  | tuple (items : List Value)
  | record (fields : List (String × Value))
deriving Repr, Inhabited

namespace Value

/-- Induction over a value and all values inside it. -/
@[elab_as_elim, induction_eliminator]
theorem induct {motive : Value → Prop} (null : motive .null) (ascii : ∀ s, motive (.ascii s))
    (text : ∀ s, motive (.text s)) (boolean : ∀ b, motive (.boolean b))
    (tinyint : ∀ n, motive (.tinyint n)) (smallint : ∀ n, motive (.smallint n))
    (int : ∀ n, motive (.int n)) (bigint : ∀ n, motive (.bigint n))
    (float : ∀ bits, motive (.float bits)) (double : ∀ bits, motive (.double bits))
    (timestamp : ∀ millis, motive (.timestamp millis)) (date : ∀ days, motive (.date days))
    (time : ∀ nanos, motive (.time nanos)) (uuid : ∀ u, motive (.uuid u))
    (timeuuid : ∀ u, motive (.timeuuid u)) (inet : ∀ a, motive (.inet a))
    (blob : ∀ bytes, motive (.blob bytes)) (varint : ∀ n, motive (.varint n))
    (decimal : ∀ d, motive (.decimal d)) (empty : motive .empty)
    (list : ∀ items, (∀ v ∈ items, motive v) → motive (.list items))
    (set : ∀ items, (∀ v ∈ items, motive v) → motive (.set items))
    (map : ∀ entries, (∀ e ∈ entries, motive e.1 ∧ motive e.2) → motive (.map entries))
    (tuple : ∀ items, (∀ v ∈ items, motive v) → motive (.tuple items))
    (record : ∀ fields, (∀ f ∈ fields, motive f.2) → motive (.record fields)) (v : Value) :
    motive v :=
  @Value.rec motive (fun vs => ∀ v ∈ vs, motive v) (fun es => ∀ e ∈ es, motive e.1 ∧ motive e.2)
    (fun fs => ∀ f ∈ fs, motive f.2) (fun e => motive e.1 ∧ motive e.2) (fun f => motive f.2)
    null ascii text boolean tinyint smallint int bigint float double timestamp date time uuid
    timeuuid inet blob varint decimal empty list set map tuple record
    (fun _ h => nomatch h)
    (fun _ _ hh ht _ hm => by
      rcases List.mem_cons.mp hm with rfl | hm
      · exact hh
      · exact ht _ hm)
    (fun _ h => nomatch h)
    (fun _ _ hh ht _ hm => by
      rcases List.mem_cons.mp hm with rfl | hm
      · exact hh
      · exact ht _ hm)
    (fun _ h => nomatch h)
    (fun _ _ hh ht _ hm => by
      rcases List.mem_cons.mp hm with rfl | hm
      · exact hh
      · exact ht _ hm)
    (fun _ _ hk hv => ⟨hk, hv⟩)
    (fun _ _ h => h) v

/-- Whether the value is null. -/
def isNull : Value → Bool
  | null => true
  | _ => false

/-- The name of a value's variant. -/
def kindName : Value → String
  | null => "null"
  | ascii _ => "ascii"
  | text _ => "text"
  | boolean _ => "boolean"
  | tinyint _ => "tinyint"
  | smallint _ => "smallint"
  | int _ => "int"
  | bigint _ => "bigint"
  | float _ => "float"
  | double _ => "double"
  | timestamp _ => "timestamp"
  | date _ => "date"
  | time _ => "time"
  | uuid _ => "uuid"
  | timeuuid _ => "timeuuid"
  | inet _ => "inet"
  | blob _ => "blob"
  | varint _ => "varint"
  | decimal _ => "decimal"
  | empty => "empty"
  | list _ => "list"
  | set _ => "set"
  | map _ => "map"
  | tuple _ => "tuple"
  | record _ => "udt"

/-- The number of an `int`. -/
def toInt32? : Value → Option Int32
  | int n => some n
  | _ => none

/-- The characters of a `text` or an `ascii`. -/
def toString? : Value → Option String
  | text s | ascii s => some s
  | _ => none

/-- The items of a list, a set or a tuple. -/
def items? : Value → Option (List Value)
  | list items | set items | tuple items => some items
  | _ => none

/-- The number of elements of a list or a set, or of entries of a map. -/
def size? : Value → Option Nat
  | list items | set items => some items.length
  | map entries => some entries.length
  | _ => none

end Value

end CqlWire
