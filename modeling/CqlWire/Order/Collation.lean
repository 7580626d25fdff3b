import CqlWire.Order.Leaf
import CqlWire.Order.Sort
import CqlWire.Type.Basic
import CqlWire.Value.Fields

namespace CqlWire

namespace Value

/-- Null before all else, and two values that are not null as `otherwise` says. -/
@[macro_inline] def nullsFirst (a b : Value) (otherwise : Ordering) : Ordering :=
  match a.isNull, b.isNull with
  | true, true => .eq
  | true, false => .lt
  | false, true => .gt
  | false, false => otherwise

/-- Item by item. Of two lists that agree as far as both go, the longer is the greater one, unless
all that it has more is null. -/
def sequenceOrder (order : Value → Value → Ordering) : List Value → List Value → Ordering
  | a :: as, b :: bs => (order a b).then (sequenceOrder order as bs)
  | [], bs => if bs.any (!·.isNull) then .lt else .eq
  | as, [] => if as.any (!·.isNull) then .gt else .eq

/-- The elements of a set in order, those that compare equal once. -/
def sortedElements (order : Value → Value → Ordering) (items : List Value) : List Value :=
  collapse (fun a b => order a b = .eq) (sortBy order items)

/-- The entries of a map in the order of their keys, of keys that compare equal the first. -/
def sortedEntries (order : Value → Value → Ordering) (entries : List (Value × Value)) :
    List (Value × Value) :=
  collapse (fun a b => order a.1 b.1 = .eq) (sortBy (fun a b => order a.1 b.1) entries)

/-- Entry by entry, the key before the value; of maps that agree as far as both go, the longer is
the greater one. -/
def entriesOrder (keyOrder valueOrder : Value → Value → Ordering) :
    List (Value × Value) → List (Value × Value) → Ordering
  | (k, v) :: as, (l, w) :: bs =>
    (keyOrder k l).then ((valueOrder v w).then (entriesOrder keyOrder valueOrder as bs))
  | [], [] => .eq
  | [], _ :: _ => .lt
  | _ :: _, [] => .gt

end Value

namespace DataType

open Value in
mutual

/-- The order of two values of a type. Null comes before any value; the positions of a tuple and
the fields of a record are compared in the order that the type gives them. -/
def order : DataType → Value → Value → Ordering
  | .leaf kind, a, b => nullsFirst a b (leafOrder kind a b)
  | .list t, a, b =>
    nullsFirst a b <|
      match a, b with
      | .list x, .list y => sequenceOrder (fun a b => order t a b) x y
      | _, _ => shapeOrder a b
  | .set t, a, b =>
    nullsFirst a b <|
      match a, b with
      | .set x, .set y =>
        sequenceOrder (fun a b => order t a b) (sortedElements (fun a b => order t a b) x)
          (sortedElements (fun a b => order t a b) y)
      | _, _ => shapeOrder a b
  | .map k v, a, b =>
    nullsFirst a b <|
      match a, b with
      | .map x, .map y =>
        entriesOrder (fun a b => order k a b) (fun a b => order v a b)
          (sortedEntries (fun a b => order k a b) x) (sortedEntries (fun a b => order k a b) y)
      | _, _ => shapeOrder a b
  | .tuple ts, a, b =>
    nullsFirst a b <|
      match a, b with
      | .tuple x, .tuple y => positionsOrder ts x y
      | _, _ => shapeOrder a b
  | .udt _ _ fields, a, b =>
    nullsFirst a b <|
      match a, b with
      | .record x, .record y => fieldsOrder fields x y
      | _, _ => shapeOrder a b
  | .frozen t, a, b => order t a b

/-- Position by position; positions that are missing are null. -/
def positionsOrder : List DataType → List Value → List Value → Ordering
  | [], _, _ => .eq
  | t :: ts, as, bs =>
    (order t (as.headD .null) (bs.headD .null)).then (positionsOrder ts as.tail bs.tail)

/-- Field by field; fields that are missing are null. -/
def fieldsOrder : List (String × DataType) → Fields → Fields → Ordering
  | [], _, _ => .eq
  | (name, t) :: fs, as, bs =>
    (order t (as.getD name) (bs.getD name)).then (fieldsOrder fs as bs)

end

end DataType

/-- Sorts values of a type and keeps the order of those that compare equal. -/
def Value.sort (t : DataType) (values : List Value) : List Value :=
  sortBy t.order values

end CqlWire
