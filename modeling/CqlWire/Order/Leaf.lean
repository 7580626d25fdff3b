import CqlWire.Ieee.Bits
import CqlWire.Text.Utf8
import CqlWire.Value.Basic

namespace CqlWire

namespace Uuid

/-- The order of random identifiers: by their halves as signed numbers, the upper half first. -/
def order (a b : Uuid) : Ordering :=
  (compare a.signedHigh b.signedHigh).then (compare a.signedLow b.signedLow)

/-- The order of version 1 identifiers: by time stamp, then byte by byte. -/
def timeOrder (a b : Uuid) : Ordering :=
  (compare a.ticks b.ticks).then (compare a.toBytes b.toBytes)

end Uuid

namespace Value

/-- The order of values whose variants differ: by the names of the variants. -/
def shapeOrder (a b : Value) : Ordering :=
  Text.order a.kindName b.kindName

/-- The order of two leaf values. The kind matters for identifiers only, which sort as random ones
under `uuid` and by time otherwise. -/
def leafOrder (kind : Kind) (a b : Value) : Ordering :=
  match a, b with
  | .text x, .text y | .text x, .ascii y | .ascii x, .text y | .ascii x, .ascii y => Text.order x y
  | .boolean x, .boolean y => compare x.toNat y.toNat
  | .tinyint x, .tinyint y => compare x.toInt y.toInt
  | .smallint x, .smallint y => compare x.toInt y.toInt
  | .int x, .int y | .date x, .date y => compare x.toInt y.toInt
  | .bigint x, .bigint y | .timestamp x, .timestamp y | .time x, .time y =>
    compare x.toInt y.toInt
  | .float x, .float y => compare (Ieee.orderKey 32 x.toNat) (Ieee.orderKey 32 y.toNat)
  | .double x, .double y => compare (Ieee.orderKey 64 x.toNat) (Ieee.orderKey 64 y.toNat)
  | .uuid x, .uuid y => if kind = .uuid then x.order y else x.timeOrder y
  | .timeuuid x, .timeuuid y | .timeuuid x, .uuid y | .uuid x, .timeuuid y => x.timeOrder y
  | .inet x, .inet y => compare x.toBytes y.toBytes
  | .blob x, .blob y => compare x y
  | .varint x, .varint y => compare x y
  | .decimal x, .decimal y => x.order y
  | .empty, .empty => .eq
  | _, _ => shapeOrder a b

end Value

end CqlWire
