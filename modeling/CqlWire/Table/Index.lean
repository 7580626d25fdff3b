import CqlWire.Table.Row
import Mathlib.Init

namespace CqlWire.TableSpec

/-- Columns with the positions stored with them, and an index of their names. -/
structure Indexed where
  columns : List (Column × Nat)
  places : Std.HashMap String Nat

namespace Indexed

end Indexed

end CqlWire.TableSpec
