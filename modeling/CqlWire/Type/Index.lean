import Mathlib.Init

namespace CqlWire

/-- An index of names. Each is noted with its place, one after the other, so that a later place of a
name overwrites an earlier one. -/
def placesOf (names : List String) : Std.HashMap String Nat :=
  .ofList names.zipIdx

end CqlWire
