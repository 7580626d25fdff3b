import CqlWire.Proofs.Generation
import CqlWire.Proofs.Positions
import CqlWire.Proofs.Records
import CqlWire.Table.Index

namespace CqlWire

namespace TableSpec

namespace Indexed

variable {laid : Indexed} {columns : List Column} {seen : List String}

theorem contains_insert {indexed : Indexed}
    (hseen : ∀ n, indexed.places.contains n = seen.contains n) (name : String) (position : Nat)
    (n : String) :
    (indexed.places.insert name position).contains n = (name :: seen).contains n := by
  rw [Std.HashMap.contains_insert, hseen, List.contains_cons, BEq.comm]

end Indexed

/-- The table that a specification gives. -/
def table (spec : TableSpec) (keyspaceWord nameWord : UInt64) : Table :=
  ⟨spec.keyspace?.getD (generated "keyspace" keyspaceWord),
    spec.name?.getD (generated "table" nameWord), arranged spec.columns, spec.insertFields?,
    spec.deleteConditions?⟩

end TableSpec

namespace Random

variable {σ : Type} [RandomSource σ]

end Random

namespace Table

open CqlWire.Random (Yields)

variable {σ : Type} [RandomSource σ] {row : Row}

end Table

namespace TableSpec

end TableSpec

end CqlWire
