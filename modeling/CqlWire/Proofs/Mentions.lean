import CqlWire.Proofs.Resolution
import Mathlib.Logic.Relation

namespace CqlWire

/-- Keyspace and name of a user-defined type. -/
abbrev QualifiedName := String × String

/-- The name under which a type is put on record. -/
def Udt.key (udt : Udt) : QualifiedName :=
  (udt.keyspace, udt.name)

theorem Udt.eq_key_iff {udt : Udt} {n : QualifiedName} :
    n = udt.key ↔ udt.keyspace = n.1 ∧ udt.name = n.2 := by
  rw [Prod.ext_iff, eq_comm, @eq_comm _ n.2]
  rfl

namespace DataType

mutual

/-- The user-defined types in a type, but for those in declared fields. -/
def mentions : DataType → List QualifiedName
  | .leaf _ => []
  | .list t | .set t | .frozen t => mentions t
  | .map k v => mentions k ++ mentions v
  | .tuple ts => mentionsEach ts
  | .udt keyspace name _ => [(keyspace, name)]

def mentionsEach : List DataType → List QualifiedName
  | [] => []
  | t :: ts => mentions t ++ mentionsEach ts

end

theorem mem_mentionsEach {ts : List DataType} {n : QualifiedName} :
    n ∈ mentionsEach ts ↔ ∃ t ∈ ts, n ∈ t.mentions := by
  induction ts with
  | nil => simp [mentionsEach]
  | cons t ts ih => simp [mentionsEach, ih]

theorem mentions_of_shape {t : DataType} {s : Shape} (h : t.shape = s) :
    t.mentions = s.toType.mentions := by
  rw [← h, toType_shape]
  clear h
  induction t with
  | frozen t ih => exact ih
  | _ => rfl

end DataType

namespace Registry

variable {r : Registry} {t : DataType} {m n : QualifiedName}

/-- The type on record under one name has a field in whose type the other one stands. -/
def Refers (r : Registry) (m n : QualifiedName) : Prop :=
  ∃ udt, r.lookup m.1 m.2 = .ok udt ∧ ∃ f ∈ udt.fields, n ∈ f.2.mentions

/-- A name in a type, or in the type on record under such a name, at any depth. -/
def Meets (r : Registry) (t : DataType) (n : QualifiedName) : Prop :=
  ∃ m ∈ t.mentions, Relation.ReflTransGen r.Refers m n

/-- A type on record lies within itself. -/
def Recurs (r : Registry) (n : QualifiedName) : Prop :=
  Relation.TransGen r.Refers n n

/-- A type that lies within itself stands in the type, at any depth. -/
def Loops (r : Registry) (t : DataType) : Prop :=
  ∃ m, r.Meets t m ∧ r.Recurs m

theorem meets_of_field {declared udt : Udt} (ht : t.shape = .udt declared)
    (hu : r.lookup declared.keyspace declared.name = .ok udt) {f : String × DataType}
    (hf : f ∈ udt.fields) (h : r.Meets f.2 n) : r.Meets t n := by
  obtain ⟨m, hm, path⟩ := h
  have step : r.Refers (declared.keyspace, declared.name) m := ⟨udt, hu, f, hf, hm⟩
  refine ⟨(declared.keyspace, declared.name), ?_, .head step path⟩
  rw [DataType.mentions_of_shape ht]
  exact List.mem_singleton_self _

end Registry

end CqlWire
