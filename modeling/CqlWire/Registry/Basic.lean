import CqlWire.Error
import CqlWire.Text.Utf8
import CqlWire.Type.Udt

namespace CqlWire

/-- The user-defined types on record, at most one for each keyspace and name. They alone decide
which fields a type has and in which order. -/
structure Registry where
  entries : List Udt
deriving DecidableEq, Repr

namespace Registry

/-- The registry without entries. -/
def empty : Registry := ⟨[]⟩

/-- Whether a type has this keyspace and name. -/
def isNamed (keyspace name : String) (udt : Udt) : Bool :=
  udt.keyspace = keyspace && udt.name = name

/-- The type on record. -/
def get? (r : Registry) (keyspace name : String) : Option Udt :=
  r.entries.find? (isNamed keyspace name)

/-- The type on record, or the error that there is none. -/
def lookup (r : Registry) (keyspace name : String) : Except Error Udt :=
  match r.get? keyspace name with
  | some udt => .ok udt
  | none => .error (.notRegistered keyspace name)

/-- Whether a type is on record. -/
def contains (r : Registry) (keyspace name : String) : Bool :=
  (r.get? keyspace name).isSome

/-- The number of types on record. -/
def size (r : Registry) : Nat := r.entries.length

/-- Takes a type off record. -/
def erase (r : Registry) (keyspace name : String) : Registry :=
  ⟨r.entries.filter fun udt => !isNamed keyspace name udt⟩

/-- Puts a type on record in place of the one of its name. -/
def insert (r : Registry) (udt : Udt) : Registry :=
  ⟨udt :: (r.erase udt.keyspace udt.name).entries⟩

/-- Puts every user-defined type of a type on record, in the order of `DataType.udts`. -/
def insertAll (r : Registry) (type : DataType) : Registry :=
  type.udts.foldl insert r

theorem isNamed_iff {keyspace name : String} {udt : Udt} :
    isNamed keyspace name udt = true ↔ udt.keyspace = keyspace ∧ udt.name = name := by
  simp [isNamed]

theorem lookup_eq_ok {r : Registry} {keyspace name : String} {udt : Udt} :
    r.lookup keyspace name = .ok udt ↔ r.get? keyspace name = some udt := by
  unfold lookup
  cases r.get? keyspace name <;> simp

theorem lookup_eq_error {r : Registry} {keyspace name : String} {e : Error}
    (h : r.lookup keyspace name = .error e) :
    r.contains keyspace name = false ∧ e = .notRegistered keyspace name := by
  unfold lookup at h
  split at h
  next => cases h
  next hnone =>
    cases h
    exact ⟨by rw [contains, hnone]; rfl, rfl⟩

theorem contains_iff {r : Registry} {keyspace name : String} :
    r.contains keyspace name = true ↔ ∃ udt, r.lookup keyspace name = .ok udt := by
  simp only [contains, lookup_eq_ok, Option.isSome_iff_exists]

theorem names_of_lookup {r : Registry} {keyspace name : String} {udt : Udt}
    (h : r.lookup keyspace name = .ok udt) : udt.keyspace = keyspace ∧ udt.name = name :=
  isNamed_iff.mp (List.find?_some (lookup_eq_ok.mp h))

theorem get?_erase (r : Registry) (keyspace name k n : String) :
    (r.erase keyspace name).get? k n = if keyspace = k ∧ name = n then none else r.get? k n := by
  simp only [get?, erase, List.find?_filter]
  split
  next h =>
    obtain ⟨rfl, rfl⟩ := h
    exact List.find?_eq_none.mpr fun udt _ => by simp
  next h =>
    congr 1
    funext udt
    cases hu : isNamed k n udt with
    | false => simp
    | true =>
      have hk := isNamed_iff.mp hu
      have hne : isNamed keyspace name udt = false := by
        rw [Bool.eq_false_iff, ne_eq, isNamed_iff]
        exact fun he => h ⟨he.1.symm.trans hk.1, he.2.symm.trans hk.2⟩
      simp [hne]

theorem get?_insert (r : Registry) (udt : Udt) (keyspace name : String) :
    (r.insert udt).get? keyspace name =
      if udt.keyspace = keyspace ∧ udt.name = name then some udt else r.get? keyspace name := by
  have rest : (r.insert udt).get? keyspace name =
      if isNamed keyspace name udt then some udt
      else (r.erase udt.keyspace udt.name).get? keyspace name := by
    simp only [get?, insert, List.find?_cons]
    split <;> simp [*]
  simp only [rest, isNamed_iff, get?_erase]
  split <;> simp [*]

theorem get?_empty (keyspace name : String) : empty.get? keyspace name = none := rfl

end Registry

end CqlWire
