import CqlWire.Kind

namespace CqlWire

/-- The declared type of a column. A user-defined type carries its keyspace, its name and its
fields in the order of their declaration. -/
inductive DataType where
  | leaf (kind : Kind)
  | list (element : DataType)
  | set (element : DataType)
  | map (key value : DataType)
  | tuple (elements : List DataType)
  | udt (keyspace name : String) (fields : List (String × DataType))
  | frozen (inner : DataType)
deriving Repr, Inhabited

namespace DataType

/-- Induction over a type, its tuple positions and its fields. -/
@[elab_as_elim, induction_eliminator]
theorem induct {motive : DataType → Prop} (leaf : ∀ kind, motive (.leaf kind))
    (list : ∀ element, motive element → motive (.list element))
    (set : ∀ element, motive element → motive (.set element))
    (map : ∀ key value, motive key → motive value → motive (.map key value))
    (tuple : ∀ elements, (∀ t ∈ elements, motive t) → motive (.tuple elements))
    (udt : ∀ keyspace name fields, (∀ f ∈ fields, motive f.2) → motive (.udt keyspace name fields))
    (frozen : ∀ inner, motive inner → motive (.frozen inner)) (t : DataType) : motive t :=
  @DataType.rec motive (fun ts => ∀ t ∈ ts, motive t) (fun fs => ∀ f ∈ fs, motive f.2)
    (fun f => motive f.2) leaf list set map tuple udt frozen
    (fun _ h => nomatch h)
    (fun _ _ hh ht _ hm => by
      rcases List.mem_cons.mp hm with rfl | hm
      · exact hh
      · exact ht _ hm)
    (fun _ h => nomatch h)
    (fun _ _ hh ht _ hm => by
      rcases List.mem_cons.mp hm with rfl | hm
      · exact hh
      · exact ht _ hm)
    (fun _ _ h => h) t

mutual

/-- Equality of types, decided. -/
def decEq : (a b : DataType) → Decidable (a = b)
  | .leaf k, .leaf l => decidable_of_iff (k = l) (by simp)
  | .list a, .list b | .set a, .set b | .frozen a, .frozen b =>
    have := decEq a b
    decidable_of_iff (a = b) (by simp)
  | .map k v, .map l w =>
    have := decEq k l
    have := decEq v w
    decidable_of_iff (k = l ∧ v = w) (by simp)
  | .tuple as, .tuple bs =>
    have := decEqEach as bs
    decidable_of_iff (as = bs) (by simp)
  | .udt k n fs, .udt l m gs =>
    have := decEqFields fs gs
    decidable_of_iff (k = l ∧ n = m ∧ fs = gs) (by simp)
  | .leaf _, .list _ | .leaf _, .set _ | .leaf _, .map _ _ | .leaf _, .tuple _ | .leaf _, .udt _ _ _
  | .leaf _, .frozen _ | .list _, .leaf _ | .list _, .set _ | .list _, .map _ _ | .list _, .tuple _
  | .list _, .udt _ _ _ | .list _, .frozen _ | .set _, .leaf _ | .set _, .list _ | .set _, .map _ _
  | .set _, .tuple _ | .set _, .udt _ _ _ | .set _, .frozen _ | .map _ _, .leaf _ | .map _ _, .list _
  | .map _ _, .set _ | .map _ _, .tuple _ | .map _ _, .udt _ _ _ | .map _ _, .frozen _
  | .tuple _, .leaf _ | .tuple _, .list _ | .tuple _, .set _ | .tuple _, .map _ _
  | .tuple _, .udt _ _ _ | .tuple _, .frozen _ | .udt _ _ _, .leaf _ | .udt _ _ _, .list _
  | .udt _ _ _, .set _ | .udt _ _ _, .map _ _ | .udt _ _ _, .tuple _ | .udt _ _ _, .frozen _
  | .frozen _, .leaf _ | .frozen _, .list _ | .frozen _, .set _ | .frozen _, .map _ _
  | .frozen _, .tuple _ | .frozen _, .udt _ _ _ => isFalse nofun

/-- Equality of lists of types, decided. -/
def decEqEach : (as bs : List DataType) → Decidable (as = bs)
  | [], [] => isTrue rfl
  | [], _ :: _ | _ :: _, [] => isFalse nofun
  | a :: as, b :: bs =>
    have := decEq a b
    have := decEqEach as bs
    decidable_of_iff (a = b ∧ as = bs) (by simp)

/-- Equality of lists of fields, decided. -/
def decEqFields : (fs gs : List (String × DataType)) → Decidable (fs = gs)
  | [], [] => isTrue rfl
  | [], _ :: _ | _ :: _, [] => isFalse nofun
  | (n, a) :: fs, (m, b) :: gs =>
    have := decEq a b
    have := decEqFields fs gs
    decidable_of_iff ((n = m ∧ a = b) ∧ fs = gs) (by simp)

end

instance : DecidableEq DataType := decEq

end DataType

end CqlWire
