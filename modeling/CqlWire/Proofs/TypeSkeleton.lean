import CqlWire.Order.Collation
import CqlWire.Proofs.Resolution
import CqlWire.Type.Name

namespace CqlWire

namespace DataType

mutual

/-- The type without the fields that its user-defined types declare. -/
def undeclared : DataType → DataType
  | .leaf kind => .leaf kind
  | .list t => .list (undeclared t)
  | .set t => .set (undeclared t)
  | .map k v => .map (undeclared k) (undeclared v)
  | .tuple ts => .tuple (undeclaredEach ts)
  | .udt keyspace name _ => .udt keyspace name []
  | .frozen t => .frozen (undeclared t)

def undeclaredEach : List DataType → List DataType
  | [] => []
  | t :: ts => undeclared t :: undeclaredEach ts

end

mutual

/-- The type without frozen wrappers, at any depth. -/
def thaw : DataType → DataType
  | .leaf kind => .leaf kind
  | .list t => .list (thaw t)
  | .set t => .set (thaw t)
  | .map k v => .map (thaw k) (thaw v)
  | .tuple ts => .tuple (thawEach ts)
  | .udt keyspace name fields => .udt keyspace name (thawFields fields)
  | .frozen t => thaw t

def thawEach : List DataType → List DataType
  | [] => []
  | t :: ts => thaw t :: thawEach ts

def thawFields : List (String × DataType) → List (String × DataType)
  | [] => []
  | (name, t) :: fields => (name, thaw t) :: thawFields fields

end

/-- The type by its constructors and the names of its user-defined types alone. -/
def skeleton (t : DataType) : DataType :=
  t.thaw.undeclared

variable {t u o : DataType}

theorem undeclaredEach_eq_map (ts : List DataType) : undeclaredEach ts = ts.map undeclared := by
  induction ts with
  | nil => rfl
  | cons t ts ih => rw [undeclaredEach, ih, List.map_cons]

theorem thawEach_eq_map (ts : List DataType) : thawEach ts = ts.map thaw := by
  induction ts with
  | nil => rfl
  | cons t ts ih => rw [thawEach, ih, List.map_cons]

theorem thawFields_eq_map (fields : FieldTypes) :
    thawFields fields = fields.map fun f => (f.1, f.2.thaw) := by
  induction fields with
  | nil => rfl
  | cons f fields ih => rw [thawFields, ih, List.map_cons]

theorem skeleton_tuple (ts : List DataType) : (tuple ts).skeleton = .tuple (ts.map skeleton) := by
  rw [skeleton, thaw, undeclared, thawEach_eq_map, undeclaredEach_eq_map, List.map_map]
  rfl

theorem thaw_undeclared (t : DataType) : t.undeclared.thaw = t.skeleton := by
  induction t with
  | leaf kind => rfl
  | list t ih | set t ih => rw [undeclared, thaw, ih]; rfl
  | map k v ihk ihv => rw [undeclared, thaw, ihk, ihv]; rfl
  | tuple ts ih =>
    rw [undeclared, thaw, thawEach_eq_map, undeclaredEach_eq_map, List.map_map, skeleton_tuple]
    exact congrArg DataType.tuple (List.map_congr_left ih)
  | udt keyspace name fields => rfl
  | frozen t ih => exact ih

theorem skeleton_eq_of_undeclared (h : t.undeclared = u.undeclared) : t.skeleton = u.skeleton := by
  rw [← thaw_undeclared, h, thaw_undeclared]

theorem skeleton_eq_of_thaw (h : t.thaw = u.thaw) : t.skeleton = u.skeleton :=
  congrArg undeclared h

@[simp] theorem thaw_freeze (t : DataType) : t.freeze.thaw = t.thaw := by
  cases t <;> rfl

theorem skeleton_freeze (t : DataType) : t.freeze.skeleton = t.skeleton :=
  congrArg undeclared t.thaw_freeze

theorem isFrozen_freeze (t : DataType) : t.freeze.isFrozen = true := by
  cases t <;> rfl

theorem isFrozen_undeclared (t : DataType) : t.undeclared.isFrozen = t.isFrozen := by
  cases t <;> rfl

/-- The name of a type says nothing of declared fields. -/
theorem name_undeclared (t : DataType) : t.undeclared.name = t.name := by
  induction t with
  | leaf kind => rfl
  | list t ih | set t ih | frozen t ih => rw [undeclared, name, ih, name]
  | map k v ihk ihv => rw [undeclared, name, ihk, ihv, name]
  | tuple ts ih =>
    have each : ts.map (name ∘ undeclared) = ts.map name := List.map_congr_left ih
    rw [undeclared, name, name, undeclaredEach_eq_map, names_eq_map, names_eq_map, List.map_map, each]
  | udt keyspace n fields => rfl

theorem isFrozen_eq_of_undeclared (h : t.undeclared = u.undeclared) : t.isFrozen = u.isFrozen := by
  rw [← isFrozen_undeclared, h, isFrozen_undeclared]

theorem name_eq_of_undeclared (h : t.undeclared = u.undeclared) : t.name = u.name := by
  rw [← name_undeclared, h, name_undeclared]

theorem positionsOrder_congr {ts us : List DataType}
    (h : List.Forall₂ (fun t u => t.order = u.order) ts us) : positionsOrder ts = positionsOrder us := by
  induction h with
  | nil => rfl
  | cons htu _ ih =>
    funext x y
    rw [positionsOrder, positionsOrder, htu, ih]

theorem fieldsOrder_congr {fs gs : FieldTypes}
    (h : List.Forall₂ (fun f g => f.1 = g.1 ∧ f.2.order = g.2.order) fs gs) :
    fieldsOrder fs = fieldsOrder gs := by
  induction h with
  | nil => rfl
  | @cons f g _ _ hfg _ ih =>
    obtain ⟨name, t⟩ := f
    obtain ⟨_, u⟩ := g
    obtain ⟨rfl, htu⟩ := hfg
    funext x y
    rw [fieldsOrder, fieldsOrder, htu, ih]

/-- Frozen wrappers say nothing of the order. -/
theorem order_thaw (t : DataType) : t.thaw.order = t.order := by
  induction t with
  | leaf kind => rfl
  | list t ih | set t ih =>
    funext a b
    unfold thaw order
    rw [ih]
  | map k v ihk ihv =>
    funext a b
    unfold thaw order
    rw [ihk, ihv]
  | tuple ts ih =>
    funext a b
    have each := positionsOrder_congr (List.forall₂_map_left_iff.mpr (List.forall₂_same.mpr ih))
    unfold thaw order
    rw [thawEach_eq_map, each]
  | udt keyspace name fields ih =>
    funext a b
    have each : fieldsOrder (fields.map fun f => (f.1, f.2.thaw)) = fieldsOrder fields :=
      fieldsOrder_congr <| List.forall₂_map_left_iff.mpr <| List.forall₂_same.mpr fun f hf => ⟨rfl, ih f hf⟩
    unfold thaw order
    rw [thawFields_eq_map, each]
  | frozen t ih =>
    rw [thaw, ih]
    rfl

theorem order_eq_of_thaw (h : t.thaw = u.thaw) : t.order = u.order := by
  rw [← order_thaw, h, order_thaw]

end DataType

namespace Shape

/-- Two shapes with the same constructor, parts of the same skeleton and the same name. -/
inductive Alike : Shape → Shape → Prop
  | leaf (kind : Kind) : Alike (.leaf kind) (.leaf kind)
  | list {t u : DataType} (h : t.skeleton = u.skeleton) : Alike (.list t) (.list u)
  | set {t u : DataType} (h : t.skeleton = u.skeleton) : Alike (.set t) (.set u)
  | map {k l v w : DataType} (hk : k.skeleton = l.skeleton) (hv : v.skeleton = w.skeleton) :
    Alike (.map k v) (.map l w)
  | tuple {ts us : List DataType} (h : List.Forall₂ (fun t u => t.skeleton = u.skeleton) ts us) :
    Alike (.tuple ts) (.tuple us)
  | udt (keyspace name : String) (fields others : FieldTypes) :
    Alike (.udt ⟨keyspace, name, fields⟩) (.udt ⟨keyspace, name, others⟩)

/-- The skeletons of the parts of a shape. -/
def skeleton : Shape → Shape
  | .leaf kind => .leaf kind
  | .list t => .list t.skeleton
  | .set t => .set t.skeleton
  | .map k v => .map k.skeleton v.skeleton
  | .tuple ts => .tuple (ts.map DataType.skeleton)
  | .udt u => .udt ⟨u.keyspace, u.name, []⟩

theorem Alike.of_skeleton {s s' : Shape} (h : s.skeleton = s'.skeleton) : s.Alike s' := by
  cases s <;> cases s' <;> simp only [skeleton, reduceCtorEq, leaf.injEq, list.injEq, set.injEq,
    map.injEq, tuple.injEq, udt.injEq, Udt.mk.injEq] at h
  case leaf.leaf => subst h; exact .leaf _
  case list.list => exact .list h
  case set.set => exact .set h
  case map.map => exact .map h.1 h.2
  case tuple.tuple => exact .tuple (.of_map_eq_map h)
  case udt.udt u other =>
    obtain ⟨keyspace, name, fields⟩ := u
    obtain ⟨_, _, others⟩ := other
    obtain ⟨rfl, rfl, -⟩ := h
    exact .udt keyspace name fields others

end Shape

theorem DataType.shape_skeleton (t : DataType) : t.skeleton.shape = t.shape.skeleton := by
  induction t with
  | tuple ts => rw [skeleton_tuple]; rfl
  | frozen t ih => exact ih
  | _ => rfl

theorem DataType.exists_alike {t u : DataType} (h : t.skeleton = u.skeleton) :
    ∃ s s', t.shape = s ∧ u.shape = s' ∧ s.Alike s' := by
  refine ⟨_, _, rfl, rfl, Shape.Alike.of_skeleton ?_⟩
  rw [← shape_skeleton, h, shape_skeleton]

end CqlWire
