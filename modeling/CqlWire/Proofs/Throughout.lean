import CqlWire.Type.Layout
import Mathlib.Logic.Basic

namespace CqlWire.DataType

variable {P : DataType → Prop} {t u k v : DataType} {s : Shape}

/-- Induction over a type, all at once for the types directly inside it. -/
theorem children_induct {motive : DataType → Prop}
    (h : ∀ t : DataType, (∀ u ∈ t.children, motive u) → motive t) (t : DataType) : motive t := by
  induction t with
  | leaf kind => exact h _ nofun
  | list t ih | set t ih | frozen t ih => exact h _ (by simpa [children] using ih)
  | map k v ihk ihv => exact h _ (by simp [children, ihk, ihv])
  | tuple ts ih => exact h _ ih
  | udt keyspace name fields ih => exact h _ (List.forall_mem_map.mpr ih)

/-- Whether a type and all types inside it, at any depth, have a property. -/
inductive Throughout (P : DataType → Prop) : DataType → Prop
  | intro {t : DataType} (here : P t) (inside : ∀ u ∈ t.children, Throughout P u) : Throughout P t

theorem throughout_iff : t.Throughout P ↔ P t ∧ ∀ u ∈ t.children, u.Throughout P :=
  ⟨fun ⟨here, inside⟩ => ⟨here, inside⟩, fun h => ⟨h.1, h.2⟩⟩

theorem Throughout.mono {Q : DataType → Prop} (h : t.Throughout P) (hPQ : ∀ u, P u → Q u) :
    t.Throughout Q := by
  induction h with
  | intro here _ ih => exact .intro (hPQ _ here) ih

/-- What holds throughout a type holds throughout all types inside it. -/
theorem Throughout.nested (h : t.Throughout P) : t.Throughout fun u => u.Throughout P := by
  induction h with
  | intro here inside ih => exact .intro (.intro here inside) ih

@[simp] theorem throughout_leaf {kind : Kind} : (leaf kind).Throughout P ↔ P (.leaf kind) := by
  simp [throughout_iff (t := .leaf kind), children]

@[simp] theorem throughout_list : (list u).Throughout P ↔ P (.list u) ∧ u.Throughout P := by
  simp [throughout_iff (t := .list u), children]

@[simp] theorem throughout_set : (set u).Throughout P ↔ P (.set u) ∧ u.Throughout P := by
  simp [throughout_iff (t := .set u), children]

@[simp] theorem throughout_map :
    (map k v).Throughout P ↔ P (.map k v) ∧ k.Throughout P ∧ v.Throughout P := by
  simp [throughout_iff (t := .map k v), children]

@[simp] theorem throughout_tuple {ts : List DataType} :
    (tuple ts).Throughout P ↔ P (.tuple ts) ∧ ∀ t ∈ ts, t.Throughout P := by
  simp [throughout_iff (t := .tuple ts), children]

@[simp] theorem throughout_udt {keyspace name : String} {fields : List (String × DataType)} :
    (udt keyspace name fields).Throughout P ↔
      P (.udt keyspace name fields) ∧ ∀ f ∈ fields, f.2.Throughout P := by
  rw [throughout_iff]
  exact and_congr_right fun _ => List.forall_mem_map

@[simp] theorem throughout_frozen : (frozen u).Throughout P ↔ P (.frozen u) ∧ u.Throughout P := by
  simp [throughout_iff (t := .frozen u), children]

theorem throughout_base_iff (hP : ∀ u, P (.frozen u)) :
    t.base.Throughout P ↔ t.Throughout P := by
  induction t with
  | frozen t ih =>
    rw [base, ih, throughout_frozen, and_iff_right (hP t)]
  | _ => rfl

theorem not_throughout (h : ¬ t.Throughout P) : ¬ P t ∨ ∃ u ∈ t.children, ¬ u.Throughout P := by
  rw [throughout_iff, not_and_or] at h
  refine h.imp_right fun h => ?_
  simp only [not_forall] at h
  obtain ⟨u, hu, hnot⟩ := h
  exact ⟨u, hu, hnot⟩

/-- No tuple in the type lacks positions and no user-defined type fields. -/
def Populated : DataType → Prop :=
  Throughout fun t => t ≠ .tuple [] ∧ ∀ keyspace name, t ≠ .udt keyspace name []

/-- All types inside a type are populated, which it need not be itself. -/
def PopulatedBelow (t : DataType) : Prop :=
  ∀ u ∈ t.base.children, u.Populated

/-- No list and no set is part of the type; these may hold nulls that the order does not see. -/
def Plain : DataType → Prop :=
  Throughout fun t => ∀ u, t ≠ .list u ∧ t ≠ .set u

/-- The keys of all maps in the type are plain. -/
def HasPlainKeys : DataType → Prop :=
  Throughout fun t => ∀ k v, t = .map k v → k.Plain

/-- The fields of each user-defined type in the type have names of their own. -/
def WellNamed : DataType → Prop :=
  Throughout fun t => ∀ keyspace name fields, t = .udt keyspace name fields →
    (fields.map Prod.fst).Nodup

/-- Nothing in the type is frozen twice over. -/
def FrozenOnce : DataType → Prop :=
  Throughout fun t => ∀ u, t ≠ .frozen (.frozen u)

section ByConstructor

variable {kind : Kind} {ts : List DataType} {keyspace name : String}
  {fields : List (String × DataType)}

@[simp] theorem wellNamed_leaf : (leaf kind).WellNamed := by
  simp [WellNamed]

@[simp] theorem wellNamed_list : (list t).WellNamed ↔ t.WellNamed := by
  simp [WellNamed]

@[simp] theorem wellNamed_set : (set t).WellNamed ↔ t.WellNamed := by
  simp [WellNamed]

@[simp] theorem wellNamed_map : (map k v).WellNamed ↔ k.WellNamed ∧ v.WellNamed := by
  simp [WellNamed]

@[simp] theorem wellNamed_tuple : (tuple ts).WellNamed ↔ ∀ t ∈ ts, t.WellNamed := by
  simp [WellNamed]

@[simp] theorem wellNamed_udt :
    (udt keyspace name fields).WellNamed ↔
      (fields.map Prod.fst).Nodup ∧ ∀ f ∈ fields, f.2.WellNamed := by
  rw [WellNamed, throughout_udt]
  exact and_congr_left' ⟨fun h => h _ _ _ rfl, by rintro h _ _ _ ⟨⟩; exact h⟩

@[simp] theorem wellNamed_frozen : (frozen t).WellNamed ↔ t.WellNamed := by
  simp [WellNamed]

@[simp] theorem frozenOnce_leaf : (leaf kind).FrozenOnce := by
  simp [FrozenOnce]

@[simp] theorem frozenOnce_list : (list t).FrozenOnce ↔ t.FrozenOnce := by
  simp [FrozenOnce]

@[simp] theorem frozenOnce_set : (set t).FrozenOnce ↔ t.FrozenOnce := by
  simp [FrozenOnce]

@[simp] theorem frozenOnce_map : (map k v).FrozenOnce ↔ k.FrozenOnce ∧ v.FrozenOnce := by
  simp [FrozenOnce]

@[simp] theorem frozenOnce_tuple : (tuple ts).FrozenOnce ↔ ∀ t ∈ ts, t.FrozenOnce := by
  simp [FrozenOnce]

@[simp] theorem frozenOnce_udt :
    (udt keyspace name fields).FrozenOnce ↔ ∀ f ∈ fields, f.2.FrozenOnce := by
  rw [FrozenOnce, throughout_udt]
  simp

@[simp] theorem frozenOnce_frozen :
    (frozen t).FrozenOnce ↔ (∀ u, t ≠ .frozen u) ∧ t.FrozenOnce := by
  simp [FrozenOnce]

end ByConstructor

section Populated

theorem Populated.base (h : t.Populated) : t.base.Populated :=
  (throughout_base_iff fun _ => ⟨nofun, nofun⟩).mpr h

theorem Populated.populatedBelow (h : t.Populated) : t.PopulatedBelow :=
  (throughout_iff.mp h.base).2

theorem PopulatedBelow.of_shape (h : t.PopulatedBelow) (hs : t.shape = s)
    (hu : u ∈ s.toType.children) : u.Populated := by
  rw [← hs, toType_shape] at hu
  exact h u hu

theorem Populated.shape_ne_tuple (h : t.Populated) : t.shape ≠ .tuple [] := by
  intro hs
  refine (throughout_iff.mp h.base).1.1 ?_
  rw [← toType_shape, hs]
  rfl

theorem Populated.shape_ne_udt (h : t.Populated) (keyspace name : String) :
    t.shape ≠ .udt ⟨keyspace, name, []⟩ := by
  intro hs
  refine (throughout_iff.mp h.base).1.2 keyspace name ?_
  rw [← toType_shape, hs]
  rfl

end Populated

end CqlWire.DataType
