import CqlWire.Proofs.Naming
import CqlWire.Proofs.Throughout

namespace CqlWire

namespace DataType

variable {P : Udt → Prop} {Q : DataType → Prop} {r : Registry} {t o : DataType} {found : List Udt}

/-- What holds of a user-defined type, as a property of types. -/
def WhereUdt (P : Udt → Prop) (t : DataType) : Prop :=
  ∀ udt : Udt, t = udt.type → P udt

theorem whereUdt_udt {keyspace name : String} {fields : FieldTypes} :
    WhereUdt P (.udt keyspace name fields) ↔ P ⟨keyspace, name, fields⟩ := by
  constructor
  · exact fun h => h ⟨keyspace, name, fields⟩ rfl
  · rintro h ⟨k, n, fs⟩ heq
    cases heq
    exact h

theorem throughout_freeze (hf : ∀ u, Q (.frozen u)) (h : t.Throughout Q) : t.freeze.Throughout Q := by
  cases t with
  | frozen t => exact h
  | _ => exact throughout_frozen.mpr ⟨hf _, h⟩

theorem forall_mem_collectUdtsEach {ts : List DataType}
    (h : ∀ t ∈ ts, ∀ found, (∀ u ∈ collectUdts found t, P u) ↔
      (∀ u ∈ found, P u) ∧ t.Throughout (WhereUdt P)) :
    (∀ u ∈ collectUdtsEach found ts, P u) ↔
      (∀ u ∈ found, P u) ∧ ∀ t ∈ ts, t.Throughout (WhereUdt P) := by
  induction ts generalizing found with
  | nil => simp [collectUdtsEach]
  | cons t ts ih =>
    obtain ⟨first, others⟩ := List.forall_mem_cons.mp h
    rw [collectUdtsEach, ih others, first, List.forall_mem_cons, and_assoc]

theorem forall_mem_collectUdtsFields {fields : FieldTypes}
    (h : ∀ f ∈ fields, ∀ found, (∀ u ∈ collectUdts found f.2, P u) ↔
      (∀ u ∈ found, P u) ∧ f.2.Throughout (WhereUdt P)) :
    (∀ u ∈ collectUdtsFields found fields, P u) ↔
      (∀ u ∈ found, P u) ∧ ∀ f ∈ fields, f.2.Throughout (WhereUdt P) := by
  induction fields generalizing found with
  | nil => simp [collectUdtsFields]
  | cons f fields ih =>
    obtain ⟨first, others⟩ := List.forall_mem_cons.mp h
    rw [collectUdtsFields, ih others, first, List.forall_mem_cons, and_assoc]

theorem forall_mem_collectUdts (t : DataType) (found : List Udt) :
    (∀ u ∈ collectUdts found t, P u) ↔ (∀ u ∈ found, P u) ∧ t.Throughout (WhereUdt P) := by
  induction t generalizing found with
  | leaf kind => simp [collectUdts, WhereUdt, Udt.type]
  | list t ih | set t ih | frozen t ih => simp [collectUdts, ih, WhereUdt, Udt.type]
  | map k v ihk ihv => simp [collectUdts, ihk, ihv, WhereUdt, Udt.type, and_assoc]
  | tuple ts ih => simp [collectUdts, forall_mem_collectUdtsEach ih, WhereUdt, Udt.type]
  | udt keyspace name fields ih =>
    rw [collectUdts, throughout_udt, whereUdt_udt, and_left_comm, ← forall_mem_collectUdtsFields ih]
    -- A type that is collected already is not put in again, but it is there all the same.
    split
    next hmem =>
      have mem := List.contains_iff_mem.mp hmem
      exact ⟨fun h => ⟨h _ mem, h⟩, And.right⟩
    next => rw [List.forall_mem_append, List.forall_mem_singleton, and_comm]

theorem forall_mem_udts : (∀ u ∈ t.udts, P u) ↔ t.Throughout (WhereUdt P) := by
  rw [udts, forall_mem_collectUdts]
  exact and_iff_right nofun

theorem forall_mem_udts_type {udt : Udt} :
    (∀ u ∈ udt.type.udts, P u) ↔ P udt ∧ ∀ f ∈ udt.fields, ∀ u ∈ f.2.udts, P u := by
  simp only [forall_mem_udts]
  exact throughout_udt.trans (and_congr whereUdt_udt .rfl)

/-- The types in a type that stands in another one stand in that one as well. -/
theorem mem_udts_trans {u v : Udt} (hu : u ∈ t.udts) (hv : v ∈ u.type.udts) : v ∈ t.udts := by
  have inside : ∀ u ∈ t.udts, ∀ v ∈ u.type.udts, v ∈ t.udts := by
    have mem : t.Throughout (WhereUdt (· ∈ t.udts)) := forall_mem_udts.mp fun _ h => h
    rw [forall_mem_udts]
    refine mem.nested.mono fun w hw u heq => ?_
    exact forall_mem_udts.mpr (heq ▸ hw)
  exact inside u hu v hv

/-- What holds of all types in those on record holds of the types in whatever they are put into. -/
theorem forall_mem_udts_of_expandWith
    (hr : ∀ keyspace name udt, r.lookup keyspace name = .ok udt → ∀ u ∈ udt.type.udts, P u)
    (h : expandWith r.types t = .ok o) : ∀ u ∈ o.udts, P u := by
  rw [forall_mem_udts]
  induction t generalizing o with
  | leaf kind =>
    cases pure_eq_ok.mp h
    exact throughout_leaf.mpr nofun
  | list t ih =>
    obtain ⟨p, hp, h⟩ := bind_eq_ok.mp h
    cases pure_eq_ok.mp h
    exact throughout_list.mpr ⟨nofun, ih hp⟩
  | set t ih =>
    obtain ⟨p, hp, h⟩ := bind_eq_ok.mp h
    cases pure_eq_ok.mp h
    exact throughout_set.mpr ⟨nofun, ih hp⟩
  | map k v ihk ihv =>
    obtain ⟨p, hp, h⟩ := bind_eq_ok.mp h
    obtain ⟨q, hq, h⟩ := bind_eq_ok.mp h
    cases pure_eq_ok.mp h
    exact throughout_map.mpr ⟨nofun, ihk hp, ihv hq⟩
  | tuple ts ih =>
    obtain ⟨os, hos, h⟩ := bind_eq_ok.mp h
    cases pure_eq_ok.mp h
    refine throughout_tuple.mpr ⟨nofun, fun p hp => ?_⟩
    obtain ⟨t, ht, htp⟩ := (expandEach_eq_ok.mp hos).exists_mem_left hp
    exact ih t ht htp
  | udt keyspace name fields =>
    obtain ⟨udt, hu, rfl⟩ := map_eq_ok.mp h
    exact forall_mem_udts.mp (hr keyspace name udt hu)
  | frozen t ih =>
    obtain ⟨p, hp, h⟩ := bind_eq_ok.mp h
    cases pure_eq_ok.mp h
    exact throughout_freeze nofun (ih hp)

end DataType

theorem Definition.forall_mem_udts_of_resolve {P : Udt → Prop} {r : Registry} {d : Definition} {udt : Udt}
    (hr : ∀ keyspace name udt, r.lookup keyspace name = .ok udt → ∀ u ∈ udt.type.udts, P u)
    (h : d.resolve r = .ok udt) (hself : P udt) : ∀ u ∈ udt.type.udts, P u := by
  refine DataType.forall_mem_udts_type.mpr ⟨hself, ?_⟩
  intro f hf
  obtain ⟨g, -, hg⟩ := Definition.exists_parse_of_resolve h hf
  exact DataType.forall_mem_udts_of_expandWith hr (DataType.expandWith_types_of_parse hg)

end CqlWire
