import CqlWire.Proofs.Resolution
import CqlWire.Registry.Definition

namespace CqlWire

/-- No two fields have one name. -/
def Udt.HasDistinctNames (udt : Udt) : Prop :=
  (udt.fields.map Prod.fst).Nodup

/-- The fields of every type on record have names of their own. -/
def Registry.WellFormed (r : Registry) : Prop :=
  ∀ udt ∈ r.entries, udt.HasDistinctNames

namespace FieldTypes

theorem map_fst_declare (fields : FieldTypes) (name : String) (type : DataType) :
    (declare fields name type).map Prod.fst =
      if name ∈ fields.map Prod.fst then fields.map Prod.fst else fields.map Prod.fst ++ [name] := by
  induction fields with
  | nil => rfl
  | cons f fields ih =>
    obtain ⟨other, t⟩ := f
    unfold declare
    by_cases h : other = name
    · simp [h]
    · have hne : name ≠ other := fun e => h e.symm
      rw [if_neg h, List.map_cons, ih]
      by_cases hm : name ∈ fields.map Prod.fst <;> simp [hm, hne]

theorem nodup_declare {fields : FieldTypes} (h : (fields.map Prod.fst).Nodup) (name : String)
    (type : DataType) : ((declare fields name type).map Prod.fst).Nodup := by
  rw [map_fst_declare]
  split
  next => exact h
  next hm =>
    refine List.nodup_append.mpr ⟨h, by simp, fun a ha b hb e => hm ?_⟩
    rw [← List.mem_singleton.mp hb, ← e]
    exact ha

/-- Fields declared one after the other have names of their own. -/
theorem ofList_nodup (declarations : List (String × DataType)) :
    ((ofList declarations).map Prod.fst).Nodup := by
  have declared : ∀ (declarations : List (String × DataType)) (acc : FieldTypes),
      (acc.map Prod.fst).Nodup →
      ((declarations.foldl (fun fields d => declare fields d.1 d.2) acc).map Prod.fst).Nodup := by
    intro declarations
    induction declarations with
    | nil => exact fun _ h => h
    | cons d declarations ih => exact fun acc h => ih _ (nodup_declare h d.1 d.2)
  exact declared declarations [] (by simp)

end FieldTypes

namespace Registry

theorem wellFormed_empty : empty.WellFormed := by
  intro udt h
  cases h

theorem WellFormed.insert {r : Registry} (h : r.WellFormed) {udt : Udt} (hu : udt.HasDistinctNames) :
    (r.insert udt).WellFormed := by
  intro u hm
  rcases List.mem_cons.mp hm with rfl | hm
  · exact hu
  · exact h u (List.mem_of_mem_filter hm)

theorem WellFormed.lookup {r : Registry} (h : r.WellFormed) {keyspace name : String} {udt : Udt}
    (hu : r.lookup keyspace name = .ok udt) : udt.HasDistinctNames := by
  unfold Registry.lookup at hu
  split at hu
  next hg =>
    cases hu
    exact h udt (List.mem_of_find?_eq_some hg)
  next => cases hu

theorem resolve_hasDistinctNames {r : Registry} {d : Definition} {udt : Udt}
    (h : d.resolve r = .ok udt) : udt.HasDistinctNames := by
  obtain ⟨fields, -, h⟩ := bind_eq_ok.mp h
  cases pure_eq_ok.mp h
  exact FieldTypes.ofList_nodup fields

end Registry

end CqlWire
