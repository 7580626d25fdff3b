import CqlWire.Proofs.WellFormed
import CqlWire.Type.Index
import Mathlib.Data.List.Induction
import Mathlib.Data.List.Nodup

/-- Where no key stands twice, a key is found at the only place where it stands. -/
theorem List.findIdx?_eq_some_iff_of_nodup {α β : Type _} [DecidableEq β] {f : α → β} {l : List α}
    (h : (l.map f).Nodup) {b : β} {i : Nat} :
    l.findIdx? (fun a => f a = b) = some i ↔ ∃ a, l[i]? = some a ∧ f a = b := by
  simp only [findIdx?_eq_some_iff_getElem, getElem?_eq_some_iff, decide_eq_true_eq]
  constructor
  · rintro ⟨hi, hb, -⟩
    exact ⟨l[i], ⟨hi, rfl⟩, hb⟩
  · rintro ⟨_, ⟨hi, rfl⟩, rfl⟩
    refine ⟨hi, rfl, fun j hj e => absurd hj ?_⟩
    have hi' : i < (l.map f).length := by simpa using hi
    have hj' : j < (l.map f).length := Nat.lt_trans hj hi'
    have same : (l.map f)[j] = (l.map f)[i] := by simpa using e
    have place : j = i := (List.Nodup.getElem_inj_iff h).mp same
    exact place ▸ Nat.lt_irrefl i

namespace CqlWire

/-- Where no name stands twice, the last place of a name is the first. -/
theorem getElem?_placesOf {names : List String} (h : names.Nodup) (name : String) :
    (placesOf names)[name]? = names.findIdx? fun n => n = name := by
  have distinct : names.zipIdx.Pairwise fun a b => (a.1 == b.1) = false := by
    rw [← List.zipIdx_map_fst 0 names, List.Nodup, List.pairwise_map] at h
    exact h.imp fun hne => beq_eq_false_iff_ne.mpr hne
  cases place : names.findIdx? fun n => n = name with
  | none =>
    refine Std.HashMap.getElem?_ofList_of_contains_eq_false ?_
    rw [List.zipIdx_map_fst, List.contains_eq_mem, decide_eq_false_iff_not]
    intro hn
    exact of_decide_eq_false (List.findIdx?_eq_none_iff.mp place name hn) rfl
  | some i =>
    have distinct' : (names.map id).Nodup := by simpa using h
    obtain ⟨n, hi, rfl⟩ := (List.findIdx?_eq_some_iff_of_nodup distinct').mp place
    have listed := List.mk_mem_zipIdx_iff_getElem?.mpr hi
    exact Std.HashMap.getElem?_ofList_of_mem BEq.rfl distinct listed

namespace FieldTypes

variable {fields x y : FieldTypes} {name : String} {i : Nat}

/-- A declaration gives its name a type and leaves the other names what they have. -/
theorem field?_declare (fields : FieldTypes) (name : String) (type : DataType) (other : String) :
    (declare fields name type).field? other =
      if name = other then some (name, type) else fields.field? other := by
  induction fields with
  | nil => simp [declare, field?]
  | cons f fields ih =>
    obtain ⟨n, t⟩ := f
    unfold field? at ih ⊢
    unfold declare
    by_cases hn : n = name
    · subst hn
      by_cases ho : n = other <;> simp [ho]
    · rw [if_neg hn, List.find?_cons, List.find?_cons, ih]
      by_cases ho : n = other
      · have hne : name ≠ other := fun e => hn (ho.trans e.symm)
        simp [ho, hne]
      · simp [ho]

theorem position?_eq_some_iff (h : (fields.map Prod.fst).Nodup) :
    fields.position? name = some i ↔ ∃ f, fields[i]? = some f ∧ f.1 = name :=
  List.findIdx?_eq_some_iff_of_nodup h

theorem position?_eq_placesOf (h : (fields.map Prod.fst).Nodup) (name : String) :
    fields.position? name = (placesOf (fields.map Prod.fst))[name]? := by
  rw [getElem?_placesOf h, List.findIdx?_map]
  rfl

theorem field?_eq_bind_position? (fields : FieldTypes) (name : String) :
    fields.field? name = (fields.position? name).bind (fields[·]?) :=
  List.find?_eq_bind_findIdx?_getElem?

theorem field?_of_mem (h : (fields.map Prod.fst).Nodup) {f : String × DataType} (hf : f ∈ fields) :
    fields.field? f.1 = some f := by
  obtain ⟨i, hi⟩ := List.mem_iff_getElem?.mp hf
  rw [field?_eq_bind_position?, (position?_eq_some_iff h).mpr ⟨f, hi, rfl⟩]
  exact hi

/-- Fields are the names in their order, each with its type. -/
theorem filterMap_field? (h : (fields.map Prod.fst).Nodup) :
    (fields.map Prod.fst).filterMap fields.field? = fields := by
  rw [List.filterMap_map]
  exact (List.filterMap_congr fun f hf => field?_of_mem h hf).trans List.filterMap_some

theorem eq_iff_field? (hx : (x.map Prod.fst).Nodup) (hy : (y.map Prod.fst).Nodup) :
    x = y ↔ x.map Prod.fst = y.map Prod.fst ∧ ∀ name, x.field? name = y.field? name := by
  refine ⟨fun e => e ▸ ⟨rfl, fun _ => rfl⟩, fun ⟨names, types⟩ => ?_⟩
  rw [← filterMap_field? hx, ← filterMap_field? hy, names, funext types]

theorem ofList_append_singleton (declarations : List (String × DataType)) (d : String × DataType) :
    ofList (declarations ++ [d]) = declare (ofList declarations) d.1 d.2 := by
  rw [ofList, List.foldl_append]
  rfl

/-- The names stand in the order in which they are first declared. -/
theorem map_fst_ofList (declarations : List (String × DataType)) :
    (ofList declarations).map Prod.fst = (declarations.map Prod.fst).eraseDups := by
  induction declarations using List.reverseRecOn with
  | nil => rfl
  | append_singleton declarations d ih =>
    rw [ofList_append_singleton, map_fst_declare, ih, List.map_append, List.eraseDups_append]
    by_cases h : d.1 ∈ declarations.map Prod.fst
    · rw [if_pos (List.mem_eraseDups.mpr h)]
      simp [List.removeAll, h]
    · rw [if_neg (mt List.mem_eraseDups.mp h)]
      simp [List.removeAll, h, List.eraseDups_cons]

/-- A field is what the last declaration of its name makes it. -/
theorem field?_ofList (declarations : List (String × DataType)) (name : String) :
    (ofList declarations).field? name = declarations.reverse.find? fun d => d.1 = name := by
  induction declarations using List.reverseRecOn with
  | nil => rfl
  | append_singleton declarations d ih =>
    obtain ⟨n, t⟩ := d
    rw [ofList_append_singleton, field?_declare, ih, List.reverse_append, List.reverse_singleton,
      List.singleton_append, List.find?_cons]
    by_cases h : n = name <;> simp [h]

/-- Fields declared one after the other are one for each name, in the order in which the names are
first declared and each with the type that its last declaration gives it. A name has a position just
where it stands, which an index made once for all names gives as well, and the field of a name is
the one at its position. Two types are equal just when keyspace, name and fields are, and the fields
when the names are first declared in the same order and last declared with the same types. -/
theorem declared_in_order (declarations : List (String × DataType)) :
    let fields := ofList declarations
    fields.map Prod.fst = (declarations.map Prod.fst).eraseDups ∧
    (∀ f ∈ fields, (declarations.reverse.find? fun d => d.1 = f.1) = some f) ∧
    (∀ name i, fields.position? name = some i ↔ ∃ f, fields[i]? = some f ∧ f.1 = name) ∧
    (∀ name, fields.position? name = (placesOf (fields.map Prod.fst))[name]?) ∧
    (∀ name, fields.field? name = (fields.position? name).bind (fields[·]?)) ∧
    ∀ (others : List (String × DataType)) (keyspace keyspace' name name' : String),
      ((⟨keyspace, name, fields⟩ : Udt) = ⟨keyspace', name', ofList others⟩ ↔
        keyspace = keyspace' ∧ name = name' ∧ fields = ofList others) ∧
      (fields = ofList others ↔
        (declarations.map Prod.fst).eraseDups = (others.map Prod.fst).eraseDups ∧
        ∀ name, (declarations.reverse.find? fun d => d.1 = name) =
          others.reverse.find? fun d => d.1 = name) := by
  intro fields
  have distinct : (fields.map Prod.fst).Nodup := ofList_nodup declarations
  refine ⟨map_fst_ofList declarations, fun f hf => ?_, fun name i => position?_eq_some_iff distinct,
    position?_eq_placesOf distinct, field?_eq_bind_position? fields,
    fun others keyspace keyspace' name name' => ⟨?_, ?_⟩⟩
  · rw [← field?_ofList]
    exact field?_of_mem distinct hf
  · rw [Udt.mk.injEq]
  · rw [eq_iff_field? distinct (ofList_nodup others), map_fst_ofList, map_fst_ofList]
    simp only [fields, field?_ofList]

/-- A field that is declared again keeps its place. -/
example : ofList [("a", .leaf .int), ("b", .leaf .int), ("a", .leaf .text)] =
    [("a", .leaf .text), ("b", .leaf .int)] := by
  decide

end FieldTypes

end CqlWire
