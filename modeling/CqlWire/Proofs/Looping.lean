import CqlWire.Proofs.Origins

namespace CqlWire

variable {r : Registry} {t u k : DataType} {v : Value} {items : List Value}

namespace Value

/-- The encoding of the value runs out only under types that a type within itself stands in. -/
def LoopsOnly (r : Registry) (v : Value) : Prop :=
  ∀ ⦃t : DataType⦄ ⦃frozen : Bool⦄, RunsOut (encodeAs r v t frozen) → r.Loops t

theorem loopsOnly (r : Registry) (v : Value) : LoopsOnly r v := by
  rintro t frozen ⟨_, he, keyspace, name, rfl⟩
  rcases Registry.explainedFor r v t frozen _ he trivial with h | ⟨m, -, -, h⟩
  · exact h.2
  · cases h

/-- A set is not written before the type of its elements is resolved. -/
theorem runsOut_encode_set {elements : List (Value × Payload)} (ht : t.shape = .set u)
    (he : elementPayloads r items u = .ok elements) (hr : RunsOut (r.resolve u)) (nested : Bool) :
    RunsOut (encode r t (.set items) nested) := by
  show RunsOut (encodeAs r (.set items) t nested)
  simp only [encodeAs, ht]
  exact runsOut_bind.mpr (.inr ⟨elements, he, runsOut_bind.mpr (.inl hr)⟩)

theorem runsOut_encode_map {entries : List (Value × Value)}
    {encoded : List ((Value × Payload) × Payload)} (ht : t.shape = .map k u)
    (he : entryPayloads r entries k u = .ok encoded) (hr : RunsOut (r.resolve k)) (nested : Bool) :
    RunsOut (encode r t (.map entries) nested) := by
  show RunsOut (encodeAs r (.map entries) t nested)
  simp only [encodeAs, ht]
  exact runsOut_bind.mpr (.inr ⟨encoded, he, runsOut_bind.mpr (.inl hr)⟩)

theorem loops_of_encode {nested : Bool} (h : RunsOut (encode r t v nested)) : r.Loops t := by
  obtain ⟨e, he, hend⟩ := h
  unfold encode at he
  split at he
  · cases he
    obtain ⟨_, _, ⟨⟩⟩ := hend
  · exact loopsOnly r v ⟨e, he, hend⟩

end Value

namespace Registry

variable {a b : Value}

theorem runsOut_order : RunsOut (r.order t a b) ↔ RunsOut (r.resolve t) := by
  unfold order
  rw [runsOut_bind, or_iff_left]
  rintro ⟨o, -, h⟩
  exact not_runsOut_pure _ h

/-- What is done with a type comes to an end: its resolution, with a type or with a name in it, at any
depth, that is not on record, the order of its values and their encoding. -/
structure Returns (r : Registry) (t : DataType) : Prop where
  resolve : (∃ o, r.resolve t = .ok o) ∨ ∃ m, r.Meets t m ∧ r.contains m.1 m.2 = false ∧
    r.resolve t = .error (.notRegistered m.1 m.2)
  order : ∀ a b, ¬RunsOut (r.order t a b)
  encode : ∀ v nested, ¬RunsOut (Value.encode r t v nested)

theorem returns (h : ¬r.Loops t) : r.Returns t where
  resolve := by
    cases hr : r.resolve t with
    | ok o => exact .inl ⟨o, rfl⟩
    | error e =>
      rcases resolve_eq_error hr with hend | ⟨m, hm, hmissing, rfl⟩
      · exact absurd (endless_of_resolve ⟨e, hr, hend⟩).2 h
      · exact .inr ⟨m, hm, hmissing, rfl⟩
  order a b := fun hout => h (endless_of_resolve (runsOut_order.mp hout)).2
  encode v nested := fun hout => h (Value.loops_of_encode hout)

end Registry

end CqlWire
