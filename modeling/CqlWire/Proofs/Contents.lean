import CqlWire.Proofs.Equality

namespace CqlWire.Value

/-- Where a value stands directly inside another one. -/
inductive Place where
  | listItem | setItem | mapKey | mapValue | tupleItem | recordField
deriving DecidableEq

/-- The values directly inside a value, each with its place. -/
def contents : Value → List (Place × Value)
  | .list items => items.map (Prod.mk .listItem)
  | .set items => items.map (Prod.mk .setItem)
  | .map entries => entries.flatMap fun e => [(.mapKey, e.1), (.mapValue, e.2)]
  | .tuple items => items.map (Prod.mk .tupleItem)
  | .record fields => fields.map fun f => (.recordField, f.2)
  | _ => []

/-- Whether all values inside a value, at any depth, are allowed where they stand. -/
inductive Everywhere (allowed : Place → Value → Prop) : Value → Prop
  | intro {v : Value} (here : ∀ c ∈ v.contents, allowed c.1 c.2)
    (inside : ∀ c ∈ v.contents, Everywhere allowed c.2) : Everywhere allowed v

/-- A text or blob of no length, which an element cannot tell from null. -/
def isVoid : Value → Bool
  | .ascii s | .text s => s = ""
  | .blob bytes => bytes.isEmpty
  | _ => false

/-- No list or set in the value holds a null. -/
def Solid : Value → Prop :=
  Everywhere fun place v => place = .listItem ∨ place = .setItem → v ≠ .null

/-- The keys of maps are solid. -/
def Settled : Value → Prop :=
  Everywhere fun place v => place = .mapKey → Solid v

/-- No text or blob of no length stands in the value, but for positions of tuples. -/
def Filled : Value → Prop :=
  Everywhere fun place v => place ≠ .tupleItem → v.isVoid = false

attribute [local simp] contents

variable {allowed : Place → Value → Prop} {items : List Value}

theorem everywhere_iff {v : Value} :
    Everywhere allowed v ↔ ∀ c ∈ v.contents, allowed c.1 c.2 ∧ Everywhere allowed c.2 :=
  ⟨fun ⟨here, inside⟩ c hc => ⟨here c hc, inside c hc⟩,
    fun h => ⟨fun c hc => (h c hc).1, fun c hc => (h c hc).2⟩⟩

theorem everywhere_of_isLeaf {v : Value} (h : v.IsLeaf) : Everywhere allowed v := by
  refine everywhere_iff.mpr fun c hc => ?_
  cases v <;> cases h <;> cases hc

@[simp] theorem everywhere_null : Everywhere allowed .null :=
  everywhere_of_isLeaf trivial

@[simp] theorem everywhere_list :
    Everywhere allowed (.list items) ↔ ∀ x ∈ items, allowed .listItem x ∧ Everywhere allowed x := by
  simp [everywhere_iff (v := .list items)]

@[simp] theorem everywhere_set :
    Everywhere allowed (.set items) ↔ ∀ x ∈ items, allowed .setItem x ∧ Everywhere allowed x := by
  simp [everywhere_iff (v := .set items)]

@[simp] theorem everywhere_map {entries : List (Value × Value)} :
    Everywhere allowed (.map entries) ↔
      ∀ e ∈ entries, (allowed .mapKey e.1 ∧ Everywhere allowed e.1) ∧
        (allowed .mapValue e.2 ∧ Everywhere allowed e.2) := by
  rw [everywhere_iff]
  simp only [contents, List.mem_flatMap, List.mem_cons, List.not_mem_nil, or_false]
  constructor
  · exact fun h e he => ⟨h _ ⟨e, he, .inl rfl⟩, h _ ⟨e, he, .inr rfl⟩⟩
  · rintro h c ⟨e, he, rfl | rfl⟩
    · exact (h e he).1
    · exact (h e he).2

@[simp] theorem everywhere_tuple :
    Everywhere allowed (.tuple items) ↔ ∀ x ∈ items, allowed .tupleItem x ∧ Everywhere allowed x := by
  simp [everywhere_iff (v := .tuple items)]

@[simp] theorem everywhere_record {fields : List (String × Value)} :
    Everywhere allowed (.record fields) ↔
      ∀ f ∈ fields, allowed .recordField f.2 ∧ Everywhere allowed f.2 := by
  rw [everywhere_iff]
  simp only [contents, List.mem_map]
  constructor
  · exact fun h f hf => h _ ⟨f, hf, rfl⟩
  · rintro h c ⟨f, hf, rfl⟩
    exact h f hf

theorem Everywhere.mono {other : Place → Value → Prop} {v : Value}
    (h : ∀ place v, Everywhere allowed v → allowed place v → other place v)
    (hv : Everywhere allowed v) : Everywhere other v := by
  induction hv with
  | intro here inside ih => exact .intro (fun c hc => h _ _ (inside c hc) (here c hc)) ih

theorem Solid.settled {v : Value} (h : Solid v) : Settled v :=
  Everywhere.mono (fun _ _ hv _ _ => hv) h

end CqlWire.Value
