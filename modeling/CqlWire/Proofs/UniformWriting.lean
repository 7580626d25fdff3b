import CqlWire.Proofs.Encoding
import CqlWire.Proofs.Expansion

namespace CqlWire

namespace Value

variable {r : Registry} {t u k l e w : DataType} {items : List Value} {f g : Bool}

theorem wireOrder_congr {o p : DataType} (h : o.order = p.order) : wireOrder o = wireOrder p := by
  funext a b
  rw [wireOrder, wireOrder, h]

theorem elementPayloads_congr (h : ∀ v ∈ items, encodeElement r t v = encodeElement r u v) :
    elementPayloads r items t = elementPayloads r items u := by
  rw [elementPayloads_eq_mapM, elementPayloads_eq_mapM]
  apply mapM_congr
  intro v hv
  rw [h v hv]

theorem entryPayloads_congr {entries : List (Value × Value)}
    (h : ∀ x ∈ entries, encodeElement r k x.1 = encodeElement r l x.1 ∧
      encodeElement r e x.2 = encodeElement r w x.2) :
    entryPayloads r entries k e = entryPayloads r entries l w := by
  rw [entryPayloads_eq_mapM, entryPayloads_eq_mapM]
  apply mapM_congr
  intro x hx
  rw [(h x hx).1, (h x hx).2]

theorem encodePositions_congr {ts us : List DataType}
    (h : List.Forall₂ (fun t u => ∀ v ∈ items, encodeElement r t v = encodeElement r u v) ts us) :
    encodePositions r items ts = encodePositions r items us := by
  induction items generalizing ts us with
  | nil =>
    have nulls : ts.map (fun _ => (none : Payload)) = us.map fun _ => none :=
      (h.imp fun _ _ _ => rfl).map_eq_map
    unfold encodePositions
    rw [nulls]
  | cons v items ih =>
    cases h with
    | nil => rfl
    | cons htu h =>
      have hv := htu v (by simp)
      unfold encodeElement at hv
      rw [encodePositions, encodePositions, hv, ih (h.imp fun _ _ h x hx => h x (by simp [hx]))]

/-- The value has one encoding under all types of one skeleton, where a record at the top starts with
its count under each of them or under none. -/
def Uniform (r : Registry) (v : Value) : Prop :=
  ∀ ⦃t u : DataType⦄ ⦃f g : Bool⦄, t.skeleton = u.skeleton →
    (t.udt?.isSome = true → (f || t.isFrozen) = (g || u.isFrozen)) →
    encodeAs r v t f = encodeAs r v u g

namespace Uniform

theorem element {v : Value} (hv : Uniform r v) (h : t.skeleton = u.skeleton) :
    encodeElement r t v = encodeElement r u v := by
  have inside : encodeAs r v t true = encodeAs r v u true := hv h fun _ => rfl
  rw [encodeElement, encodeElement, inside]

theorem leaf {v : Value} (hv : v.IsLeaf) : Uniform r v := by
  intro t u f g h _
  obtain ⟨s, s', ht, hu, hs⟩ := DataType.exists_alike h
  rw [encodeAs_of_isLeaf hv, encodeAs_of_isLeaf hv, ht, hu]
  cases hs <;> rfl

theorem list (h : ∀ v ∈ items, Uniform r v) : Uniform r (.list items) := by
  intro t u f g htu _
  obtain ⟨s, s', ht, hu, hs⟩ := DataType.exists_alike htu
  simp only [encodeAs, ht, hu]
  cases hs with
  | list he =>
    have each : items.map (encodeElement r _) = items.map (encodeElement r _) :=
      List.map_congr_left fun v hv => (h v hv).element he
    simp only [encodeItems_eq_framesOf, each]
  | _ => rfl

theorem set (h : ∀ v ∈ items, Uniform r v) : Uniform r (.set items) := by
  intro t u f g htu _
  obtain ⟨s, s', ht, hu, hs⟩ := DataType.exists_alike htu
  simp only [encodeAs, ht, hu]
  cases hs with
  | set he =>
    dsimp only
    rw [elementPayloads_congr fun v hv => (h v hv).element he]
    refine bind_congr fun elements => Registry.resolve_bind_congr he fun o p hop => ?_
    simp only [writtenElements, wireOrder_congr hop]
  | _ => rfl

theorem map {entries : List (Value × Value)} (h : ∀ x ∈ entries, Uniform r x.1 ∧ Uniform r x.2) :
    Uniform r (.map entries) := by
  intro t u f g htu _
  obtain ⟨s, s', ht, hu, hs⟩ := DataType.exists_alike htu
  simp only [encodeAs, ht, hu]
  cases hs with
  | map hk he =>
    dsimp only
    rw [entryPayloads_congr fun x hx => ⟨(h x hx).1.element hk, (h x hx).2.element he⟩]
    refine bind_congr fun encoded => Registry.resolve_bind_congr hk fun o p hop => ?_
    simp only [writtenEntries, wireOrder_congr hop]
  | _ => rfl

theorem tuple (h : ∀ v ∈ items, Uniform r v) : Uniform r (.tuple items) := by
  intro t u f g htu _
  obtain ⟨s, s', ht, hu, hs⟩ := DataType.exists_alike htu
  simp only [encodeAs, ht, hu]
  cases hs with
  | tuple hts =>
    dsimp only
    rw [hts.length_eq, encodePositions_congr (hts.imp fun _ _ he v hv => (h v hv).element he)]
  | _ => rfl

theorem record (fields : Fields) : Uniform r (.record fields) := by
  intro t u f g htu hc
  obtain ⟨s, s', ht, hu, hs⟩ := DataType.exists_alike htu
  simp only [encodeAs, ht, hu]
  cases hs with
  | udt keyspace name fields others =>
    have top : t.udt?.isSome = true := by rw [DataType.udt?, ht]; rfl
    rw [hc top]
  | _ => rfl

end Uniform

/-- Wrappers inside a type and declared fields have no part in an encoding. -/
theorem uniform (r : Registry) (v : Value) : Uniform r v := by
  induction v with
  | list items ih => exact .list ih
  | set items ih => exact .set ih
  | map entries ih => exact .map ih
  | tuple items ih => exact .tuple ih
  | record fields => exact .record fields
  | _ => exact .leaf trivial

end Value

end CqlWire
