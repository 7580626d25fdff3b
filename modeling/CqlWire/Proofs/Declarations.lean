import CqlWire.Proofs.UniformReading
import CqlWire.Proofs.UniformWriting

namespace CqlWire.Registry

open Value (encode decode depthBound)

variable {r : Registry} {t u o : DataType} {f g : Bool}

/-- The same values have the same encodings as two types, and bytes are decoded alike. -/
structure SameLayout (r : Registry) (t : DataType) (f : Bool) (u : DataType) (g : Bool) : Prop where
  encode : ∀ v bytes, encode r t v f = .ok bytes ↔ encode r u v g = .ok bytes
  decode : ∀ bytes, decode r t bytes f = decode r u bytes g

theorem SameLayout.of_skeleton (h : t.skeleton = u.skeleton)
    (hc : t.udt?.isSome = true → (f || t.isFrozen) = (g || u.isFrozen)) : r.SameLayout t f u g where
  encode v bytes := by
    rw [Value.encode_eq_ok, Value.encode_eq_ok, Value.uniform r v h hc]
  decode bytes := by
    have deep : bytes.length / lengthSize < depthBound bytes := Nat.lt_succ_self _
    exact Value.decodeWithin_congr h hc deep deep

theorem encode_eq_of_undeclared (h : t.undeclared = u.undeclared) (v : Value) (nested : Bool) :
    encode r t v nested = encode r u v nested := by
  have frozen := DataType.isFrozen_eq_of_undeclared h
  have named := DataType.name_eq_of_undeclared h
  have written := Value.uniform r v (DataType.skeleton_eq_of_undeclared h) (f := nested) (g := nested)
    fun _ => by rw [frozen]
  unfold encode
  rw [named, written]

theorem sameLayout_of_resolve (h : r.resolve t = .ok o) (nested : Bool) :
    r.SameLayout o nested t nested := by
  apply SameLayout.of_skeleton (skeleton_of_resolve h)
  intro _
  rw [isFrozen_of_resolve h]

/-- The registry alone says which fields a user-defined type has: the fields that a type declares
have no part in encodings, decoded values and the order. -/
theorem declared_fields_unread (h : t.undeclared = u.undeclared) :
    (∀ v nested, encode r t v nested = encode r u v nested) ∧
      (∀ bytes nested, decode r t bytes nested = decode r u bytes nested) ∧
      (∀ a b, r.order t a b = r.order u a b) ∧
      ∀ o, r.resolve t = .ok o → r.resolve o = .ok o ∧ ∀ nested, r.SameLayout o nested t nested := by
  have skeleton := DataType.skeleton_eq_of_undeclared h
  have frozen := DataType.isFrozen_eq_of_undeclared h
  refine ⟨encode_eq_of_undeclared h, ?_, order_congr skeleton, ?_⟩
  · intro bytes nested
    have layout : r.SameLayout t nested u nested := .of_skeleton skeleton fun _ => by rw [frozen]
    exact layout.decode bytes
  · intro o ho
    exact ⟨resolve_self ho, sameLayout_of_resolve ho⟩

/-- A registered field keeps a description of its type that is out of date. -/
theorem declared_fields_unread_stale :
    let r : Registry := ⟨[⟨"k", "p", [("x", .leaf .int), ("y", .udt "k" "q" [("old", .leaf .blob)])]⟩,
      ⟨"k", "q", [("n", .leaf .tinyint), ("m", .leaf .boolean)]⟩]⟩
    let t : DataType := .set (.udt "k" "p" [])
    let u : DataType := .set (.udt "k" "p" [("y", .leaf .int), ("x", .udt "k" "p" [])])
    let o : DataType := .set (.udt "k" "p" [("x", .leaf .int),
      ("y", .udt "k" "q" [("n", .leaf .tinyint), ("m", .leaf .boolean)])])
    let v : Value := .set [.record [("x", .int 2)], .record [("y", .record [("m", .boolean true)])]]
    let bytes : Bytes := [0, 0, 0, 2, 0, 0, 0, 17, 255, 255, 255, 255, 0, 0, 0, 9, 255, 255, 255, 255,
      0, 0, 0, 1, 1, 0, 0, 0, 12, 0, 0, 0, 4, 0, 0, 0, 2, 255, 255, 255, 255]
    (t.undeclared = u.undeclared ∧ r.resolve t = .ok o) ∧ encode r t v false = .ok bytes ∧
      encode r u v false = .ok bytes ∧ encode r o v false = .ok bytes ∧
      decode r o bytes false = decode r u bytes false ∧ r.resolve o = .ok o := by
  intro r t u o v bytes
  have htu : t.undeclared = u.undeclared := rfl
  have ho : r.resolve t = .ok o := rfl
  have he : encode r t v false = .ok bytes := by
    simp only [r, t, v, bytes]
    rfl
  obtain ⟨written, read, -, resolved⟩ := declared_fields_unread (r := r) htu
  obtain ⟨again, layout⟩ := resolved o ho
  refine ⟨⟨htu, ho⟩, he, ?_, ((layout false).encode v bytes).mpr he, ?_, again⟩
  · rw [← written v false, he]
  · rw [(layout false).decode bytes, read bytes false]

end CqlWire.Registry
