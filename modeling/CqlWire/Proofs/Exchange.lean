import CqlWire.Proofs.Interchange
import CqlWire.Proofs.PlainKeys
import CqlWire.Proofs.Totality

namespace CqlWire.Registry

open Value (encode same)

variable {r : Registry} {t o : DataType} {a b : Value}

/-- Two values compare equal and have no two encodings. -/
def Exchangeable (r : Registry) (t : DataType) (a b : Value) : Prop :=
  r.order t a b = .ok .eq ∧ ∀ (nested : Bool) (x y : Bytes),
    encode r t a nested = .ok x → encode r t b nested = .ok y → x = y

theorem exchangeable_of_same (h : r.resolve t = .ok o) (ha : o.Fits .steady a) (hb : o.Fits .exact b)
    (hs : same a b = true) : r.Exchangeable t a b := by
  constructor
  · rw [order, h]
    exact congrArg Except.ok (o.order_eq_of_same ha hb hs)
  · intro nested x y hx hy
    obtain ⟨-, hx⟩ := Value.encode_eq_ok.mp hx
    obtain ⟨-, hy⟩ := Value.encode_eq_ok.mp hy
    exact (interchanges h nested a b x y ha hb hx hy).mp hs

/-- Equal values of a type are exchangeable exactly when the keys of its maps hold no list and no
set. In a type with other keys they are when no map has two keys that compare equal and yet have
values that do not. -/
theorem exchangeable_iff_hasPlainKeys (hr : r.WellFormed) (h : r.resolve t = .ok o) :
    (o.HasPlainKeys ↔ ∀ a b : Value, a ≠ .null → b ≠ .null → o.Fits .exact a → o.Fits .exact b →
        same a b = true → r.Exchangeable t a b) ∧
      (∀ a b : Value, o.Fits .steady a → o.Fits .exact b → same a b = true → r.Exchangeable t a b) ∧
      ∀ (a : Value) (nested : Bool), a ≠ .null → o.Fits .encodable a →
        FailsOnSize (encode r t a nested) := by
  refine ⟨⟨fun hp a b _ _ ha hb hs => ?_, fun hall => ?_⟩, fun a b => exchangeable_of_same h,
    fun a nested hn ha => failsOnSize_encode h hn ha nested⟩
  · exact exchangeable_of_same h (ha.steady (ha.settled hp)) hb hs
  · refine Classical.byContradiction fun hp => ?_
    obtain ⟨a, b, ⟨na, ha⟩, ⟨nb, hb⟩, hs, hne⟩ := DataType.exists_parted (wellNamed hr h) hp
    have horder := (hall a b na nb ha hb hs).1
    rw [order, h] at horder
    exact hne (Except.ok.inj horder)

theorem exchangeable_plain_keys :
    let r : Registry := .empty
    let t : DataType := .set (.map (.leaf .int) (.list (.leaf .text)))
    (r.WellFormed ∧ r.resolve t = .ok t) ∧
      ∀ a b : Value, a ≠ .null → b ≠ .null → t.Fits .exact a → t.Fits .exact b → same a b = true →
        r.Exchangeable t a b := by
  intro r t
  have hr : r.WellFormed := wellFormed_empty
  have ht : r.resolve t = .ok t := rfl
  have hp : t.HasPlainKeys := by
    simp [t, DataType.HasPlainKeys, DataType.Plain]
  exact ⟨⟨hr, ht⟩, (exchangeable_iff_hasPlainKeys hr ht).1.mp hp⟩

/-- Two orders of two entries whose keys compare equal. -/
example :
    let t : DataType := .map (.list (.leaf .int)) (.leaf .int)
    let a : Value := .map [(.list [.int 1], .int 10), (.list [.int 1, .null], .int 20)]
    let b : Value := .map [(.list [.int 1, .null], .int 20), (.list [.int 1], .int 10)]
    same a b = true ∧ Registry.empty.order t a b = .ok .lt :=
  ⟨by cbv, rfl⟩

end CqlWire.Registry
