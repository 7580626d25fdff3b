import CqlWire.Proofs.Interchange
import CqlWire.Proofs.Separation

namespace CqlWire.Registry

open Value (encode same)

variable {r : Registry} {t o : DataType} {a b : Value} {nested : Bool} {x y : Bytes}

theorem order_eq_iff_same (h : r.resolve t = .ok o) (ha : o.Fits .exact a) (hb : o.Fits .exact b)
    (sa : a.Solid) (sb : b.Solid) : r.order t a b = .ok .eq ↔ same a b = true := by
  have horder : r.order t a b = .ok (o.order a b) := by
    rw [order, h]
    rfl
  rw [horder, Except.ok.injEq]
  constructor
  · intro he
    exact o.discerns_and_steadies.1 a b ha hb sa sb he
  · intro hs
    have steady := ha.steady sa.settled
    exact o.order_eq_of_same steady hb hs

theorem same_iff_encode_eq (h : r.resolve t = .ok o) (ha : o.Fits .exact a) (hb : o.Fits .exact b)
    (sa : a.Solid) (hx : encode r t a nested = .ok x) (hy : encode r t b nested = .ok y) :
    same a b = true ↔ x = y := by
  obtain ⟨-, hx⟩ := Value.encode_eq_ok.mp hx
  obtain ⟨-, hy⟩ := Value.encode_eq_ok.mp hy
  have steady := ha.steady sa.settled
  exact interchanges h nested a b x y steady hb hx hy

/-- Where no list and no set holds a null, values that compare equal, equal values and values with
one encoding are the same. -/
theorem order_same_encode_agree (h : r.resolve t = .ok o) (ha : o.Fits .exact a)
    (hb : o.Fits .exact b) (sa : a.Solid) (sb : b.Solid) :
    (r.order t a b = .ok .eq ↔ same a b = true) ∧
      ∀ (nested : Bool) (x y : Bytes), encode r t a nested = .ok x → encode r t b nested = .ok y →
        (same a b = true ↔ x = y) ∧ (r.order t a b = .ok .eq ↔ x = y) := by
  have compared := order_eq_iff_same h ha hb sa sb
  refine ⟨compared, fun nested x y hx hy => ?_⟩
  have written := same_iff_encode_eq h ha hb sa hx hy
  exact ⟨written, compared.trans written⟩

theorem order_same_encode_agree_repeated :
    let fields : FieldTypes := [("a", .set (.leaf .int)), ("b", .leaf .text)]
    let r : Registry := ⟨[⟨"k", "p", fields⟩]⟩
    let t : DataType := .set (.udt "k" "p" [])
    let o : DataType := .set (.udt "k" "p" fields)
    let a : Value := .set [.record [("b", .text "x")], .record [("a", .set [.int 3, .int 1, .int 3])]]
    let b : Value := .set [.record [("a", .set [.int 1, .int 3])], .record [("b", .text "x")],
      .record [("a", .set [.int 3, .int 1])]]
    let bytes : Bytes := [0, 0, 0, 2, 0, 0, 0, 9, 255, 255, 255, 255, 0, 0, 0, 1, 120,
      0, 0, 0, 28, 0, 0, 0, 20, 0, 0, 0, 2, 0, 0, 0, 4, 0, 0, 0, 1, 0, 0, 0, 4, 0, 0, 0, 3,
      255, 255, 255, 255]
    (r.resolve t = .ok o ∧ o.Fits .exact a ∧ o.Fits .exact b ∧ a.Solid ∧ b.Solid ∧
      encode r t a false = .ok bytes ∧ encode r t b false = .ok bytes) ∧
      same a b = true ∧ r.order t a b = .ok .eq := by
  intro fields r t o a b bytes
  have ho : r.resolve t = .ok o := rfl
  have int (n : Int32) : (DataType.leaf .int).Fits .exact (.int n) := .inr ⟨n, rfl⟩
  have numbers {items : List Value} (h : ∀ v ∈ items, (DataType.leaf .int).Fits .exact v) :
      (DataType.udt "k" "p" fields).Fits .exact (.record [("a", .set items)]) := by
    have hset : (DataType.set (.leaf .int)).Fits .exact (.set items) := .inr ⟨items, rfl, h⟩
    refine .inr ⟨_, rfl, ⟨⟨by simp, by simp⟩, by simp [fields]⟩, DataType.fitsFields_iff.mpr ?_⟩
    simp [fields, Fields.getD_cons, Fields.getD_of_not_mem, hset]
  have named : (DataType.udt "k" "p" fields).Fits .exact (.record [("b", .text "x")]) := by
    have htext : (DataType.leaf .text).Fits .exact (.text "x") := .inr ⟨"x", rfl⟩
    refine .inr ⟨_, rfl, ⟨⟨by simp, by simp⟩, by simp [fields]⟩, DataType.fitsFields_iff.mpr ?_⟩
    simp [fields, Fields.getD_cons, Fields.getD_of_not_mem, htext]
  have ha : o.Fits .exact a := .inr ⟨_, rfl, by simp [named, numbers, int]⟩
  have hb : o.Fits .exact b := .inr ⟨_, rfl, by simp [named, numbers, int]⟩
  have sa : a.Solid := by
    simp [a, Value.Solid, Value.everywhere_of_isLeaf (v := .int _) trivial,
      Value.everywhere_of_isLeaf (v := .text _) trivial]
  have sb : b.Solid := by
    simp [b, Value.Solid, Value.everywhere_of_isLeaf (v := .int _) trivial,
      Value.everywhere_of_isLeaf (v := .text _) trivial]
  have hx : encode r t a false = .ok bytes := by
    simp only [r, t, a, bytes, fields]
    rfl
  have hy : encode r t b false = .ok bytes := by
    simp only [r, t, b, bytes, fields]
    rfl
  have agree := order_same_encode_agree ho ha hb sa sb
  have hsame := (agree.2 false bytes bytes hx hy).1.mpr rfl
  exact ⟨⟨ho, ha, hb, sa, sb, hx, hy⟩, hsame, agree.1.mpr hsame⟩

end CqlWire.Registry
