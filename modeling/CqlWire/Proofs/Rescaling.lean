import CqlWire.Proofs.DecimalOrder

namespace CqlWire.Decimal

variable {a b : Decimal}

/-- What the last step of the order is left with: numbers of one sign, other than zero, and of one
order of magnitude, whose scales differ. -/
structure Rescales (a b : Decimal) : Prop where
  signs : a.unscaled.sign = b.unscaled.sign
  nonzero : a.unscaled ≠ 0
  magnitudes : a.exponent = b.exponent
  scales : a.scale.toInt ≠ b.scale.toInt

/-- The number of zeros by which one of the unscaled parts is extended to bring it to the larger
scale. -/
def shift (a b : Decimal) : Nat :=
  (b.scale.toInt - a.scale.toInt).natAbs

theorem align_of_lt (h : a.scale.toInt < b.scale.toInt) :
    align a b = (a.unscaled * 10 ^ shift a b, b.unscaled) := by
  have zeros : (b.scale.toInt - a.scale.toInt).toNat = shift a b := by
    unfold shift
    omega
  rw [align, if_pos (Int.le_of_lt h), zeros]

theorem align_of_gt (h : b.scale.toInt < a.scale.toInt) :
    align a b = (a.unscaled, b.unscaled * 10 ^ shift a b) := by
  have zeros : (a.scale.toInt - b.scale.toInt).toNat = shift a b := by
    unfold shift
    omega
  rw [align, if_neg (Int.not_le.mpr h), zeros]

namespace Rescales

theorem numericOrder_eq (h : Rescales a b) :
    numericOrder a b = compare (align a b).1 (align a b).2 := by
  have signs : compare a.unscaled.sign b.unscaled.sign = .eq := compare_eq_iff_eq.mpr h.signs
  have magnitudes : compare a.exponent b.exponent = .eq := compare_eq_iff_eq.mpr h.magnitudes
  rw [numericOrder, signs]
  simp only [if_neg h.nonzero, magnitudes]

/-- Within one order of magnitude the scales differ by as much as the numbers of digits do. -/
theorem scale_sub_scale (h : Rescales a b) : b.scale.toInt - a.scale.toInt =
    (digitCount b.unscaled.natAbs : Int) - digitCount a.unscaled.natAbs := by
  have magnitudes := h.magnitudes
  unfold exponent at magnitudes
  omega

end Rescales

/-- Where it does not come to the last step and the scales differ, sign and order of magnitude decide. -/
theorem numericOrder_of_not_rescales (hs : a.scale.toInt ≠ b.scale.toInt) (h : ¬Rescales a b) :
    numericOrder a b = (compare a.unscaled.sign b.unscaled.sign).then
      (if a.unscaled = 0 then .eq
      else if a.unscaled < 0 then (compare a.exponent b.exponent).swap
      else compare a.exponent b.exponent) := by
  unfold numericOrder
  cases signs : compare a.unscaled.sign b.unscaled.sign with
  | lt | gt => rfl
  | eq =>
    rw [Ordering.then]
    by_cases zero : a.unscaled = 0
    · rw [if_pos zero, if_pos zero]
    · rw [if_neg zero, if_neg zero]
      cases magnitudes : compare a.exponent b.exponent with
      | lt | gt => rfl
      | eq =>
        have equal := compare_eq_iff_eq.mp magnitudes
        exact absurd ⟨compare_eq_iff_eq.mp signs, zero, equal, hs⟩ h

/-- Of one scale, the unscaled parts decide as they are. -/
theorem numericOrder_of_scale_eq (h : a.scale.toInt = b.scale.toInt) :
    numericOrder a b = compare a.unscaled b.unscaled := by
  have aligned : align a b = (a.unscaled, b.unscaled) := by
    rw [align, if_pos h.le, h, Int.sub_self, Int.toNat_zero, pow_zero, Int.mul_one]
  rw [numericOrder_eq_compare, ← compare_align, aligned]

theorem shift_lt (a b : Decimal) : shift a b < 2 ^ 32 := by
  have lowA := a.scale.le_toInt
  have highA := a.scale.toInt_lt
  have lowB := b.scale.le_toInt
  have highB := b.scale.toInt_lt
  unfold shift
  omega

/-- The order of decimals is the order of the numbers that they denote, whatever their scales. Where
it comes to the digits, the unscaled part with the smaller scale is extended by as many zeros as the
other one has more digits: that number has 32 bits, and is less than the number of digits of the
longer part. -/
theorem numericOrder_exact (a b : Decimal) :
    numericOrder a b = compare a.toRat b.toRat ∧
      (Rescales a b →
        (a.scale.toInt < b.scale.toInt →
          numericOrder a b = compare (a.unscaled * 10 ^ shift a b) b.unscaled ∧
            digitCount a.unscaled.natAbs + shift a b = digitCount b.unscaled.natAbs) ∧
        (b.scale.toInt < a.scale.toInt →
          numericOrder a b = compare a.unscaled (b.unscaled * 10 ^ shift a b) ∧
            digitCount b.unscaled.natAbs + shift a b = digitCount a.unscaled.natAbs) ∧
        shift a b < 2 ^ 32 ∧
        shift a b < max (digitCount a.unscaled.natAbs) (digitCount b.unscaled.natAbs)) := by
  refine ⟨numericOrder_eq_compare a b, fun h => ?_⟩
  have digits := h.scale_sub_scale
  have first : 0 < digitCount a.unscaled.natAbs := Nat.length_toDigits_pos
  have second : 0 < digitCount b.unscaled.natAbs := Nat.length_toDigits_pos
  refine ⟨fun hlt => ⟨?_, ?_⟩, fun hgt => ⟨?_, ?_⟩, shift_lt a b, ?_⟩
  · rw [h.numericOrder_eq, align_of_lt hlt]
  · unfold shift
    omega
  · rw [h.numericOrder_eq, align_of_gt hgt]
  · unfold shift
    omega
  · unfold shift
    omega

/-- Two negative numbers of one magnitude at the least scales. -/
theorem numericOrder_exact_leastScale :
    let a : Decimal := ⟨-12, Int32.minValue + 1⟩
    let b : Decimal := ⟨-1, Int32.minValue⟩
    Rescales a b ∧ b.scale.toInt < a.scale.toInt ∧ numericOrder a b = .lt ∧
      compare a.toRat b.toRat = .lt ∧ shift a b = 1 := by
  intro a b
  have h : Rescales a b := ⟨by decide, by decide, by decide, by decide⟩
  have less : b.scale.toInt < a.scale.toInt := by decide
  obtain ⟨exactly, rescaled⟩ := numericOrder_exact a b
  obtain ⟨order, digits⟩ := (rescaled h).2.1 less
  have one : shift a b = 1 := by
    have longer : digitCount a.unscaled.natAbs = 2 := by decide
    have shorter : digitCount b.unscaled.natAbs = 1 := by decide
    omega
  have lt : numericOrder a b = .lt := by
    rw [order, one]
    decide
  exact ⟨h, less, lt, exactly.symm.trans lt, one⟩

end CqlWire.Decimal
