import CqlWire.Decimal
import Mathlib.Algebra.Order.Field.Power
import Mathlib.Algebra.Order.Field.Rat
import Mathlib.Order.Compare
import Mathlib.Tactic.Linarith

namespace CqlWire.Decimal

/-- The number that a decimal denotes. -/
def toRat (d : Decimal) : ℚ :=
  d.unscaled * (10 : ℚ) ^ (-d.scale.toInt)

theorem tenPow_pos (k : Int) : (0 : ℚ) < 10 ^ k := zpow_pos (by norm_num) k

theorem toRat_pos_iff {d : Decimal} : 0 < d.toRat ↔ 0 < d.unscaled := by
  unfold toRat
  rw [mul_pos_iff_of_pos_right (tenPow_pos _)]
  exact Int.cast_pos

theorem toRat_neg_iff {d : Decimal} : d.toRat < 0 ↔ d.unscaled < 0 := by
  unfold toRat
  rw [← not_le, mul_nonneg_iff_of_pos_right (tenPow_pos _), not_le]
  exact Int.cast_lt_zero

theorem lt_pow_digitCount (n : Nat) : n < 10 ^ digitCount n := by
  have h := Nat.length_toDigits_pos (b := 10) (n := n)
  exact (Nat.length_toDigits_le_iff (by decide) h).mp le_rfl

theorem pow_digitCount_le {n : Nat} (h : n ≠ 0) : 10 ^ (digitCount n - 1) ≤ n := by
  by_cases h1 : digitCount n = 1
  · simp only [h1, Nat.sub_self, pow_zero]
    omega
  · have hp := Nat.length_toDigits_pos (b := 10) (n := n)
    have hc : 0 < digitCount n - 1 := by unfold digitCount at h1 ⊢; omega
    by_contra hlt
    have hle := (Nat.length_toDigits_le_iff (b := 10) (by decide) hc).mpr (not_le.mp hlt)
    unfold digitCount at hle hc
    omega

theorem abs_toRat (d : Decimal) :
    |d.toRat| = (d.unscaled.natAbs : ℚ) * 10 ^ (-d.scale.toInt) := by
  unfold toRat
  rw [abs_mul, abs_of_pos (tenPow_pos _), ← Int.cast_abs, Int.abs_eq_natAbs, Int.cast_natCast]

theorem abs_toRat_lt (d : Decimal) : |d.toRat| < 10 ^ d.exponent := by
  have h : (d.unscaled.natAbs : ℚ) < 10 ^ (digitCount d.unscaled.natAbs : Int) := by
    exact_mod_cast lt_pow_digitCount d.unscaled.natAbs
  rw [abs_toRat, exponent, sub_eq_add_neg, zpow_add₀ (by norm_num)]
  exact mul_lt_mul_of_pos_right h (tenPow_pos _)

theorem le_abs_toRat {d : Decimal} (hd : d.unscaled ≠ 0) : (10 : ℚ) ^ (d.exponent - 1) ≤ |d.toRat| := by
  have hn : d.unscaled.natAbs ≠ 0 := by omega
  have hp := Nat.length_toDigits_pos (b := 10) (n := d.unscaled.natAbs)
  have h : (10 : ℚ) ^ ((digitCount d.unscaled.natAbs : Int) - 1) ≤ (d.unscaled.natAbs : ℚ) := by
    rw [show (digitCount d.unscaled.natAbs : Int) - 1 = ((digitCount d.unscaled.natAbs - 1 : Nat) : Int) by
      unfold digitCount; omega]
    exact_mod_cast pow_digitCount_le hn
  rw [abs_toRat, exponent, show (digitCount d.unscaled.natAbs : Int) - d.scale.toInt - 1 =
    (digitCount d.unscaled.natAbs - 1) + -d.scale.toInt by omega, zpow_add₀ (by norm_num)]
  exact mul_le_mul_of_nonneg_right h (tenPow_pos _).le

/-- Of two numbers other than zero the one of the lower magnitude is nearer to zero. -/
theorem abs_toRat_lt_of_exponent_lt {a b : Decimal} (hb : b.unscaled ≠ 0)
    (h : a.exponent < b.exponent) : |a.toRat| < |b.toRat| := by
  have hp : (10 : ℚ) ^ a.exponent ≤ 10 ^ (b.exponent - 1) :=
    zpow_le_zpow_right₀ (by norm_num) (by omega)
  exact (abs_toRat_lt a).trans_le (hp.trans (le_abs_toRat hb))

theorem toRat_mul_pow (d : Decimal) (k : Nat) (s : Int) (h : s = d.scale.toInt + k) :
    d.toRat * 10 ^ s = ((d.unscaled * 10 ^ k : Int) : ℚ) := by
  unfold toRat
  rw [h, mul_assoc, ← zpow_add₀ (by norm_num), neg_add_cancel_left, zpow_natCast]
  push_cast
  rfl

theorem compare_mul_right {x y c : ℚ} (hc : 0 < c) : compare (x * c) (y * c) = compare x y := by
  rcases lt_trichotomy x y with h | h | h
  · rw [compare_lt_iff_lt.mpr h, compare_lt_iff_lt.mpr (mul_lt_mul_of_pos_right h hc)]
  · rw [h, compare_eq_iff_eq.mpr rfl, compare_eq_iff_eq.mpr rfl]
  · rw [compare_gt_iff_gt.mpr h, compare_gt_iff_gt.mpr (mul_lt_mul_of_pos_right h hc)]

theorem compare_intCast (x y : Int) : compare (x : ℚ) (y : ℚ) = compare x y := by
  rcases lt_trichotomy x y with h | h | h
  · rw [compare_lt_iff_lt.mpr h, compare_lt_iff_lt.mpr (Int.cast_lt.mpr h)]
  · rw [h, compare_eq_iff_eq.mpr rfl, compare_eq_iff_eq.mpr rfl]
  · rw [compare_gt_iff_gt.mpr h, compare_gt_iff_gt.mpr (Int.cast_lt.mpr h)]

/-- Bringing two decimals to one scale keeps their order. -/
theorem compare_align (a b : Decimal) :
    compare (align a b).1 (align a b).2 = compare a.toRat b.toRat := by
  unfold align
  split
  next h =>
    rw [← compare_mul_right (tenPow_pos b.scale.toInt), ← compare_intCast,
      toRat_mul_pow a (b.scale.toInt - a.scale.toInt).toNat _ (by omega),
      toRat_mul_pow b 0 _ (by omega), pow_zero, mul_one]
  next h =>
    rw [← compare_mul_right (tenPow_pos a.scale.toInt), ← compare_intCast,
      toRat_mul_pow b (a.scale.toInt - b.scale.toInt).toNat _ (by omega),
      toRat_mul_pow a 0 _ (by omega), pow_zero, mul_one]

theorem compare_sign_lt {a b : Decimal} (h : compare a.unscaled.sign b.unscaled.sign = .lt) :
    a.toRat < b.toRat := by
  have hs := compare_lt_iff_lt.mp h
  rcases lt_trichotomy a.unscaled 0 with ha | ha | ha
  · have hb : ¬b.unscaled < 0 := by
      intro hb
      simp [Int.sign_eq_neg_one_of_neg ha, Int.sign_eq_neg_one_of_neg hb] at hs
    have hb' := not_lt.mp (mt toRat_neg_iff.mp hb)
    exact (toRat_neg_iff.mpr ha).trans_le hb'
  · have hb : 0 < b.unscaled := by
      rw [ha, Int.sign_zero] at hs
      exact Int.sign_pos_iff.mp hs
    rw [show a.toRat = 0 by simp [toRat, ha]]
    exact toRat_pos_iff.mpr hb
  · have hb := Int.sign_trichotomy b.unscaled
    rw [Int.sign_eq_one_of_pos ha] at hs
    omega

theorem compare_neg (x y : ℚ) : compare (-x) (-y) = (compare x y).swap := by
  rcases lt_trichotomy x y with h | h | h
  · rw [compare_lt_iff_lt.mpr h, compare_gt_iff_gt.mpr (neg_lt_neg h), Ordering.swap]
  · rw [h, compare_eq_iff_eq.mpr rfl, compare_eq_iff_eq.mpr rfl, Ordering.swap]
  · rw [compare_gt_iff_gt.mpr h, compare_lt_iff_lt.mpr (neg_lt_neg h), Ordering.swap]

/-- Numbers of one sign are in the order of their distances from zero, which is reversed for negative
ones. -/
theorem compare_toRat_of_sign_eq {a b : Decimal} (h : a.unscaled.sign = b.unscaled.sign) :
    compare a.toRat b.toRat =
      if a.unscaled < 0 then (compare |a.toRat| |b.toRat|).swap else compare |a.toRat| |b.toRat| := by
  split
  next ha =>
    rw [Int.sign_eq_neg_one_of_neg ha] at h
    have hb := Int.sign_eq_neg_one_iff_neg.mp h.symm
    rw [abs_of_neg (toRat_neg_iff.mpr ha), abs_of_neg (toRat_neg_iff.mpr hb), compare_neg,
      Ordering.swap_swap]
  next ha =>
    have hb : ¬b.unscaled < 0 := fun hb => by
      rw [Int.sign_eq_neg_one_of_neg hb] at h
      exact ha (Int.sign_eq_neg_one_iff_neg.mp h)
    rw [abs_of_nonneg (not_lt.mp (mt toRat_neg_iff.mp ha)),
      abs_of_nonneg (not_lt.mp (mt toRat_neg_iff.mp hb))]

theorem compare_abs_toRat {a b : Decimal} (ha : a.unscaled ≠ 0) (hb : b.unscaled ≠ 0)
    (hne : a.exponent ≠ b.exponent) : compare |a.toRat| |b.toRat| = compare a.exponent b.exponent := by
  rcases lt_or_gt_of_ne hne with h | h
  · rw [compare_lt_iff_lt.mpr h, compare_lt_iff_lt.mpr (abs_toRat_lt_of_exponent_lt hb h)]
  · rw [compare_gt_iff_gt.mpr h, compare_gt_iff_gt.mpr (abs_toRat_lt_of_exponent_lt ha h)]

/-- The order of decimals is the order of the numbers that they denote. -/
theorem numericOrder_eq_compare (a b : Decimal) :
    numericOrder a b = compare a.toRat b.toRat := by
  unfold numericOrder
  cases hs : compare a.unscaled.sign b.unscaled.sign with
  | lt => exact (compare_lt_iff_lt.mpr (compare_sign_lt hs)).symm
  | gt =>
    have hs' : compare b.unscaled.sign a.unscaled.sign = .lt := by
      rw [Std.OrientedOrd.eq_swap (a := b.unscaled.sign), hs]
      rfl
    exact (compare_gt_iff_gt.mpr (compare_sign_lt hs')).symm
  | eq =>
    have he := compare_eq_iff_eq.mp hs
    by_cases h0 : a.unscaled = 0
    · have hb : b.unscaled = 0 := by
        rw [h0, Int.sign_zero] at he
        exact Int.sign_eq_zero_iff_zero.mp he.symm
      simp [h0, toRat, hb]
    · have hb : b.unscaled ≠ 0 := by
        intro hb
        rw [hb, Int.sign_zero] at he
        exact h0 (Int.sign_eq_zero_iff_zero.mp he)
      simp only [if_neg h0]
      split
      next => exact compare_align a b
      next hne =>
        rw [compare_toRat_of_sign_eq he, compare_abs_toRat h0 hb fun hx => hne ?_]
        exact compare_eq_iff_eq.mpr hx

end CqlWire.Decimal
