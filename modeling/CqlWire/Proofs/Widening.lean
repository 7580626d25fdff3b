import CqlWire.Ieee.Text
import Mathlib.Data.Nat.Log
import Mathlib.Tactic.Ring

namespace CqlWire.Ieee

-- A power of natural numbers is always the one that computes.
attribute [local instance (high)] instPowNat

namespace Format

variable {f : Format} {negative : Bool} {exponent fraction x y : Nat}

theorem join_div (hf : fraction < 2 ^ f.fraction) :
    f.join negative exponent fraction / 2 ^ f.fraction =
      (if negative then 2 ^ f.exponent else 0) + exponent := by
  rw [join, Nat.mul_comm, Nat.mul_add_div (Nat.two_pow_pos _), Nat.div_eq_of_lt hf, Nat.add_zero]

theorem fractionOf_join (hf : fraction < 2 ^ f.fraction) :
    f.fractionOf (f.join negative exponent fraction) = fraction := by
  rw [fractionOf, join, Nat.mul_comm, Nat.mul_add_mod, Nat.mod_eq_of_lt hf]

theorem exponentOf_join (he : exponent < 2 ^ f.exponent) (hf : fraction < 2 ^ f.fraction) :
    f.exponentOf (f.join negative exponent fraction) = exponent := by
  rw [exponentOf, join_div hf]
  cases negative <;> simp [Nat.mod_eq_of_lt he]

theorem div_two_pow (x : Nat) :
    x / 2 ^ (f.fraction + f.exponent) = x / 2 ^ f.fraction / 2 ^ f.exponent := by
  rw [Nat.pow_add, Nat.div_div_eq_div_mul]

theorem isNegative_join (he : exponent < 2 ^ f.exponent) (hf : fraction < 2 ^ f.fraction) :
    f.isNegative (f.join negative exponent fraction) = negative := by
  rw [isNegative, div_two_pow, join_div hf]
  cases negative <;> simp [Nat.div_eq_of_lt he, Nat.add_div_left]

/-- Bits are made of their sign and their two fields. -/
theorem join_fields (hx : x < 2 ^ (f.fraction + f.exponent + 1)) :
    f.join (f.isNegative x) (f.exponentOf x) (f.fractionOf x) = x := by
  have sign : (if f.isNegative x then 2 ^ f.exponent else 0) =
      2 ^ f.exponent * (x / 2 ^ f.fraction / 2 ^ f.exponent) := by
    rw [isNegative, ← div_two_pow]
    have small : x / 2 ^ (f.fraction + f.exponent) < 2 :=
      Nat.div_lt_of_lt_mul (by rwa [← Nat.pow_succ])
    generalize x / 2 ^ (f.fraction + f.exponent) = s at small
    obtain rfl | rfl : s = 0 ∨ s = 1 := by omega
    · simp
    · simp
  rw [join, sign, exponentOf, Nat.div_add_mod, fractionOf, Nat.mul_comm, Nat.div_add_mod]

theorem isFinite_of_isNaN (h : f.isNaN x = true) : f.isFinite x = false := by
  simp only [isNaN, Bool.and_eq_true, decide_eq_true_eq] at h
  simp [isFinite, h.1]

/-- Infinities are told by their signs. -/
theorem specialText_eq_iff (hx : x < 2 ^ (f.fraction + f.exponent + 1))
    (hy : y < 2 ^ (f.fraction + f.exponent + 1)) (fx : f.isFinite x = false)
    (fy : f.isFinite y = false) :
    specialText f x = specialText f y ↔ x = y ∨ f.isNaN x = true ∧ f.isNaN y = true := by
  have topX : f.exponentOf x = f.top := by simpa [isFinite] using fx
  have topY : f.exponentOf y = f.top := by simpa [isFinite] using fy
  unfold specialText
  cases nx : f.isNaN x <;> cases ny : f.isNaN y
  · have zeroX : f.fractionOf x = 0 := by simpa [isNaN, topX] using nx
    have zeroY : f.fractionOf y = 0 := by simpa [isNaN, topY] using ny
    have equal : x = y ↔ f.isNegative x = f.isNegative y := by
      refine ⟨fun e => e ▸ rfl, fun e => ?_⟩
      rw [← join_fields hx, ← join_fields hy, e, topX, topY, zeroX, zeroY]
    rw [equal]
    cases f.isNegative x <;> cases f.isNegative y <;> simp
  · have differ : x ≠ y := fun e => by simp [e, ny] at nx
    cases f.isNegative x <;> simp [differ]
  · have differ : x ≠ y := fun e => by simp [e, ny] at nx
    cases f.isNegative y <;> simp [differ]
  · simp

end Format

open Format

theorem join_lt {f : Format} {negative : Bool} {exponent fraction : Nat}
    (he : exponent < 2 ^ f.exponent) (hf : fraction < 2 ^ f.fraction) :
    f.join negative exponent fraction < 2 ^ (f.fraction + f.exponent + 1) := by
  have whole : 2 ^ (f.fraction + f.exponent + 1) = 2 * 2 ^ f.exponent * 2 ^ f.fraction := by
    rw [Nat.pow_succ, Nat.pow_add]
    ring
  rw [whole, ← Nat.div_lt_iff_lt_mul (Nat.two_pow_pos _), join_div hf]
  split <;> omega

/-- The digits behind the leading one of `n`, moved up to fill `places`. -/
theorem shifted_lt {n places : Nat} (hn : n ≠ 0) (h : n.log2 ≤ places) :
    (n - 2 ^ n.log2) * 2 ^ (places - n.log2) < 2 ^ places := by
  have lower : 2 ^ n.log2 ≤ n := Nat.log2_self_le hn
  have upper : n < 2 ^ (n.log2 + 1) := Nat.lt_log2_self
  have whole : 2 ^ places = 2 ^ n.log2 * 2 ^ (places - n.log2) := by
    rw [← Nat.pow_add, Nat.add_sub_cancel' h]
  rw [whole]
  exact Nat.mul_lt_mul_of_pos_right (by omega) (Nat.two_pow_pos _)

/-- Widening keeps the sign, and whether the exponent is the greatest and the fraction zero. -/
theorem exists_widen_eq_join (bits : UInt32) :
    ∃ exponent fraction, exponent < 2 ^ double.exponent ∧ fraction < 2 ^ double.fraction ∧
      (widen bits).toNat = double.join (single.isNegative bits.toNat) exponent fraction ∧
      (exponent = double.top ↔ single.exponentOf bits.toNat = single.top) ∧
      (exponent = double.top → (fraction = 0 ↔ single.fractionOf bits.toNat = 0)) := by
  have he : single.exponentOf bits.toNat < 256 := Nat.mod_lt _ (by decide)
  have hf : single.fractionOf bits.toNat < 2 ^ 23 := Nat.mod_lt _ (by decide)
  unfold widen
  dsimp only
  generalize single.exponentOf bits.toNat = e at he ⊢
  generalize single.fractionOf bits.toNat = f at hf ⊢
  have tops : single.top = 255 ∧ double.top = 2047 := by decide
  simp only [tops]
  have fits {exponent fraction : Nat} (hexponent : exponent < 2 ^ double.exponent)
      (hfraction : fraction < 2 ^ double.fraction) :
      (UInt64.ofNat (double.join (single.isNegative bits.toNat) exponent fraction)).toNat =
        double.join (single.isNegative bits.toNat) exponent fraction :=
    UInt64.toNat_ofNat_of_lt' (join_lt hexponent hfraction)
  have longer : f * 2 ^ (double.fraction - single.fraction) < 2 ^ double.fraction := by
    simp only [double, single, Nat.reducePow, Nat.reduceSub] at hf ⊢
    omega
  split
  next h =>
    have hexponent : 2047 < 2 ^ double.exponent := by decide
    refine ⟨2047, _, hexponent, longer, fits hexponent longer, by simp [h], fun _ => ?_⟩
    simp [double, single]
  next h =>
    split
    next =>
      have hexponent : e + 896 < 2 ^ double.exponent := by
        simp only [double, Nat.reducePow]
        omega
      exact ⟨_, _, hexponent, longer, fits hexponent longer, by omega, by omega⟩
    next =>
      split
      next => exact ⟨0, 0, by decide, by decide, fits (by decide) (by decide), by omega, by omega⟩
      next hz =>
        have hlead : f.log2 < 23 := (Nat.log2_lt hz).mpr hf
        have hexponent : f.log2 + 874 < 2 ^ double.exponent := by
          simp only [double, Nat.reducePow]
          omega
        have room : f.log2 ≤ double.fraction := by
          simp only [double]
          omega
        have hfraction := shifted_lt hz room
        exact ⟨_, _, hexponent, hfraction, fits hexponent hfraction, by omega, by omega⟩

theorem isFinite_widen (bits : UInt32) :
    double.isFinite (widen bits).toNat = single.isFinite bits.toNat := by
  obtain ⟨exponent, fraction, he, hf, hwiden, top, -⟩ := exists_widen_eq_join bits
  rw [isFinite, isFinite, hwiden, exponentOf_join he hf]
  simp only [ne_eq, top]

theorem specialText_widen (bits : UInt32) :
    specialText double (widen bits).toNat = specialText single bits.toNat := by
  obtain ⟨exponent, fraction, he, hf, hwiden, top, zero⟩ := exists_widen_eq_join bits
  have nan : double.isNaN (widen bits).toNat = single.isNaN bits.toNat := by
    rw [isNaN, isNaN, hwiden, exponentOf_join he hf, fractionOf_join hf]
    by_cases h : exponent = double.top
    · simp [h, top.mp h, zero h]
    · simp [h, mt top.mpr h]
  rw [specialText, specialText, nan, hwiden, isNegative_join he hf]

end CqlWire.Ieee
