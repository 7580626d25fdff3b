import CqlWire.Json.View
import CqlWire.Proofs.Addresses
import CqlWire.Proofs.Digits
import CqlWire.Proofs.EngineLeaf
import CqlWire.Proofs.Fits
import CqlWire.Proofs.Widening

namespace CqlWire

namespace Decimal

variable {a b d : Decimal}

theorem toDigits_mul_tenPow {m : Nat} (hm : 0 < m) (k : Nat) :
    Nat.toDigits 10 (m * 10 ^ k) = Nat.toDigits 10 m ++ List.replicate k '0' := by
  induction k with
  | zero => simp
  | succ k ih =>
    have last := Nat.toDigits_append_toDigits (b := 10) (n := m * 10 ^ k) (d := 0) (by decide)
      (Nat.mul_pos hm (Nat.pow_pos (by decide))) (by decide)
    have next : m * 10 ^ (k + 1) = 10 * (m * 10 ^ k) + 0 := by ring
    rw [next, ← last, ih, List.replicate_succ', List.append_assoc]
    rfl

theorem toRat_of_nonpos (h : d.scale.toInt ≤ 0) :
    d.toRat = ((d.unscaled * 10 ^ (-d.scale.toInt).toNat : Int) : ℚ) := by
  rw [toRat]
  push_cast
  rw [← zpow_natCast, Int.toNat_of_nonneg (by omega)]

/-- A number without a point is written as the whole number that it is. -/
theorem toText_of_nonpos (h : d.scale.toInt ≤ 0) (hd : d.unscaled ≠ 0) :
    d.toText = (d.unscaled * 10 ^ (-d.scale.toInt).toNat).repr := by
  rw [toText, if_pos h, Numeral.repr_eq, Numeral.repr_eq]
  generalize (-d.scale.toInt).toNat = k
  have sign : d.unscaled * 10 ^ k < 0 ↔ d.unscaled < 0 := by
    rw [← not_le, mul_nonneg_iff_of_pos_right (by positivity), not_le]
  have size : (d.unscaled * 10 ^ k).natAbs = d.unscaled.natAbs * 10 ^ k := by
    rw [Int.natAbs_mul, Int.natAbs_pow]
    rfl
  rw [size, toDigits_mul_tenPow (Int.natAbs_pos.mpr hd), ← String.ofList_append, List.append_assoc]
  simp only [sign]

/-- Two decimals have one text when they are the same whole number and written without a point, zero
aside, of which each scale has its own text. -/
theorem toText_eq_iff : a.toText = b.toText ↔
    a = b ∨ a.unscaled ≠ 0 ∧ a.scale.toInt ≤ 0 ∧ b.scale.toInt ≤ 0 ∧ a.toRat = b.toRat := by
  constructor
  · intro htext
    obtain ⟨m, hm⟩ := Numeral.exists_spells a
    obtain ⟨n, hn⟩ := Numeral.exists_spells b
    cases Numeral.text_injective (hm.text_eq.trans (htext.trans hn.text_eq.symm))
    have places := hm.places.symm.trans hn.places
    have value := hm.value_eq.symm.trans hn.value_eq
    by_cases point : 0 < a.scale.toInt
    · have scales : a.scale.toInt = b.scale.toInt := by omega
      exact .inl (toRat_injective (Int32.toInt_inj.mp scales) value)
    have ha : a.scale.toInt ≤ 0 := Int.not_lt.mp point
    have hb : b.scale.toInt ≤ 0 := by omega
    by_cases zero : a.unscaled = 0
    · have zero' : b.unscaled = 0 := by
        rw [toRat_of_nonpos ha, toRat_of_nonpos hb] at value
        have whole := Int.cast_injective value
        rw [zero, Int.zero_mul] at whole
        exact (Int.mul_eq_zero.mp whole.symm).resolve_right (pow_ne_zero _ (by decide))
      rw [toText, toText, if_pos ha, if_pos hb, zero, zero', String.append_right_inj] at htext
      have length := congrArg List.length (String.ofList_injective htext)
      rw [List.length_replicate, List.length_replicate] at length
      have scales : a.scale.toInt = b.scale.toInt := by omega
      exact .inl (toRat_injective (Int32.toInt_inj.mp scales) value)
    · exact .inr ⟨zero, ha, hb, value⟩
  · rintro (rfl | ⟨zero, ha, hb, value⟩)
    · rfl
    rw [toRat_of_nonpos ha, toRat_of_nonpos hb] at value
    have whole := Int.cast_injective value
    have zero' : b.unscaled ≠ 0 := by
      intro e
      rw [e, Int.zero_mul] at whole
      exact zero ((Int.mul_eq_zero.mp whole).resolve_right (pow_ne_zero _ (by decide)))
    rw [toText_of_nonpos ha zero, toText_of_nonpos hb zero', whole]

theorem repr_injective {x y : Int} (h : x.repr = y.repr) : x = y := by
  have texts : (⟨x, 0⟩ : Decimal).toText = (⟨y, 0⟩ : Decimal).toText := by simp [toText, h]
  rcases toText_eq_iff.mp texts with e | ⟨-, -, -, value⟩
  · exact congrArg unscaled e
  · exact congrArg unscaled (toRat_injective (a := ⟨x, 0⟩) (b := ⟨y, 0⟩) rfl value)

end Decimal

theorem Uuid.toText_injective {u v : Uuid} (h : u.toText = v.toText) : u = v := by
  have read := congrArg ofText? h
  rw [ofText?_toText, ofText?_toText] at read
  exact Option.some.inj read

theorem Hex.ofBytes_injective {x y : Bytes} (h : ofBytes x = ofBytes y) : x = y := by
  have marked := String.ofList_injective h
  have read := congrArg toBytes? (List.cons.inj (List.cons.inj marked).2).2
  rw [toBytes?_digits, toBytes?_digits] at read
  exact Option.some.inj read

theorem Json.ofDouble_eq_text {bits : UInt64} {s : String} :
    ofDouble bits = text s ↔
      Ieee.double.isFinite bits.toNat = false ∧ Ieee.specialText Ieee.double bits.toNat = s := by
  unfold ofDouble
  split
  next h => simp [h]
  next h => simp [h]

namespace Value

/-- Leaf values that differ and yet have one text: bits that are no number, and decimals that are one
whole number with zeros at its end. -/
inductive ShareText : Value → Value → Prop
  | float {x y : UInt32} (hx : Ieee.single.isNaN x.toNat = true)
    (hy : Ieee.single.isNaN y.toNat = true) : ShareText (.float x) (.float y)
  | double {x y : UInt64} (hx : Ieee.double.isNaN x.toNat = true)
    (hy : Ieee.double.isNaN y.toNat = true) : ShareText (.double x) (.double y)
  | decimal {x y : Decimal} (nonzero : x.unscaled ≠ 0) (hx : x.scale.toInt ≤ 0)
    (hy : y.scale.toInt ≤ 0) (value : x.toRat = y.toRat) : ShareText (.decimal x) (.decimal y)

variable {kind : Kind} {a b : Value} {s : String}

theorem ShareText.exists_text (h : ShareText a b) :
    ∃ s, a.toJson = .text s ∧ b.toJson = .text s := by
  cases h with
  | float hx hy =>
    have shown {x : UInt32} (hx : Ieee.single.isNaN x.toNat = true) :
        (Value.float x).toJson = .text "NaN" := by
      refine Json.ofDouble_eq_text.mpr ?_
      rw [Ieee.isFinite_widen, Ieee.specialText_widen, Ieee.specialText, if_pos hx]
      exact ⟨Ieee.Format.isFinite_of_isNaN hx, rfl⟩
    exact ⟨"NaN", shown hx, shown hy⟩
  | double hx hy =>
    have shown {x : UInt64} (hx : Ieee.double.isNaN x.toNat = true) :
        (Value.double x).toJson = .text "NaN" :=
      Json.ofDouble_eq_text.mpr ⟨Ieee.Format.isFinite_of_isNaN hx, if_pos hx⟩
    exact ⟨"NaN", shown hx, shown hy⟩
  | @decimal x y nonzero hx hy value =>
    have texts := Decimal.toText_eq_iff.mpr (.inr ⟨nonzero, hx, hy, value⟩)
    exact ⟨x.toText, rfl, congrArg Json.text texts.symm⟩

/-- The text of a leaf value tells it from all others of its kind but those that share it. -/
theorem eq_or_shareText (ha : kind.Holds a) (hb : kind.Holds b) (hs : a.toJson = .text s)
    (hs' : b.toJson = .text s) : a = b ∨ ShareText a b := by
  cases kind
  case boolean | tinyint | smallint | int | bigint | timestamp | date | time =>
    obtain ⟨x, rfl⟩ := ha
    cases hs
  case empty => exact .inl (ha.trans hb.symm)
  case float =>
    obtain ⟨x, rfl⟩ := ha
    obtain ⟨y, rfl⟩ := hb
    obtain ⟨fx, tx⟩ := Json.ofDouble_eq_text.mp hs
    obtain ⟨fy, ty⟩ := Json.ofDouble_eq_text.mp hs'
    rw [Ieee.isFinite_widen] at fx fy
    rw [Ieee.specialText_widen] at tx ty
    have texts := Ieee.Format.specialText_eq_iff x.toNat_lt y.toNat_lt fx fy
    rcases texts.mp (tx.trans ty.symm) with e | ⟨nx, ny⟩
    · exact .inl (congrArg Value.float (UInt32.toNat_inj.mp e))
    · exact .inr (.float nx ny)
  case double =>
    obtain ⟨x, rfl⟩ := ha
    obtain ⟨y, rfl⟩ := hb
    obtain ⟨fx, tx⟩ := Json.ofDouble_eq_text.mp hs
    obtain ⟨fy, ty⟩ := Json.ofDouble_eq_text.mp hs'
    have texts := Ieee.Format.specialText_eq_iff x.toNat_lt y.toNat_lt fx fy
    rcases texts.mp (tx.trans ty.symm) with e | ⟨nx, ny⟩
    · exact .inl (congrArg Value.double (UInt64.toNat_inj.mp e))
    · exact .inr (.double nx ny)
  all_goals
    obtain ⟨x, rfl⟩ := ha
    obtain ⟨y, rfl⟩ := hb
    have texts := Json.text.inj (hs.trans hs'.symm)
  case ascii | text => exact .inl (congrArg _ texts)
  case uuid | timeuuid => exact .inl (congrArg _ (Uuid.toText_injective texts))
  case inet => exact .inl (congrArg _ (Address.toText_injective texts))
  case blob => exact .inl (congrArg _ (Hex.ofBytes_injective texts))
  case varint => exact .inl (congrArg _ (Decimal.repr_injective texts))
  case decimal =>
    rcases Decimal.toText_eq_iff.mp texts with e | ⟨nonzero, hx, hy, value⟩
    · exact .inl (congrArg _ e)
    · exact .inr (.decimal nonzero hx hy value)

end Value

end CqlWire
