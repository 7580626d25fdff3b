import CqlWire.Proofs.DecimalOrder
import Mathlib.Tactic.Ring

namespace CqlWire.Decimal

/-- A number in decimal digits: a sign or none, digits before the point, of which there is at least
one, and digits behind it, which may be missing together with the point. -/
structure Numeral where
  negative : Bool
  whole : List Char
  fraction : List Char
  whole_ne_nil : whole ≠ []
  whole_isDigit : ∀ c ∈ whole, c.isDigit = true
  fraction_isDigit : ∀ c ∈ fraction, c.isDigit = true

namespace Numeral

variable {m n : Numeral} {d : Decimal}

/-- The digits behind the point, with the point in front of them where there are any. -/
def behind (n : Numeral) : List Char :=
  if n.fraction = [] then [] else '.' :: n.fraction

def text (n : Numeral) : String :=
  String.ofList ((if n.negative then ['-'] else []) ++ n.whole ++ n.behind)

/-- The number that the digits denote, each by its place. -/
def value (n : Numeral) : ℚ :=
  (if n.negative then -1 else 1) *
    (Nat.ofDigitChars 10 n.whole 0 + Nat.ofDigitChars 10 n.fraction 0 / 10 ^ n.fraction.length)

theorem ext (negative : m.negative = n.negative) (whole : m.whole = n.whole)
    (fraction : m.fraction = n.fraction) : m = n := by
  cases m
  cases n
  cases negative
  cases whole
  cases fraction
  rfl

theorem takeWhile_behind (n : Numeral) : n.behind.takeWhile Char.isDigit = [] := by
  unfold behind
  split <;> rfl

theorem takeWhile_whole (n : Numeral) : (n.whole ++ n.behind).takeWhile Char.isDigit = n.whole := by
  rw [List.takeWhile_append_of_pos n.whole_isDigit, takeWhile_behind, List.append_nil]

theorem fraction_eq_of_behind_eq (h : m.behind = n.behind) : m.fraction = n.fraction := by
  unfold behind at h
  split at h <;> split at h
  next hm hn => rw [hm, hn]
  next => cases h
  next => cases h
  next => exact List.tail_eq_of_cons_eq h

theorem head?_ne_minus (n : Numeral) : (n.whole ++ n.behind).head? ≠ some '-' := by
  obtain ⟨c, cs, hc⟩ := List.exists_cons_of_ne_nil n.whole_ne_nil
  rw [hc]
  rintro ⟨⟩
  exact absurd (n.whole_isDigit '-' (hc ▸ List.mem_cons_self)) (by decide)

/-- A text is the spelling of one numeral at most. -/
theorem text_injective (h : m.text = n.text) : m = n := by
  have chars := String.ofList_injective h
  rw [List.append_assoc, List.append_assoc] at chars
  -- No digit is a minus sign, so that the sign is told from the first character.
  have signs : m.negative = n.negative := by
    cases hm : m.negative <;> cases hn : n.negative <;> simp only [hm, hn] at chars
    · rfl
    · exact absurd (congrArg List.head? chars) m.head?_ne_minus
    · exact absurd (congrArg List.head? chars).symm n.head?_ne_minus
    · rfl
  rw [signs] at chars
  have rest : m.whole ++ m.behind = n.whole ++ n.behind := List.append_cancel_left chars
  have whole : m.whole = n.whole := by
    rw [← m.takeWhile_whole, rest, n.takeWhile_whole]
  rw [whole] at rest
  exact ext signs whole (fraction_eq_of_behind_eq (List.append_cancel_left rest))

/-- The point moves the digits behind it by as many places as there are. -/
theorem value_eq (n : Numeral) : n.value = (if n.negative then -1 else 1) *
    (Nat.ofDigitChars 10 (n.whole ++ n.fraction) 0 / 10 ^ n.fraction.length) := by
  have places : (10 : ℚ) ^ n.fraction.length ≠ 0 := pow_ne_zero _ (by norm_num)
  have digits : Nat.ofDigitChars 10 n.fraction (Nat.ofDigitChars 10 n.whole 0) =
      10 ^ n.fraction.length * Nat.ofDigitChars 10 n.whole 0 + Nat.ofDigitChars 10 n.fraction 0 :=
    Nat.ofDigitChars_eq_ofDigitChars_zero
  rw [value, Nat.ofDigitChars_append, digits]
  push_cast
  rw [add_div, mul_div_cancel_left₀ _ places]

/-- A numeral whose sign, digits and places are those of a decimal. -/
structure Spells (n : Numeral) (d : Decimal) : Prop where
  text_eq : n.text = d.toText
  negative_eq : n.negative = decide (d.unscaled < 0)
  places : n.fraction.length = d.scale.toInt.toNat
  digits : Nat.ofDigitChars 10 (n.whole ++ n.fraction) 0 =
    d.unscaled.natAbs * 10 ^ (-d.scale.toInt).toNat

theorem Spells.value_eq (h : n.Spells d) : n.value = d.toRat := by
  have sign : (if n.negative then -1 else 1) * (d.unscaled.natAbs : ℚ) = d.unscaled := by
    rw [h.negative_eq]
    by_cases hneg : d.unscaled < 0
    · have negated : (d.unscaled.natAbs : Int) = -d.unscaled := by omega
      rw [if_pos (decide_eq_true hneg), ← Int.cast_natCast, negated]
      push_cast
      ring
    · have same : (d.unscaled.natAbs : Int) = d.unscaled := by omega
      rw [if_neg (by simpa using hneg), one_mul, ← Int.cast_natCast, same]
  -- Of the two powers of ten one is that of the scale and the other is one.
  have scale : (10 : ℚ) ^ (-d.scale.toInt).toNat / 10 ^ d.scale.toInt.toNat =
      10 ^ (-d.scale.toInt) := by
    rw [← zpow_natCast, ← zpow_natCast, ← zpow_sub₀ (by norm_num)]
    congr 1
    omega
  rw [n.value_eq, h.digits, h.places, toRat, ← scale, ← sign]
  push_cast
  ring

theorem isDigit_zeros (n : Nat) : ∀ c ∈ List.replicate n '0', c.isDigit = true := by
  intro c hc
  rw [List.eq_of_mem_replicate hc]
  rfl

theorem isDigit_toDigits (n : Nat) : ∀ c ∈ Nat.toDigits 10 n, c.isDigit = true :=
  fun _ hc => Nat.isDigit_of_mem_toDigits (by decide) (by decide) hc

theorem repr_eq (z : Int) :
    z.repr = String.ofList ((if decide (z < 0) then ['-'] else []) ++ Nat.toDigits 10 z.natAbs) := by
  cases z with
  | ofNat n => rfl
  | negSucc n =>
    rw [String.ofList_append, if_pos (decide_eq_true (Int.negSucc_lt_zero n))]
    rfl

/-- Without places behind the point the digits are followed by zeros. -/
theorem exists_spells_of_nonpos (h : d.scale.toInt ≤ 0) : ∃ n : Numeral, n.Spells d := by
  have none : d.scale.toInt.toNat = 0 := Int.toNat_of_nonpos h
  refine ⟨⟨decide (d.unscaled < 0),
    Nat.toDigits 10 d.unscaled.natAbs ++ List.replicate (-d.scale.toInt).toNat '0', [],
    List.append_ne_nil_of_left_ne_nil Nat.toDigits_ne_nil _,
    List.forall_mem_append.mpr ⟨isDigit_toDigits _, isDigit_zeros _⟩, nofun⟩, ?_, rfl, none.symm, ?_⟩
  · rw [toText, if_pos h, repr_eq]
    simp only [text, behind, if_pos, List.append_nil, String.ofList_append, String.append_assoc]
  · rw [List.append_nil, Nat.ofDigitChars_append, Nat.ofDigitChars_ten_toDigits,
      Nat.ofDigitChars_replicate_zero, Nat.mul_comm]

/-- Numerals with the digits of the unscaled part, zeros in front of them aside, of which the scale
says how many stand behind the point. -/
theorem spells_of_pos {n : Numeral} (zeros : Nat) (h : 0 < d.scale.toInt)
    (hnegative : n.negative = decide (d.unscaled < 0))
    (hdigits : n.whole ++ n.fraction = List.replicate zeros '0' ++ Nat.toDigits 10 d.unscaled.natAbs)
    (hplaces : n.fraction.length = d.scale.toInt.toNat)
    (htext : (if d.unscaled < 0 then "-" else "") ++ String.ofList n.whole ++ "." ++
      String.ofList n.fraction = d.toText) : n.Spells d := by
  have noZeros : (-d.scale.toInt).toNat = 0 := by omega
  have some : n.fraction ≠ [] := by
    rw [← List.length_pos_iff, hplaces]
    omega
  refine ⟨?_, hnegative, hplaces, ?_⟩
  · have sign : (if d.unscaled < 0 then "-" else "") =
        String.ofList (if n.negative then ['-'] else []) := by
      rw [hnegative]
      by_cases hneg : d.unscaled < 0 <;> simp [hneg]
    have point : String.ofList ('.' :: n.fraction) = "." ++ String.ofList n.fraction := by
      rw [← List.singleton_append, String.ofList_append]
    rw [← htext, sign, text, behind, if_neg some, String.ofList_append, String.ofList_append, point,
      String.append_assoc, String.append_assoc, String.append_assoc]
  · rw [hdigits, Nat.ofDigitChars_append, Nat.ofDigitChars_replicate_zero, Nat.mul_zero,
      Nat.ofDigitChars_ten_toDigits, noZeros, Nat.pow_zero, Nat.mul_one]

/-- Every decimal is spelled with as many places behind the point as its scale says. -/
theorem exists_spells (d : Decimal) : ∃ n : Numeral, n.Spells d := by
  by_cases h : d.scale.toInt ≤ 0
  · exact exists_spells_of_nonpos h
  have positive : 0 < d.scale.toInt := Int.not_le.mp h
  generalize hplaces : d.scale.toInt.toNat = places
  have isDigit := isDigit_toDigits d.unscaled.natAbs
  have htext := toText.eq_def d
  simp only [if_neg h, hplaces] at htext
  generalize hdigits : Nat.toDigits 10 d.unscaled.natAbs = digits at isDigit htext
  by_cases hlong : places < digits.length
  · rw [if_pos hlong] at htext
    let n : Numeral := {
      negative := decide (d.unscaled < 0)
      whole := digits.take (digits.length - places)
      fraction := digits.drop (digits.length - places)
      whole_ne_nil := by
        rw [← List.length_pos_iff, List.length_take]
        omega
      whole_isDigit := fun c hc => isDigit c (List.mem_of_mem_take hc)
      fraction_isDigit := fun c hc => isDigit c (List.mem_of_mem_drop hc) }
    refine ⟨n, spells_of_pos 0 positive rfl ?_ ?_ htext.symm⟩
    · rw [hdigits]
      exact List.take_append_drop _ digits
    · rw [hplaces, List.length_drop]
      omega
  · rw [if_neg hlong] at htext
    let n : Numeral := {
      negative := decide (d.unscaled < 0)
      whole := ['0']
      fraction := List.replicate (places - digits.length) '0' ++ digits
      whole_ne_nil := nofun
      whole_isDigit := List.forall_mem_singleton.mpr rfl
      fraction_isDigit := List.forall_mem_append.mpr ⟨isDigit_zeros _, isDigit⟩ }
    refine ⟨n, spells_of_pos (places - digits.length + 1) positive rfl ?_ ?_ ?_⟩
    · rw [hdigits, List.replicate_succ]
      rfl
    · rw [hplaces, List.length_append, List.length_replicate]
      omega
    · have front : "0." = String.ofList ['0'] ++ "." := rfl
      rw [htext, front]
      simp only [n, String.ofList_append, String.append_assoc]

end Numeral

theorem toRat_injective {a b : Decimal} (hs : a.scale = b.scale) (h : a.toRat = b.toRat) : a = b := by
  obtain ⟨x, s⟩ := a
  obtain ⟨y, s'⟩ := b
  cases hs
  have unscaled : x = y := Int.cast_injective (mul_right_cancel₀ (tenPow_pos _).ne' h)
  rw [unscaled]

/-- The text of a decimal is a numeral, with as many digits behind the point as its scale says and
without a point where that is none; it is no other numeral, and denotes the number. The text of
decimals whose scales are not negative tells them apart. -/
theorem toText_exact :
    (∀ d : Decimal, ∃ n : Numeral, n.text = d.toText ∧ (∀ m : Numeral, m.text = d.toText → m = n) ∧
      n.fraction.length = d.scale.toInt.toNat ∧ n.value = d.toRat) ∧
    ∀ a b : Decimal, 0 ≤ a.scale.toInt → 0 ≤ b.scale.toInt → a.toText = b.toText → a = b := by
  constructor
  · intro d
    obtain ⟨n, h⟩ := Numeral.exists_spells d
    exact ⟨n, h.text_eq, fun m hm => Numeral.text_injective (hm.trans h.text_eq.symm), h.places,
      h.value_eq⟩
  · intro a b ha hb htext
    obtain ⟨m, hm⟩ := Numeral.exists_spells a
    obtain ⟨n, hn⟩ := Numeral.exists_spells b
    cases Numeral.text_injective (hm.text_eq.trans (htext.trans hn.text_eq.symm))
    have places : a.scale.toInt = b.scale.toInt := by
      have := hm.places.symm.trans hn.places
      omega
    exact toRat_injective (Int32.toInt_inj.mp places) (hm.value_eq.symm.trans hn.value_eq)

/-- A negative number with zeros in front of its digits, and `0.5` and `0.50`. -/
theorem toText_exact_padded :
    let d : Decimal := ⟨-5, 3⟩
    let a : Decimal := ⟨5, 1⟩
    let b : Decimal := ⟨50, 2⟩
    (∃ n : Numeral, n.text = "-0.005" ∧ n.fraction.length = 3 ∧ n.value = d.toRat) ∧
      (0 ≤ a.scale.toInt ∧ 0 ≤ b.scale.toInt) ∧ a.toRat = b.toRat ∧ a.toText ≠ b.toText := by
  intro d a b
  have scales : 0 ≤ a.scale.toInt ∧ 0 ≤ b.scale.toInt := by decide
  obtain ⟨spelled, apart⟩ := toText_exact
  obtain ⟨n, text, -, places, value⟩ := spelled d
  have same : a.toRat = b.toRat :=
    compare_eq_iff_eq.mp ((numericOrder_eq_compare a b).symm.trans (by decide))
  have shown : d.toText = "-0.005" := by decide
  refine ⟨⟨n, text.trans shown, places, value⟩, scales, same, fun h => ?_⟩
  exact absurd (apart a b scales.1 scales.2 h) (by decide)

end CqlWire.Decimal
