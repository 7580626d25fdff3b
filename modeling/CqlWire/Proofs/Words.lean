import CqlWire.Bytes.Varint

namespace CqlWire

-- A power of natural numbers is always the one that computes.
attribute [local instance (high)] instPowNat

namespace Bytes

/-- A number that its width holds in two's complement is read back. -/
theorem toInt_ofInt {width : Nat} {n : Int} (hl : -((256 ^ width : Nat) : Int) ≤ 2 * n)
    (hu : 2 * n < (256 ^ width : Nat)) : toInt (ofInt width n) = n := by
  have hp : 0 < 256 ^ width := Nat.pow_pos (by omega)
  have hcast : (256 : Int) ^ width = ((256 ^ width : Nat) : Int) := (Int.natCast_pow 256 width).symm
  have hm := Int.emod_nonneg n (show ((256 ^ width : Nat) : Int) ≠ 0 by omega)
  have hlt := Int.emod_lt_of_pos n (show (0 : Int) < (256 ^ width : Nat) by omega)
  unfold toInt ofInt
  rw [toNat_ofNat, length_ofNat, hcast, Nat.mod_eq_of_lt (by omega)]
  by_cases hn : 0 ≤ n
  · rw [Int.emod_eq_of_lt hn (by omega), if_pos (by omega)]
    omega
  · have he : n % ((256 ^ width : Nat) : Int) = n + (256 ^ width : Nat) := by
      rw [← Int.add_emod_right, Int.emod_eq_of_lt (by omega) (by omega)]
    rw [he, if_neg (by omega)]
    omega

theorem toInt_ofNat {width n : Nat} (h : 2 * n < 256 ^ width) : toInt (ofNat width n) = n := by
  unfold toInt
  rw [toNat_ofNat, length_ofNat, Nat.mod_eq_of_lt (by omega), if_pos h]

theorem toNat_injective {a b : Bytes} (hl : a.length = b.length) (h : toNat a = toNat b) : a = b := by
  induction a generalizing b with
  | nil => exact (List.length_eq_zero_iff.mp hl.symm).symm
  | cons x a ih =>
    obtain ⟨y, b, rfl⟩ := List.exists_cons_of_length_eq_add_one hl.symm
    have hlen : a.length = b.length := by simpa using hl
    have ha := toNat_lt a
    have hb := toNat_lt b
    rw [← hlen] at hb
    simp only [toNat, ← hlen] at h
    have hxy : x.toNat = y.toNat := by
      have hdiv := congrArg (· / 256 ^ a.length) h
      simpa only [Nat.mul_comm _ (256 ^ a.length), Nat.mul_add_div (Nat.zero_lt_of_lt ha),
        Nat.div_eq_of_lt ha, Nat.div_eq_of_lt hb, Nat.add_zero] using hdiv
    have hrest : toNat a = toNat b := by
      rw [hxy] at h
      omega
    rw [UInt8.toNat_inj.mp hxy, ih hlen hrest]

theorem ofNat_toNat (bytes : Bytes) : ofNat bytes.length (toNat bytes) = bytes := by
  apply toNat_injective (length_ofNat _ _)
  rw [toNat_ofNat]
  exact Nat.mod_eq_of_lt (toNat_lt bytes)

theorem toNat_of_toInt_nonneg {bytes : Bytes} (h : 0 ≤ toInt bytes) :
    toInt bytes = toNat bytes ∧ 2 * toNat bytes < 256 ^ bytes.length := by
  have hlt := toNat_lt bytes
  have hcast : (256 : Int) ^ bytes.length = ((256 ^ bytes.length : Nat) : Int) :=
    (Int.natCast_pow 256 bytes.length).symm
  unfold toInt at h ⊢
  split at h
  next hsmall => exact ⟨if_pos hsmall, hsmall⟩
  next =>
    rw [hcast] at h
    omega

end Bytes

namespace Varint

theorem lt_two_pow_bitLength (n : Nat) : n < 2 ^ bitLength n := by
  unfold bitLength
  split
  · omega
  · exact Nat.lt_log2_self

theorem encode_ne_nil (n : Int) : encode n ≠ [] := by
  rw [ne_eq, ← List.length_eq_zero_iff, encode, Bytes.length_ofInt, width]
  omega

/-- The shortest form of an integer is read back. -/
theorem decode_encode (n : Int) : decode (encode n) = n := by
  have hm := lt_two_pow_bitLength (magnitude n)
  have hw : 2 ^ (bitLength (magnitude n) + 1) ≤ 256 ^ width n := by
    have h256 : 256 ^ width n = 2 ^ (8 * width n) := by rw [Nat.pow_mul]
    rw [h256]
    refine Nat.pow_le_pow_right (by omega) ?_
    unfold width
    omega
  have hn : -(magnitude n : Int) - 1 ≤ n ∧ n ≤ magnitude n := by
    unfold magnitude
    split <;> omega
  rw [Nat.pow_succ] at hw
  exact Bytes.toInt_ofInt (by omega) (by omega)

end Varint

end CqlWire
