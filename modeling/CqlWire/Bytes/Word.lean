namespace CqlWire

-- A power of natural numbers is always the one that computes.
attribute [local instance (high)] instPowNat

/-- A byte string, first byte first. -/
abbrev Bytes := List UInt8

namespace Bytes

/-- The low `width` bytes of `n`, most significant first. -/
def ofNat : Nat → Nat → Bytes
  | 0, _ => []
  | width + 1, n => UInt8.ofNat (n / 256 ^ width) :: ofNat width n

/-- The number that a byte string denotes, most significant byte first. -/
def toNat : Bytes → Nat
  | [] => 0
  | b :: rest => b.toNat * 256 ^ rest.length + toNat rest

/-- The two's complement form of `n` in `width` bytes. -/
def ofInt (width : Nat) (n : Int) : Bytes :=
  ofNat width (n % 256 ^ width).toNat

/-- The number that a byte string denotes in two's complement. -/
def toInt (bytes : Bytes) : Int :=
  if 2 * toNat bytes < 256 ^ bytes.length then toNat bytes
  else toNat bytes - 256 ^ bytes.length

@[simp] theorem length_ofNat (width n : Nat) : (ofNat width n).length = width := by
  induction width with
  | zero => rfl
  | succ width ih => simp [ofNat, ih]

@[simp] theorem length_ofInt (width : Nat) (n : Int) : (ofInt width n).length = width := by
  simp [ofInt]

theorem toNat_lt (bytes : Bytes) : toNat bytes < 256 ^ bytes.length := by
  induction bytes with
  | nil => simp [toNat]
  | cons b rest ih =>
    have hb := b.toNat_lt
    have hm : b.toNat * 256 ^ rest.length ≤ 255 * 256 ^ rest.length :=
      Nat.mul_le_mul_right _ (by omega)
    simp only [toNat, List.length_cons, Nat.pow_succ]
    omega

theorem toNat_ofNat (width n : Nat) : toNat (ofNat width n) = n % 256 ^ width := by
  induction width with
  | zero => simp [ofNat, toNat, Nat.mod_one]
  | succ width ih =>
    have hs : n % 256 ^ (width + 1) = n % 256 ^ width + 256 ^ width * (n / 256 ^ width % 256) :=
      Nat.mod_pow_succ
    rw [ofNat, toNat, length_ofNat, ih, UInt8.toNat_ofNat', hs, Nat.mul_comm, Nat.add_comm]

end Bytes

end CqlWire
