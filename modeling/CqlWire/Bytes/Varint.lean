import CqlWire.Bytes.Word

namespace CqlWire.Varint

/-- The magnitude that decides the width: `n` itself, or `-n - 1` below zero. -/
def magnitude (n : Int) : Nat :=
  if 0 ≤ n then n.toNat else (-n - 1).toNat

/-- The number of bits without leading zeros. -/
def bitLength (n : Nat) : Nat :=
  if n = 0 then 0 else n.log2 + 1

/-- The least number of bytes, at least one, that hold `n` in two's complement. -/
def width (n : Int) : Nat :=
  bitLength (magnitude n) / 8 + 1

/-- The shortest non-empty two's complement form of `n`. -/
def encode (n : Int) : Bytes :=
  Bytes.ofInt (width n) n

/-- The integer that a byte string denotes, however long it is written. -/
def decode (bytes : Bytes) : Int :=
  Bytes.toInt bytes

end CqlWire.Varint
