namespace CqlWire.Ieee

-- A power of natural numbers is always the one that computes.
attribute [local instance (high)] instPowNat

/-- A binary floating-point format: the bits of the fraction and of the exponent. -/
structure Format where
  fraction : Nat
  exponent : Nat
deriving DecidableEq, Repr

/-- The format of `float`. -/
def single : Format := ⟨23, 8⟩

/-- The format of `double`. -/
def double : Format := ⟨52, 11⟩

namespace Format

/-- The exponent field of infinities and NaNs. -/
def top (f : Format) : Nat := 2 ^ f.exponent - 1

/-- The weight of the last fraction bit of the least numbers, as an exponent of two. -/
def least (f : Format) : Int := 2 - 2 ^ (f.exponent - 1) - f.fraction

/-- The fraction field. -/
def fractionOf (f : Format) (bits : Nat) : Nat := bits % 2 ^ f.fraction

/-- The exponent field. -/
def exponentOf (f : Format) (bits : Nat) : Nat := bits / 2 ^ f.fraction % 2 ^ f.exponent

/-- Whether the sign bit is set. -/
def isNegative (f : Format) (bits : Nat) : Bool := bits / 2 ^ (f.fraction + f.exponent) % 2 = 1

/-- Whether the bits are a number. -/
def isFinite (f : Format) (bits : Nat) : Bool := f.exponentOf bits ≠ f.top

/-- Whether the bits are no number and no infinity. -/
def isNaN (f : Format) (bits : Nat) : Bool :=
  f.exponentOf bits = f.top && f.fractionOf bits ≠ 0

/-- The magnitude of a number as `m * 2 ^ q`. -/
def decode (f : Format) (bits : Nat) : Nat × Int :=
  let e := f.exponentOf bits
  if e = 0 then (f.fractionOf bits, f.least)
  else (2 ^ f.fraction + f.fractionOf bits, f.least + e - 1)

/-- The bits of a sign and the two fields. -/
def join (f : Format) (negative : Bool) (exponent fraction : Nat) : Nat :=
  ((if negative then 2 ^ f.exponent else 0) + exponent) * 2 ^ f.fraction + fraction

end Format

/-- The place of the bits in the total order: negative NaNs, numbers from below to above with -0
before 0, positive NaNs. -/
def orderKey (width bits : Nat) : Int :=
  if bits < 2 ^ (width - 1) then bits else (2 ^ (width - 1) : Nat) - bits - 1

/-- The bits of the same number in double format. -/
def widen (bits : UInt32) : UInt64 :=
  let n := bits.toNat
  let exponent := single.exponentOf n
  let fraction := single.fractionOf n
  let lead := fraction.log2
  let longer := fraction * 2 ^ (double.fraction - single.fraction)
  let fields :=
    if exponent = single.top then (double.top, longer)
    else if 0 < exponent then (exponent + 896, longer)
    else if fraction = 0 then (0, 0)
    else (lead + 874, (fraction - 2 ^ lead) * 2 ^ (double.fraction - lead))
  UInt64.ofNat (double.join (single.isNegative n) fields.1 fields.2)

end CqlWire.Ieee
