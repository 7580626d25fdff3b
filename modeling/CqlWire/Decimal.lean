namespace CqlWire

-- A power of natural numbers is always the one that computes.
attribute [local instance (high)] instPowNat

/-- The number `unscaled * 10 ^ (-scale)`, kept with its scale: `1.0` and `1.00` differ. -/
structure Decimal where
  unscaled : Int
  scale : Int32
deriving DecidableEq, Repr

namespace Decimal

/-- The number of decimal digits, one for zero. -/
def digitCount (n : Nat) : Nat :=
  (Nat.toDigits 10 n).length

/-- The exponent `e` with `10 ^ (e - 1) ≤ |d| < 10 ^ e` for a number other than zero. -/
def exponent (d : Decimal) : Int :=
  digitCount d.unscaled.natAbs - d.scale.toInt

/-- The unscaled parts after the one with the smaller scale is brought to the larger. -/
def align (a b : Decimal) : Int × Int :=
  if a.scale.toInt ≤ b.scale.toInt then
    (a.unscaled * 10 ^ (b.scale.toInt - a.scale.toInt).toNat, b.unscaled)
  else (a.unscaled, b.unscaled * 10 ^ (a.scale.toInt - b.scale.toInt).toNat)

/-- The order of the numbers, whatever their scales: by sign, then by order of magnitude, and by
the digits only within one magnitude. -/
def numericOrder (a b : Decimal) : Ordering :=
  match compare a.unscaled.sign b.unscaled.sign with
  | .eq =>
    if a.unscaled = 0 then .eq
    else
      match compare a.exponent b.exponent with
      | .eq => compare (align a b).1 (align a b).2
      | order => if a.unscaled < 0 then order.swap else order
  | order => order

/-- The order of the numbers, and of the scales between equal numbers. -/
def order (a b : Decimal) : Ordering :=
  (numericOrder a b).then (compare a.scale.toInt b.scale.toInt)

/-- The sign, the digits before the point and exactly `scale` digits after it; no point and
`-scale` more zeros where the scale is not positive. -/
def toText (d : Decimal) : String :=
  let scale := d.scale.toInt
  if scale ≤ 0 then
    d.unscaled.repr ++ String.ofList (List.replicate (-scale).toNat '0')
  else
    let digits := Nat.toDigits 10 d.unscaled.natAbs
    let places := scale.toNat
    let sign := if d.unscaled < 0 then "-" else ""
    if places < digits.length then
      sign ++ String.ofList (digits.take (digits.length - places)) ++ "." ++
        String.ofList (digits.drop (digits.length - places))
    else
      sign ++ "0." ++ String.ofList (List.replicate (places - digits.length) '0') ++
        String.ofList digits

end Decimal

end CqlWire
