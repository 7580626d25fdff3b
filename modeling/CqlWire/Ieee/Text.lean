import CqlWire.Ieee.Shortest

namespace CqlWire.Ieee

/-- How numbers are written: the exponents of ten that are written without a power of ten, whether
a positive power has its sign, and which of two equally near numbers is taken. -/
structure Style where
  fixedFrom : Int
  fixedTo : Int
  plusSign : Bool
  tie : Tie
deriving DecidableEq, Repr

/-- The digits around a point, with at least one digit on each side. -/
def fixedText (digits : List Char) (exponent : Int) : List Char :=
  if exponent < 0 then
    '0' :: '.' :: List.replicate (-exponent - 1).toNat '0' ++ digits
  else
    let whole := exponent.toNat + 1
    if digits.length ≤ whole then
      digits ++ List.replicate (whole - digits.length) '0' ++ ['.', '0']
    else digits.take whole ++ '.' :: digits.drop whole

/-- One digit, the others after a point, and a power of ten. -/
def powerText (plusSign : Bool) (digits : List Char) (exponent : Int) : List Char :=
  let mark := if plusSign && 0 ≤ exponent then ['+'] else []
  let fraction := if digits.length ≤ 1 then [] else '.' :: digits.drop 1
  digits.take 1 ++ fraction ++ 'e' :: mark ++ exponent.repr.toList

/-- The text of a finite number. -/
def Style.finiteText (style : Style) (f : Format) (bits : Nat) : List Char :=
  let sign := if f.isNegative bits then ['-'] else []
  if (f.decode bits).1 = 0 then sign ++ ['0', '.', '0']
  else
    let (n, k) := shortest f style.tie bits
    let digits := Nat.toDigits 10 n
    let exponent := digits.length - 1 + k
    if style.fixedFrom ≤ exponent ∧ exponent ≤ style.fixedTo then
      sign ++ fixedText digits exponent
    else sign ++ powerText style.plusSign digits exponent

/-- The text of an infinity or of no number. -/
def specialText (f : Format) (bits : Nat) : String :=
  if f.isNaN bits then "NaN" else if f.isNegative bits then "-inf" else "inf"

/-- The text of any bits. -/
def Style.text (style : Style) (f : Format) (bits : Nat) : String :=
  if f.isFinite bits then String.ofList (style.finiteText f bits) else specialText f bits

end CqlWire.Ieee
