import CqlWire.Text.Hex

namespace CqlWire.Numeral

/-- A number of at most 64 bits in decimal digits, with or without a plus sign. -/
def readWord? (s : List Char) : Option Nat :=
  let digits := if s.head? = some '+' then s.drop 1 else s
  if digits.isEmpty || !digits.all Char.isDigit then none
  else
    let n := digits.foldl (fun n c => n * 10 + (c.toNat - 48)) 0
    if n < UInt64.size then some n else none

/-- A number in digits below `base`, of which there is at least one. -/
def inBase? (base : Nat) : List Char → Option Nat
  | [] => none
  | digits =>
    digits.foldlM (fun n c => do
      let d ← Hex.digitValue? c
      if d < base then some (n * base + d) else none) 0

end CqlWire.Numeral
