import CqlWire.Text.Hex

namespace CqlWire

/-- A universally unique identifier. -/
structure Uuid where
  bits : BitVec 128
deriving DecidableEq, Repr

namespace Uuid

/-- The sixteen bytes, most significant first. -/
def toBytes (u : Uuid) : Bytes :=
  Bytes.ofNat 16 u.bits.toNat

/-- The identifier that the low 128 bits of a byte string spell. -/
def ofBytes (bytes : Bytes) : Uuid :=
  ⟨BitVec.ofNat 128 (Bytes.toNat bytes)⟩

/-- The version, which stands in the upper half of the seventh byte. -/
def version (u : Uuid) : Nat :=
  (u.bits.extractLsb' 76 4).toNat

/-- The 60-bit time stamp of a version 1 identifier, in ticks of 100 ns. Its lowest part stands
first in the identifier. -/
def ticks (u : Uuid) : Nat :=
  (u.bits.extractLsb' 64 12 ++ u.bits.extractLsb' 80 16 ++ u.bits.extractLsb' 96 32).toNat

/-- The version 1 identifier of a time stamp, a clock sequence and a node. -/
def ofTicks (ticks : BitVec 60) (clock : BitVec 14) (node : BitVec 48) : Uuid :=
  ⟨ticks.extractLsb' 0 32 ++ ticks.extractLsb' 32 16 ++ 1#4 ++ ticks.extractLsb' 48 12 ++
    2#2 ++ clock ++ node⟩

/-- The upper half as a signed number. -/
def signedHigh (u : Uuid) : Int :=
  (u.bits.extractLsb' 64 64).toInt

/-- The lower half as a signed number. -/
def signedLow (u : Uuid) : Int :=
  (u.bits.extractLsb' 0 64).toInt

/-- Groups of 8, 4, 4, 4 and 12 lower-case digits between hyphens. -/
def toText (u : Uuid) : String :=
  let d := Hex.digits u.toBytes
  String.ofList (d.take 8 ++ '-' :: (d.drop 8).take 4 ++ '-' :: (d.drop 12).take 4 ++
    '-' :: (d.drop 16).take 4 ++ '-' :: d.drop 20)

/-- Removes the hyphens of the five groups; `none` unless they stand exactly there. -/
def dropHyphens? (s : List Char) : Option (List Char) :=
  if s.length = 36 ∧ [8, 13, 18, 23].all fun i => s[i]? = some '-' then
    some (s.take 8 ++ (s.drop 9).take 4 ++ (s.drop 14).take 4 ++ (s.drop 19).take 4 ++ s.drop 24)
  else none

/-- Removes a pair of braces or the mark `urn:uuid:`, either around hyphenated digits. -/
def unwrap? (s : List Char) : Option (List Char) :=
  if s.length = 32 then some s
  else if s.length = 36 then dropHyphens? s
  else if s.length = 38 ∧ s.head? = some '{' ∧ s.getLast? = some '}' then
    dropHyphens? (s.drop 1).dropLast
  else if s.length = 45 ∧ s.take 9 = "urn:uuid:".toList then dropHyphens? (s.drop 9)
  else none

/-- Reads 32 digits in either case, bare, hyphenated, hyphenated in braces or hyphenated after
`urn:uuid:`. -/
def ofText? (s : String) : Option Uuid := do
  let digits ← unwrap? s.toList
  let bytes ← Hex.toBytes? digits
  return ofBytes bytes

end Uuid

end CqlWire
