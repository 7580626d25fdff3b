import CqlWire.Text.Hex

namespace CqlWire

/-- An internet address of either family. -/
inductive Address where
  | v4 (bits : BitVec 32)
  | v6 (bits : BitVec 128)
deriving DecidableEq, Repr

namespace Address

/-- The four or sixteen octets. -/
def toBytes : Address → Bytes
  | v4 bits => Bytes.ofNat 4 bits.toNat
  | v6 bits => Bytes.ofNat 16 bits.toNat

/-- The address of four or sixteen octets. -/
def ofBytes? (octets : Bytes) : Option Address :=
  if octets.length = 4 then some (v4 (BitVec.ofNat 32 (Bytes.toNat octets)))
  else if octets.length = 16 then some (v6 (BitVec.ofNat 128 (Bytes.toNat octets)))
  else none

/-- Four decimal numbers between points. -/
def dotted (octets : Bytes) : String :=
  ".".intercalate (octets.map fun b => b.toNat.repr)

/-- The eight 16-bit groups of a version 6 address. -/
def groups (bits : BitVec 128) : List Nat :=
  [7, 6, 5, 4, 3, 2, 1, 0].map fun i => (bits.extractLsb' (16 * i) 16).toNat

/-- The number of zeros at the front. -/
def zeroRun (l : List Nat) : Nat :=
  (l.takeWhile (· = 0)).length

/-- Start and length of the first longest run of zeros. -/
def longestZeroRun (l : List Nat) : Nat × Nat :=
  ((List.range l.length).map fun i => (i, zeroRun (l.drop i))).foldl
    (fun best run => if best.2 < run.2 then run else best) (0, 0)

/-- Groups in hexadecimal between colons. -/
def colons (l : List Nat) : String :=
  ":".intercalate (l.map fun g => String.ofList (Hex.ofNat g))

/-- The usual text: a dotted quad for version 4 and for version 4 mapped into version 6, otherwise
hexadecimal groups in which the first longest run of two or more zeros is left out. -/
def toText : Address → String
  | v4 bits => dotted (Bytes.ofNat 4 bits.toNat)
  | v6 bits =>
    if bits.extractLsb' 32 96 = 0xffff then
      "::ffff:" ++ dotted (Bytes.ofNat 4 bits.toNat)
    else
      let g := groups bits
      let run := longestZeroRun g
      if 1 < run.2 then colons (g.take run.1) ++ "::" ++ colons (g.drop (run.1 + run.2))
      else colons g

end Address

end CqlWire
