import CqlWire.Ieee.Bits

namespace CqlWire.Ieee

-- A power of natural numbers is always the one that computes.
attribute [local instance (high)] instPowNat

/-- Which of two equally near decimal numbers is taken. -/
inductive Tie where
  | toEven
  | up
deriving DecidableEq, Repr

/-- The numbers `low / unit` to `high / unit` that read back as the number `value / unit`, the ends
among them where `closed`. -/
structure Interval where
  low : Nat
  value : Nat
  high : Nat
  unit : Nat
  closed : Bool
deriving DecidableEq, Repr

namespace Interval

/-- Whether `n / unit` is in the interval. -/
def holds (i : Interval) (n : Nat) : Bool :=
  if i.closed then i.low ≤ n && n ≤ i.high else i.low < n && n < i.high

/-- The multiple of `1` in the interval that is nearest to the value. -/
def nearest? (tie : Tie) (i : Interval) : Option Nat :=
  let below := i.value / i.unit
  let above := below + 1
  let rest := i.value % i.unit
  let upper :=
    match compare (2 * rest) i.unit with
    | .lt => false
    | .gt => true
    | .eq =>
      match tie with
      | .toEven => below % 2 = 1
      | .up => true
  match i.holds (below * i.unit), i.holds (above * i.unit) with
  | true, true => some (if upper then above else below)
  | true, false => some below
  | false, true => some above
  | false, false => none

/-- The interval with all numbers divided by `10 ^ k`. -/
def scale (i : Interval) (k : Int) : Interval :=
  if 0 ≤ k then { i with unit := i.unit * 10 ^ k.toNat }
  else
    let p := 10 ^ (-k).toNat
    { i with low := i.low * p, value := i.value * p, high := i.high * p }

end Interval

/-- The interval of the number with the bits `bits`, which is finite and not zero. -/
def interval (f : Format) (bits : Nat) : Interval :=
  let (m, q) := f.decode bits
  let gap := if f.fractionOf bits = 0 ∧ 1 < f.exponentOf bits then 1 else 2
  let p := q - 2
  let up := 2 ^ p.toNat
  ⟨(4 * m - gap) * up, 4 * m * up, (4 * m + 2) * up, 2 ^ (-p).toNat, m % 2 = 0⟩

/-- The first hit on the grids `10 ^ k`, `10 ^ (k - 1)` and so on, as digits and exponent. -/
def search (tie : Tie) (i : Interval) : (steps : Nat) → Int → Nat × Int
  | 0, k => ((i.scale k).value / (i.scale k).unit, k)
  | steps + 1, k =>
    match (i.scale k).nearest? tie with
    | some n => (n, k)
    | none => search tie i steps (k - 1)

/-- The fewest decimal digits that read back as the same number, and of those the nearest, as `n`
and `k` in `n * 10 ^ k`. -/
def shortest (f : Format) (tie : Tie) (bits : Nat) : Nat × Int :=
  let (m, q) := f.decode bits
  let start := ((m.log2 + q + 1) * 30103).fdiv 100000 + 2
  search tie (interval f bits) 24 start

end CqlWire.Ieee
