import CqlWire.Bytes.Word

namespace CqlWire

-- A power of natural numbers is always the one that computes.
attribute [local instance (high)] instPowNat

/-- A source of random words of 64 bits. -/
class RandomSource (σ : Type) where
  word : StateM σ UInt64

/-- The source that multiplies a counter with itself: each word folds the two halves of a product
of 128 bits. -/
structure Wyrand where
  counter : UInt64
deriving DecidableEq, Repr

namespace Wyrand

/-- What the counter grows by. -/
def step : UInt64 := 0x2d358dccaa6c78a5

/-- What the second factor differs by. -/
def mask : UInt64 := 0x8bb84b93962eacc9

/-- The word of a counter. -/
def mix (counter : UInt64) : UInt64 :=
  let product := counter.toNat * (counter ^^^ mask).toNat
  UInt64.ofNat (product % UInt64.size) ^^^ UInt64.ofNat (product / UInt64.size)

instance : RandomSource Wyrand where
  word := fun s =>
    let counter := s.counter + step
    (mix counter, ⟨counter⟩)

end Wyrand

namespace Random

variable {σ : Type} [RandomSource σ]

/-- A word of 64 bits. -/
def word64 : StateM σ Nat := do
  return (← RandomSource.word).toNat

/-- The lower half of a word. -/
def word32 : StateM σ Nat := do
  return (← word64) % UInt32.size

/-- Two words, the upper one first. -/
def word128 : StateM σ Nat := do
  let high ← word64
  let low ← word64
  return high * UInt64.size + low

/-- How often a number is drawn again at most. Random sources draw again without a bound; one that
gives nothing but unfit words never comes to an end. The bound, and the number that is taken when it
is reached, stand in for that and lie in the range of all other numbers. A fair source reaches it
with a chance of less than one half to the power of the bound. -/
def redraws : Nat := 1000

/-- A number below `n`, scaled down from a word of `width` bits. Words whose product with `n` has a
lower half below `floor` would make some numbers more likely; they are drawn again. -/
def scaled (width : Nat) (draw : StateM σ Nat) (n floor : Nat) : (redraws : Nat) → StateM σ Nat
  | 0 => return (← draw) * n / 2 ^ width
  | redraws + 1 => do
    let product := (← draw) * n
    if product % 2 ^ width < floor then scaled width draw n floor redraws
    else return product / 2 ^ width

/-- A number below `n` from words of 32 bits. -/
def below32 (n : Nat) : StateM σ Nat :=
  scaled 32 word32 n ((UInt32.size - n) % n) redraws

/-- A number below `n` from words of 64 bits. -/
def below64 (n : Nat) : StateM σ Nat :=
  scaled 64 word64 n ((UInt64.size - n) % n) redraws

/-- A number from 0 to `high`. -/
def upTo64 (high : Nat) : StateM σ Nat :=
  if high + 1 = UInt64.size then word64 else below64 (high + 1)

/-- Either of two. -/
def flag : StateM σ Bool := do
  return (← word32) % 2 = 0

/-- The letters and digits of ASCII. -/
def alphanumerics : List Char :=
  "ABCDEFGHIJKLMNOPQRSTUVWXYZabcdefghijklmnopqrstuvwxyz0123456789".toList

/-- A letter or a digit. -/
def alphanumeric : StateM σ Char := do
  return (alphanumerics[← below64 62]?).getD 'A'

/-- The results of `n` runs. -/
def times [Monad m] (n : Nat) (run : m α) : m (List α) :=
  match n with
  | 0 => return []
  | n + 1 => do
    let a ← run
    return a :: (← times n run)

/-- The bytes of a word, least significant first. -/
def wordBytes : StateM σ Bytes := do
  return (Bytes.ofNat 8 (← word64)).reverse

/-- As many bytes, those of whole words one after the other. -/
def bytes (length : Nat) : StateM σ Bytes := do
  let words ← times ((length + 7) / 8) wordBytes
  return words.flatten.take length

/-- A number from 0 to below 1 in double format. -/
def unitDouble : (redraws : Nat) → StateM σ Float
  | 0 => return 0
  | redraws + 1 => do
    let x := (UInt64.ofNat ((← word64) / 2)).toFloat / 9223372036854775808.0
    if x < 1 then return x else unitDouble redraws

/-- A number from 0 to below 1 in single format. -/
def unitSingle : (redraws : Nat) → StateM σ Float32
  | 0 => return 0
  | redraws + 1 => do
    let x := (UInt64.ofNat ((← word64) / 2)).toFloat32 / 9223372036854775808.0
    if x < 1 then return x else unitSingle redraws

end Random

end CqlWire
