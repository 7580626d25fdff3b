import CqlWire.Bytes.Word
import CqlWire.Text.Blank

namespace CqlWire.Hex

/-- The lower-case digit of a number below sixteen. -/
def digit (n : Nat) : Char :=
  if n < 10 then Char.ofNat (48 + n) else Char.ofNat (87 + n)

/-- The number of a digit in either case. -/
def digitValue? (c : Char) : Option Nat :=
  if '0' ≤ c ∧ c ≤ '9' then some (c.toNat - 48)
  else if 'a' ≤ c ∧ c ≤ 'f' then some (c.toNat - 87)
  else if 'A' ≤ c ∧ c ≤ 'F' then some (c.toNat - 55)
  else none

/-- Two lower-case digits. -/
def ofByte (b : UInt8) : List Char :=
  [digit (b.toNat / 16), digit (b.toNat % 16)]

/-- Two lower-case digits per byte. -/
def digits (bytes : Bytes) : List Char :=
  bytes.flatMap ofByte

/-- Lower-case digits after the mark `0x`. -/
def ofBytes (bytes : Bytes) : String :=
  String.ofList ('0' :: 'x' :: digits bytes)

/-- Reads pairs of digits; `none` for a lone digit or a character that is none. -/
def toBytes? : List Char → Option Bytes
  | [] => some []
  | [_] => none
  | a :: b :: rest => do
    let high ← digitValue? a
    let low ← digitValue? b
    return UInt8.ofNat (16 * high + low) :: (← toBytes? rest)

/-- A number in lower-case digits without leading zeros. -/
def ofNat (n : Nat) : List Char :=
  Nat.toDigits 16 n

/-- A number in lower-case digits, zeros put in front up to `width` digits. -/
def padded (width n : Nat) : List Char :=
  List.replicate (width - (ofNat n).length) '0' ++ ofNat n

/-- Why a text is no byte string. -/
inductive Fault where
  | badDigit (c : Char)
  | oddLength
deriving DecidableEq, Repr

/-- Removes every leading `0x`. -/
def dropMarks : List Char → List Char
  | '0' :: 'x' :: rest => dropMarks rest
  | text => text

/-- Reads a byte string written with blanks anywhere and any number of leading `0x`. -/
def read (text : List Char) : Except Fault Bytes :=
  let digits := (dropMarks (trimBlanks text)).filter fun c => !isBlank c
  match digits.find? fun c => (digitValue? c).isNone with
  | some c => .error (.badDigit c)
  | none =>
    match toBytes? digits with
    | some bytes => .ok bytes
    | none => .error .oddLength

theorem digitValue?_digit {n : Nat} (h : n < 16) : digitValue? (digit n) = some n := by
  revert n
  decide

theorem toBytes?_digits (bytes : Bytes) : toBytes? (digits bytes) = some bytes := by
  induction bytes with
  | nil => rfl
  | cons b rest ih =>
    have hb := b.toNat_lt
    have hh := digitValue?_digit (show b.toNat / 16 < 16 by omega)
    have hl := digitValue?_digit (show b.toNat % 16 < 16 by omega)
    have he : UInt8.ofNat (16 * (b.toNat / 16) + b.toNat % 16) = b := by
      rw [Nat.div_add_mod]
      exact UInt8.ofNat_toNat
    have hd : digits (b :: rest) =
        digit (b.toNat / 16) :: digit (b.toNat % 16) :: digits rest := rfl
    rw [hd]
    simp only [toBytes?, hh, hl, ih, Option.bind_eq_bind, Option.bind_some, he]
    rfl

end CqlWire.Hex
