import CqlWire.Error

namespace CqlWire

/-- A place in a byte string: how many bytes lie behind it, and those that follow. -/
structure Cursor where
  position : Nat
  rest : Bytes
deriving DecidableEq, Repr

/-- A step of reading: a result or an error, and where the cursor stands after it. -/
abbrev Reading (α : Type) := EStateM Error Cursor α

/-- The width of every length and count. -/
def lengthSize : Nat := 4

namespace Cursor

/-- The place before the first byte. -/
def ofBytes (bytes : Bytes) : Cursor := ⟨0, bytes⟩

/-- The number of bytes that follow. -/
def remaining (c : Cursor) : Nat := c.rest.length

/-- Whether a whole length or count can still follow. -/
def hasLength (c : Cursor) : Bool := lengthSize ≤ c.remaining

/-- The place `n` bytes further on. -/
def advance (c : Cursor) (n : Nat) : Cursor := ⟨c.position + n, c.rest.drop n⟩

end Cursor

namespace Reading

/-- The next `n` bytes; a failure does not move the cursor. -/
def bytes (n : Nat) : Reading Bytes := fun c =>
  if n ≤ c.remaining then .ok (c.rest.take n) (c.advance n)
  else .error (.malformed (.shortRead n c.position c.remaining)) c

/-- The next four bytes as a signed number. -/
def int32 : Reading Int := do
  return Bytes.toInt (← bytes lengthSize)

/-- A count, which is not negative. -/
def count : Reading Nat := do
  let n ← int32
  if n < 0 then throw (.malformed (.negativeCount n)) else return n.toNat

/-- A length and as many bytes; `none` when the length is negative. -/
def payload : Reading (Option Bytes) := do
  let n ← int32
  if n < 0 then return none else return some (← bytes n.toNat)

/-- All bytes that follow. -/
def rest : Reading Bytes := fun c => .ok c.rest (c.advance c.remaining)

/-- The result of reading a byte string from its start. -/
def run (reading : Reading α) (input : Bytes) : Except Error α :=
  match reading (.ofBytes input) with
  | .ok a _ => .ok a
  | .error e _ => .error e

end Reading

end CqlWire
