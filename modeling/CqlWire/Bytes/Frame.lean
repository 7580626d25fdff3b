import CqlWire.Bytes.Cursor

namespace CqlWire

/-- The encoding of an element; `none` is null. -/
abbrev Payload := Option Bytes

namespace Frame

/-- One more than the largest length and count. -/
def limit : Nat := 0x80000000

/-- The four bytes of a count. -/
def count (n : Nat) : Except Error Bytes :=
  if n < limit then .ok (Bytes.ofNat lengthSize n) else .error (.malformed (.countTooLarge n))

/-- A payload after its length, null as the length -1. -/
def payload : Payload → Except Error Bytes
  | none => .ok (Bytes.ofInt lengthSize (-1))
  | some bytes =>
    if bytes.length < limit then .ok (Bytes.ofNat lengthSize bytes.length ++ bytes)
    else .error (.malformed (.payloadTooLarge bytes.length))

/-- The frames of several payloads, one after the other. -/
def payloads : List Payload → Except Error Bytes
  | [] => .ok []
  | p :: rest => do
    let head ← payload p
    return head ++ (← payloads rest)

/-- How a sequence of frames ends: in order, or with an error. -/
inductive Tail where
  | clean
  | fault (e : Error)
deriving DecidableEq, Repr

/-- The outcome of what stands before a tail. -/
def Tail.close (tail : Tail) (a : α) : Except Error α :=
  match tail with
  | clean => .ok a
  | fault e => .error e

/-- What may follow the last frame: less than a length. -/
def ending (c : Cursor) : Tail :=
  if c.hasLength then .fault (.malformed (.trailingAt c.remaining c.position)) else .clean

/-- Up to `n` payloads and how they end. Bytes that give out where a length should stand end the
sequence early and in order. -/
def read : Nat → Cursor → List Payload × Tail
  | 0, c => ([], ending c)
  | n + 1, c =>
    if c.hasLength then
      match Reading.payload c with
      | .ok p c =>
        let (ps, tail) := read n c
        (p :: ps, tail)
      | .error e _ => ([], .fault e)
    else ([], .clean)

end Frame

end CqlWire
