import CqlWire.Error
import CqlWire.Text.Blank

namespace CqlWire

/-- A place in a text: how many bytes of UTF-8 lie behind it, and the characters that follow. -/
structure Scan where
  offset : Nat
  rest : List Char
deriving DecidableEq, Repr

namespace Scan

/-- Why the reading of a type name stopped. -/
inductive Failure where
  | fault (cause : NameFault) (offset : Nat)
  | other (e : Error)
deriving DecidableEq, Repr

/-- The place before the first character. -/
def ofString (s : String) : Scan := ⟨0, s.toList⟩

/-- The next character. -/
def next? (s : Scan) : Option Char := s.rest.head?

/-- The place behind the next character. -/
def advance : Scan → Scan
  | ⟨offset, []⟩ => ⟨offset, []⟩
  | ⟨offset, c :: rest⟩ => ⟨offset + c.utf8Size, rest⟩

/-- The place behind the characters at the front that satisfy `p`. -/
def dropWhile (p : Char → Bool) (s : Scan) : Scan :=
  ⟨(s.rest.takeWhile p).foldl (fun n c => n + c.utf8Size) s.offset, s.rest.dropWhile p⟩

/-- The place of the next token. -/
def skipBlanks (s : Scan) : Scan := s.dropWhile isBlank

/-- Stops here for a fault. -/
def fail (cause : NameFault) (s : Scan) : Except Failure α :=
  .error (.fault cause s.offset)

/-- The place behind the token `want`. -/
def expect (want : Char) (s : Scan) : Except Failure Scan :=
  let s := s.skipBlanks
  if s.next? = some want then .ok s.advance else s.fail (.expected want s.next?)

/-- An identifier, and whether it stood between quotes. -/
structure Word where
  text : String
  quoted : Bool
deriving DecidableEq, Repr

/-- A character of an identifier without quotes. -/
def isWordChar (c : Char) : Bool :=
  ('a' ≤ c && c ≤ 'z') || ('A' ≤ c && c ≤ 'Z') || ('0' ≤ c && c ≤ '9') || c == '_'

/-- The characters up to the closing quote, where a quote written twice stands for one. -/
def quotedChars : Nat → List Char → Except Failure (List Char × Scan)
  | offset, [] => .error (.fault .openQuote offset)
  | offset, '"' :: '"' :: rest => do
    let (cs, s) ← quotedChars (offset + 2) rest
    return ('"' :: cs, s)
  | offset, c :: rest =>
    if c = '"' then .ok ([], ⟨offset + 1, rest⟩)
    else do
      let (cs, s) ← quotedChars (offset + c.utf8Size) rest
      return (c :: cs, s)

/-- The next token as an identifier, small letters unless it stands between quotes. -/
def word (s : Scan) : Except Failure (Word × Scan) :=
  let s := s.skipBlanks
  match s.rest with
  | '"' :: rest => do
    let (cs, s) ← quotedChars (s.offset + 1) rest
    return (⟨String.ofList cs, true⟩, s)
  | _ =>
    match s.rest.takeWhile isWordChar with
    | [] => s.fail .expectedName
    | cs => .ok (⟨String.ofList (cs.map Char.toLower), false⟩, s.dropWhile isWordChar)

end Scan

end CqlWire
