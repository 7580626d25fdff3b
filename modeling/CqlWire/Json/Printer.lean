import CqlWire.Ieee.Text
import CqlWire.Json.Basic
import CqlWire.Text.Hex

namespace CqlWire.Json

/-- Numbers from 10^-5 to below 10^16 have no power of ten, and a positive power has its sign. -/
def numberStyle : Ieee.Style := ⟨-5, 15, true, .toEven⟩

/-- A character of a text: only quotes, backslashes and the controls below the space are escaped. -/
def escape (c : Char) : List Char :=
  if c = '"' then ['\\', '"']
  else if c = '\\' then ['\\', '\\']
  else if c = '\n' then ['\\', 'n']
  else if c = '\r' then ['\\', 'r']
  else if c = '\t' then ['\\', 't']
  else if c.toNat = 0x08 then ['\\', 'b']
  else if c.toNat = 0x0c then ['\\', 'f']
  else if c.toNat < 0x20 then ['\\', 'u'] ++ Hex.padded 4 c.toNat
  else [c]

/-- A text between quotes. -/
def quote (s : String) : List Char :=
  '"' :: s.toList.flatMap escape ++ ['"']

/-- The number of a finite double. -/
def realText (bits : UInt64) : List Char :=
  numberStyle.finiteText Ieee.double bits.toNat

mutual

/-- Without any blank. -/
def compactChars : Json → List Char
  | .null => "null".toList
  | .boolean b => if b then "true".toList else "false".toList
  | .integer n => n.repr.toList
  | .real bits => realText bits
  | .text s => quote s
  | .array items => '[' :: compactItems items ++ [']']
  | .object members => '\x7b' :: compactMembers members ++ ['\x7d']

/-- Items between commas. -/
def compactItems : List Json → List Char
  | [] => []
  | [j] => compactChars j
  | j :: js => compactChars j ++ ',' :: compactItems js

/-- Members between commas. -/
def compactMembers : List (String × Json) → List Char
  | [] => []
  | [(name, j)] => quote name ++ ':' :: compactChars j
  | (name, j) :: ms => quote name ++ ':' :: compactChars j ++ ',' :: compactMembers ms

end

/-- A new line with two blanks for each level. -/
def newLine (level : Nat) : List Char :=
  '\n' :: List.replicate (2 * level) ' '

mutual

/-- One item or member per line, two blanks deeper than what holds it. -/
def prettyChars (level : Nat) : Json → List Char
  | .array [] => "[]".toList
  | .array items => '[' :: prettyItems (level + 1) items ++ newLine level ++ [']']
  | .object [] => ['\x7b', '\x7d']
  | .object members => '\x7b' :: prettyMembers (level + 1) members ++ newLine level ++ ['\x7d']
  | j => compactChars j

/-- Items, each on a new line. -/
def prettyItems (level : Nat) : List Json → List Char
  | [] => []
  | [j] => newLine level ++ prettyChars level j
  | j :: js => newLine level ++ prettyChars level j ++ ',' :: prettyItems level js

/-- Members, each on a new line. -/
def prettyMembers (level : Nat) : List (String × Json) → List Char
  | [] => []
  | [(name, j)] => newLine level ++ quote name ++ ':' :: ' ' :: prettyChars level j
  | (name, j) :: ms =>
    newLine level ++ quote name ++ ':' :: ' ' :: prettyChars level j ++ ',' ::
      prettyMembers level ms

end

/-- The text of a value in one line. -/
def compact (j : Json) : String := String.ofList (compactChars j)

/-- The text of a value over several lines. -/
def pretty (j : Json) : String := String.ofList (prettyChars 0 j)

end CqlWire.Json
