import CqlWire.Document.Basic
import CqlWire.Text.Hex

namespace CqlWire.Document

namespace FromJson

/-- What a reading has found, and the characters after it. -/
abbrev Found (α : Type) := Option (α × List Char)

/-- Space, tab and the two line breaks. -/
def isBlank (c : Char) : Bool :=
  c = ' ' || c = '\t' || c = '\n' || c = '\r'

def skipBlanks (s : List Char) : List Char := s.dropWhile isBlank

/-- At least one digit. -/
def digits (s : List Char) : Found (List Char) :=
  match s.takeWhile Char.isDigit with
  | [] => none
  | ds => some (ds, s.dropWhile Char.isDigit)

/-- The digits before the point: a zero alone, or digits that start with none. -/
def whole : List Char → Found (List Char)
  | '0' :: rest => if rest.head?.any Char.isDigit then none else some (['0'], rest)
  | s => digits s

/-- The digits after a point, if there is one. -/
def fraction : List Char → Found Bool
  | '.' :: rest => (digits rest).map fun p => (true, p.2)
  | s => some (false, s)

/-- The power of ten, if there is one. -/
def power : List Char → Found Bool
  | c :: rest =>
    if c = 'e' ∨ c = 'E' then
      let rest := if rest.head? = some '+' ∨ rest.head? = some '-' then rest.drop 1 else rest
      (digits rest).map fun p => (true, p.2)
    else some (false, c :: rest)
  | [] => some (false, [])

/-- A number without its sign; only digits alone make a natural number. -/
def unsigned (s : List Char) : Option (Document × List Char) := do
  let (ds, s) ← whole s
  let (hasFraction, s) ← fraction s
  let (hasPower, s) ← power s
  if hasFraction || hasPower then return (other, s)
  else return (natural ((String.ofList ds).toNat?.getD 0), s)

def number : List Char → Found Document
  | '-' :: rest => (unsigned rest).map fun p => (other, p.2)
  | s => unsigned s

/-- The number of four hexadecimal digits. -/
def unit? (a b c d : Char) : Option Nat := do
  let a ← Hex.digitValue? a
  let b ← Hex.digitValue? b
  let c ← Hex.digitValue? c
  let d ← Hex.digitValue? d
  return ((a * 16 + b) * 16 + c) * 16 + d

/-- The character of an escape of one letter. -/
def escaped? (c : Char) : Option Char :=
  if c = '"' ∨ c = '\\' ∨ c = '/' then some c
  else if c = 'b' then some '\x08'
  else if c = 'f' then some '\x0c'
  else if c = 'n' then some '\n'
  else if c = 'r' then some '\r'
  else if c = 't' then some '\t'
  else none

/-- Whether a code unit is the first of a pair. -/
def isHigh (n : Nat) : Bool := 0xd800 ≤ n && n < 0xdc00

/-- Whether a code unit is the second of a pair. -/
def isLow (n : Nat) : Bool := 0xdc00 ≤ n && n < 0xe000

/-- The character of a pair of code units. -/
def pairOf (high low : Nat) : Char :=
  Char.ofNat (0x10000 + (high - 0xd800) * 0x400 + (low - 0xdc00))

/-- The characters up to the closing quote, the last of those before in front. A code unit of a pair
that stands alone makes the text none that can be used: `broken`. -/
def characters (broken : Bool) (before : List Char) : List Char → Found Document
  | '"' :: rest => some (if broken then other else text (String.ofList before.reverse), rest)
  | '\\' :: 'u' :: a :: b :: c :: d :: '\\' :: 'u' :: e :: f :: g :: h :: rest =>
    match unit? a b c d, unit? e f g h with
    | some n, some m =>
      if isHigh n then
        if isLow m then characters broken (pairOf n m :: before) rest
        else characters true before ('\\' :: 'u' :: e :: f :: g :: h :: rest)
      else if isLow n then characters true before ('\\' :: 'u' :: e :: f :: g :: h :: rest)
      else
        characters broken (Char.ofNat n :: before) ('\\' :: 'u' :: e :: f :: g :: h :: rest)
    | _, _ => none
  | '\\' :: 'u' :: a :: b :: c :: d :: rest =>
    match unit? a b c d with
    | some n =>
      if isHigh n || isLow n then characters true before rest
      else characters broken (Char.ofNat n :: before) rest
    | none => none
  | '\\' :: c :: rest =>
    match escaped? c with
    | some e => characters broken (e :: before) rest
    | none => none
  | c :: rest => if c < ' ' ∨ c = '\\' then none else characters broken (c :: before) rest
  | [] => none
termination_by s => s.length

/-- A text from its opening quote on. -/
def quoted : List Char → Found Document
  | '"' :: rest => characters false [] rest
  | _ => none

/-- A word that stands for a document. -/
def word (w : String) (d : Document) (s : List Char) : Found Document :=
  if s.take w.length = w.toList then some (d, s.drop w.length) else none

mutual

/-- A document in at most `limit` steps. -/
def value : (limit : Nat) → List Char → Found Document
  | 0, _ => none
  | limit + 1, s =>
    match skipBlanks s with
    | '\x7b' :: rest =>
      match skipBlanks rest with
      | '\x7d' :: rest => some (mapping [], rest)
      | rest => (members limit rest).map fun p => (mapping p.1, p.2)
    | '[' :: rest =>
      match skipBlanks rest with
      | ']' :: rest => some (sequence [], rest)
      | rest => (items limit rest).map fun p => (sequence p.1, p.2)
    | '"' :: rest => characters false [] rest
    | 't' :: rest => word "true" other ('t' :: rest)
    | 'f' :: rest => word "false" other ('f' :: rest)
    | 'n' :: rest => word "null" null ('n' :: rest)
    | rest => number rest

/-- Documents between commas up to the closing bracket. -/
def items : (limit : Nat) → List Char → Option (List Document × List Char)
  | 0, _ => none
  | limit + 1, s => do
    let (d, s) ← value limit s
    match skipBlanks s with
    | ',' :: rest =>
      let (ds, rest) ← items limit rest
      return (d :: ds, rest)
    | ']' :: rest => return ([d], rest)
    | _ => none

/-- Names and documents between commas up to the closing brace. -/
def members : (limit : Nat) → List Char → Option (List (Document × Document) × List Char)
  | 0, _ => none
  | limit + 1, s => do
    let (key, s) ← quoted (skipBlanks s)
    match skipBlanks s with
    | ':' :: rest =>
      let (d, s) ← value limit rest
      match skipBlanks s with
      | ',' :: rest =>
        let (ms, rest) ← members limit rest
        return ((key, d) :: ms, rest)
      | '\x7d' :: rest => return ([(key, d)], rest)
      | _ => none
    | _ => none

end

end FromJson

/-- What a JSON text says; `none` for a text that is no JSON or goes on after its end. -/
def ofJson? (input : String) : Option Document :=
  let s := input.toList
  match FromJson.value (2 * s.length + 2) s with
  | some (d, rest) => if (FromJson.skipBlanks rest).isEmpty then some d else none
  | none => none

end CqlWire.Document
