namespace CqlWire.Yaml

/-- Line feeds and the separators of lines and paragraphs; a text has no other line breaks once
`unifyBreaks` has seen it. -/
def isBreak (c : Char) : Bool := c = '\n' || c = '\u2028' || c = '\u2029'

/-- Space and tab. -/
def isBlank (c : Char) : Bool := c = ' ' || c = '\t'

/-- What may stand between words. -/
def isSpace (c : Char) : Bool := isBlank c || isBreak c

/-- What names consist of. -/
def isNameChar (c : Char) : Bool := c.isAlphanum || c = '-' || c = '_'

/-- Whether a word may end before these characters. -/
def endsWord (s : List Char) : Bool := s.head?.all isSpace

/-- Whether a line ends before these characters. -/
def endsLine (s : List Char) : Bool := s.head?.all isBreak

/-- Line feeds in place of carriage returns, with or without a line feed after them, and of next
lines. -/
def unifyBreaks : List Char → List Char
  | '\r' :: '\n' :: rest => '\n' :: unifyBreaks rest
  | c :: rest => (if c = '\r' || c = '\u0085' then '\n' else c) :: unifyBreaks rest
  | [] => []

/-- The characters that may stand in a text: no control character but tab and line breaks. -/
def isAllowed (c : Char) : Bool :=
  let n := c.toNat
  c = '\t' || c = '\n' || c = '\r' || (0x20 ≤ n && n ≤ 0x7e) || n = 0x85 ||
    (0xa0 ≤ n && n ≤ 0xfffd) || 0x10000 ≤ n

/-- A place in a text: its line, its column, and the characters from there on. -/
structure Place where
  line : Nat
  column : Nat
  rest : List Char
deriving DecidableEq, Repr

namespace Place

/-- The first place of a text. -/
def ofText (s : List Char) : Place := ⟨0, 0, unifyBreaks s⟩

/-- The place after one character. -/
def next (p : Place) : Place :=
  match p.rest with
  | [] => p
  | c :: rest => if isBreak c then ⟨p.line + 1, 0, rest⟩ else ⟨p.line, p.column + 1, rest⟩

/-- The place after some characters. -/
def skip (p : Place) : Nat → Place
  | 0 => p
  | n + 1 => p.next.skip n

/-- The place where `rest` is left. -/
def upTo (p : Place) (rest : List Char) : Place :=
  p.skip (p.rest.length - rest.length)

/-- Whether a line starts here with a mark of three characters that stands alone. -/
def isAtMark (p : Place) (c : Char) : Bool :=
  p.column = 0 && p.rest.take 3 = [c, c, c] && endsWord (p.rest.drop 3)

/-- Whether a document starts or ends here. -/
def isAtBoundary (p : Place) : Bool := p.isAtMark '-' || p.isAtMark '.'

/-- The place after blanks on the same line. -/
def skipBlanks (p : Place) : Place := p.upTo (p.rest.dropWhile isBlank)

/-- The end of the line. -/
def skipLine (p : Place) : Place := p.upTo (p.rest.dropWhile fun c => !isBreak c)

/-- The next line, if nothing but blanks and a comment are left on this one. -/
def finishLine? (p : Place) : Option Place :=
  let p := p.skipBlanks
  let p := if p.rest.head? = some '#' then p.skipLine else p
  if endsLine p.rest then some p.next else none

end Place

end CqlWire.Yaml
