import CqlWire.Text.Numeral
import CqlWire.Yaml.Place

namespace CqlWire.Yaml

/-- How a scalar is written. -/
inductive Style where
  | plain
  | quoted
  /-- Lines that are kept as they are. -/
  | literal
  /-- Lines that are joined. -/
  | folded
deriving DecidableEq, Repr

/-- What the blanks and line breaks between two words stand for: blanks for themselves, a line feed
for a space, and the breaks after a line feed for themselves. -/
def joint (gap : List Char) : List Char :=
  match gap.filter isBreak with
  | [] => gap
  | ['\n'] => [' ']
  | '\n' :: breaks => breaks
  | breaks => breaks

/-! Scalars without quotes -/

/-- The marks that divide collections in brackets. -/
def isFlowMark (c : Char) : Bool := ",[]\x7b\x7d".toList.contains c

/-- The characters of a word and those after it; `none` for a colon that leads into a mark. -/
def plainWord? (inBrackets : Bool) : List Char → Option (List Char × List Char)
  | [] => some ([], [])
  | c :: rest =>
    if isSpace c then some ([], c :: rest)
    else if c = ':' && inBrackets && rest.head?.any (fun d => isFlowMark d || d = '?') then none
    else if (c = ':' && endsWord rest) || (inBrackets && isFlowMark c) then some ([], c :: rest)
    else (plainWord? inBrackets rest).map fun p => (c :: p.1, p.2)

/-- Whether a tab stands for indentation: before the column `least` of a line after the first. -/
def hasTabIndent (least : Nat) (gap : List Char) : Bool :=
  ((gap.splitOnP isBreak).drop 1).any fun blanks => (blanks.take least).contains '\t'

/-- The words of a scalar, in at most `limit` steps. `gap` stands before the first one. -/
def plainWords? (inBrackets : Bool) (least : Nat) :
    (limit : Nat) → (gap : List Char) → Place → Option (List Char × Place × Bool)
  | 0, _, _ => none
  | limit + 1, gap, p => do
    let (word, rest) ←
      if p.isAtBoundary || p.rest.head? = some '#' then some ([], p.rest)
      else plainWord? inBrackets p.rest
    if word.isEmpty then return ([], p, gap.any isBreak)
    let text := joint gap ++ word
    let gap := rest.takeWhile isSpace
    let p := p.upTo (rest.dropWhile isSpace)
    if hasTabIndent least gap then none
    else if gap.isEmpty || (!inBrackets && p.column < least) then
      return (text, p, gap.any isBreak)
    else
      let (more, p, brokeLine) ← plainWords? inBrackets least limit gap p
      return (text ++ more, p, brokeLine)

/-- A scalar without quotes whose further lines start at the column `least` or behind it, the place
after it and the space behind it, and whether that is on another line. -/
def plain? (inBrackets : Bool) (least : Nat) (p : Place) : Option (String × Place × Bool) := do
  let (text, p, brokeLine) ← plainWords? inBrackets least (p.rest.length + 1) [] p
  return (String.ofList text, p, brokeLine)

/-! Scalars in quotes -/

/-- The letters of escapes and the characters that they stand for. -/
def escapes : List (Char × Char) :=
  [('0', '\x00'), ('a', '\x07'), ('b', '\x08'), ('t', '\t'), ('\t', '\t'), ('n', '\n'),
    ('v', '\x0b'), ('f', '\x0c'), ('r', '\r'), ('e', '\x1b'), (' ', ' '), ('"', '"'), ('/', '/'),
    ('\\', '\\'), ('N', '\u0085'), ('_', '\u00a0'), ('L', '\u2028'), ('P', '\u2029')]

/-- The letters of escapes by number and how many digits follow each. -/
def numericEscapes : List (Char × Nat) := [('x', 2), ('u', 4), ('U', 8)]

/-- The character of hexadecimal digits. -/
def codePoint? (digits : List Char) : Option Char := do
  let n ← Numeral.inBase? 16 digits
  if h : n.isValidChar then some (Char.ofNatAux n h) else none

/-- The character that an escape stands for, from the letter on. -/
def escape? : List Char → Option (Char × List Char)
  | [] => none
  | c :: rest =>
    match numericEscapes.lookup c with
    | some width =>
      if width ≤ rest.length then (codePoint? (rest.take width)).map fun e => (e, rest.drop width)
      else none
    | none => (escapes.lookup c).map fun e => (e, rest)

/-- What ends a word inside quotes. -/
inductive WordEnd where
  /-- A blank or a line break. -/
  | gap
  /-- A backslash before a line break, which joins the lines. -/
  | joined
  /-- The closing quote. -/
  | closed
deriving DecidableEq, Repr

/-- A word inside quotes, what ends it, and the characters after that, in at most `limit` steps. -/
def quotedWord? (mark : Char) :
    (limit : Nat) → List Char → Option (List Char × WordEnd × List Char)
  | 0, _ => none
  | _, [] => some ([], .gap, [])
  | limit + 1, c :: rest =>
    let more (e : Char) (rest : List Char) :=
      (quotedWord? mark limit rest).map fun p => (e :: p.1, p.2)
    if isSpace c then some ([], .gap, c :: rest)
    else if c = mark then
      if mark = '\x27' && rest.head? = some mark then more mark (rest.drop 1)
      else some ([], .closed, rest)
    else if mark = '"' && c = '\\' then
      if rest.head?.any isBreak then some ([], .joined, rest.drop 1)
      else (escape? rest).bind fun p => more p.1 p.2
    else more c rest

/-- The words up to the closing quote, in at most `limit` steps. -/
def quotedWords? (mark : Char) : (limit : Nat) → Place → Option (List Char × Place)
  | 0, _ => none
  | limit + 1, p =>
    if p.isAtBoundary || p.rest.isEmpty then none
    else do
      let (word, wordEnd, rest) ← quotedWord? mark (p.rest.length + 1) p.rest
      let gap := rest.takeWhile isSpace
      let next := p.upTo (rest.dropWhile isSpace)
      match wordEnd with
      | .closed => return (word, p.upTo rest)
      | .joined =>
        let (more, p) ← quotedWords? mark limit next
        return (word ++ gap.filter isBreak ++ more, p)
      | .gap =>
        let (more, p) ← quotedWords? mark limit next
        return (word ++ joint gap ++ more, p)

/-- A scalar in quotes, and the place after it. -/
def quoted? (mark : Char) (p : Place) : Option (String × Place) := do
  let (text, p) ← quotedWords? mark (p.rest.length + 1) p.next
  return (String.ofList text, p)

/-! Scalars in lines of their own -/

/-- What becomes of the line breaks at the end. -/
inductive Chomping where
  | strip
  | clip
  | keep
deriving DecidableEq, Repr

/-- The sign of a chomping. -/
def chomping? (c : Char) : Option Chomping :=
  if c = '-' then some .strip else if c = '+' then some .keep else none

/-- The head of a scalar: chomping, and how much it is indented, where either is given. -/
def blockHead? (s : List Char) : Option (Chomping × Option Nat × List Char) :=
  let sign (s : List Char) : Option Chomping × List Char :=
    match s.head?.bind chomping? with
    | some c => (some c, s.drop 1)
    | none => (none, s)
  let (before, s) := sign s
  let (digit?, s) :=
    match s with
    | c :: rest => if c.isDigit then (some (c.toNat - 48), rest) else (none, s)
    | [] => (none, s)
  let (after, s) := if before.isSome || digit?.isNone then (none, s) else sign s
  if digit? = some 0 then none else some ((before.or after).getD .clip, digit?, s)

/-- Empty lines and the indentation of the line after them: the breaks, the greatest column of all
these lines, and the place. Without an indentation all spaces count. A tab cannot indent. -/
def blockGap? (indent? : Option Nat) :
    (limit : Nat) → (greatest : Nat) → Place → Option (List Char × Nat × Place)
  | 0, _, _ => none
  | limit + 1, greatest, p =>
    let spaces := (p.rest.takeWhile (· = ' ')).length
    let p := p.skip (indent?.elim spaces fun indent => min spaces (indent - p.column))
    let greatest := max greatest p.column
    match p.rest with
    | [] => some ([], greatest, p)
    | c :: _ =>
      if c = '\t' && indent?.all (p.column < ·) then none
      else if isBreak c then
        (blockGap? indent? limit greatest p.next).map fun r => (c :: r.1, r.2)
      else some ([], greatest, p)

/-- The lines from the column `indent` on, behind a text, the break after it, the breaks after that
one, and whether its last line starts with a blank. -/
def blockLines? (style : Style) (indent : Nat) :
    (limit : Nat) → (text first more : List Char) → (startsBlank : Bool) → Place →
      Option (List Char × List Char × List Char × Place)
  | 0, _, _, _, _, _ => none
  | limit + 1, text, first, more, startsBlank, p =>
    if p.column ≠ indent || p.rest.isEmpty then some (text, first, more, p)
    else do
      let isBlankLine := p.rest.head?.any isBlank
      let folds := style = .folded && first = ['\n'] && !startsBlank && !isBlankLine
      let before := if folds then (if more.isEmpty then [' '] else []) else first
      let line := p.rest.takeWhile fun c => !isBreak c
      let p := p.skipLine
      let (breaks, _, next) ← blockGap? (some indent) (p.rest.length + 1) 0 p.next
      blockLines? style indent limit (text ++ before ++ more ++ line) (p.rest.take 1) breaks
        isBlankLine next

/-- A scalar in the lines after its mark, which are indented to the column `least` or behind it. -/
def block? (style : Style) (least : Nat) (p : Place) : Option (String × Place) := do
  let (chomping, digit?, rest) ← blockHead? (p.rest.drop 1)
  let p ← (p.upTo rest).finishLine?
  let limit := p.rest.length + 1
  let given? := digit?.map fun digit => least - 1 + digit
  let (breaks, greatest, p) ← blockGap? given? limit 0 p
  let indent := given?.getD (max greatest (max least 1))
  let (text, first, more, p) ← blockLines? style indent limit [] [] breaks false p
  match chomping with
  | .strip => return (String.ofList text, p)
  | .clip => return (String.ofList (text ++ first), p)
  | .keep => return (String.ofList (text ++ first ++ more), p)

end CqlWire.Yaml
