import CqlWire.Bytes.Word
import CqlWire.Yaml.Scalar

namespace CqlWire.Yaml

/-- What a text consists of. -/
inductive Token where
  | version (major minor : Nat)
  /-- A tag handle and what it stands for. -/
  | tagHandle (handle : String) (meaning : Bytes)
  | documentStart
  | documentEnd
  | blockSequenceStart
  | blockMappingStart
  | blockEnd
  | flowSequenceStart
  | flowSequenceEnd
  | flowMappingStart
  | flowMappingEnd
  | blockEntry
  | flowEntry
  | key
  | value
  | anchor (name : String)
  | reference (name : String)
  /-- The handle of a tag, empty for a tag that has none, and the rest of it. -/
  | tag (handle : String) (suffix : Bytes)
  | scalar (style : Style) (text : String)
deriving DecidableEq, Repr

/-! Anchors and tags -/

/-- A name after the mark of an anchor or a reference to one. -/
def anchorName? (p : Place) : Option (String × Place) :=
  let name := p.rest.takeWhile isNameChar
  let rest := p.rest.drop name.length
  if !name.isEmpty && (endsWord rest || rest.head?.any fun c => "?:,]\x7d%@\x60".toList.contains c)
  then some (String.ofList name, p.upTo rest)
  else none

/-- An octet after a percent sign. -/
def octet? : List Char → Option (Nat × List Char)
  | '%' :: a :: b :: rest => do return (16 * (← Hex.digitValue? a) + (← Hex.digitValue? b), rest)
  | _ => none

/-- How many octets a character has that starts with this one. -/
def octetCount? (first : Nat) : Option Nat :=
  if first < 0x80 then some 1
  else if first / 0x20 = 6 then some 2
  else if first / 0x10 = 0xe then some 3
  else if first / 8 = 0x1e then some 4
  else none

/-- As many octets that go on with a character. -/
def furtherOctets? : Nat → List Char → Option (List Nat × List Char)
  | 0, s => some ([], s)
  | n + 1, s => do
    let (octet, s) ← octet? s
    if octet / 0x40 ≠ 2 then none
    let (octets, s) ← furtherOctets? n s
    return (octet :: octets, s)

/-- The octets of one character, each after a percent sign. -/
def escapedOctets? (s : List Char) : Option (List Nat × List Char) := do
  let (first, s) ← octet? s
  let (octets, s) ← furtherOctets? ((← octetCount? first) - 1) s
  return (first :: octets, s)

/-- What tags consist of; commas and brackets only between angles. -/
def isTagChar (inAngles : Bool) (c : Char) : Bool :=
  isNameChar c || ";/?:@&=+$.!~*\x27()%".toList.contains c ||
    (inAngles && ",[]".toList.contains c)

/-- The octets of a tag in at most `limit` steps. -/
def tagOctets? (inAngles : Bool) : (limit : Nat) → List Char → Option (List Nat × List Char)
  | 0, _ => none
  | _, [] => some ([], [])
  | limit + 1, c :: rest => do
    if !isTagChar inAngles c then return ([], c :: rest)
    let (octets, rest) ← if c = '%' then escapedOctets? (c :: rest) else some ([c.toNat], rest)
    let (more, rest) ← tagOctets? inAngles limit rest
    return (octets ++ more, rest)

/-- The octets of a tag; an octet of zero ends them. -/
def tagText? (inAngles : Bool) (s : List Char) : Option (Bytes × List Char) := do
  let (octets, rest) ← tagOctets? inAngles (s.length + 1) s
  return ((octets.takeWhile (· ≠ 0)).map UInt8.ofNat, rest)

/-- A tag that cannot be empty. -/
def someTagText? (inAngles : Bool) (s : List Char) : Option (Bytes × List Char) :=
  if s.head?.any (isTagChar inAngles) then tagText? inAngles s else none

/-- A tag from its exclamation mark on: between angles, after a handle, or by itself. -/
def tag? : List Char → Option (Token × List Char)
  | '!' :: '<' :: rest => do
    let (text, rest) ← someTagText? true rest
    match rest with
    | '>' :: rest => return (.tag "" text, rest)
    | _ => none
  | '!' :: rest => do
    let name := rest.takeWhile isNameChar
    match rest.drop name.length with
    | '!' :: rest =>
      let (text, rest) ← someTagText? false rest
      return (.tag (String.ofList ('!' :: name ++ ['!'])) text, rest)
    | rest =>
      let (text, rest) ← tagText? false rest
      let suffix := name.map (fun c => UInt8.ofNat c.toNat) ++ text
      if suffix.isEmpty then return (.tag "" [0x21], rest) else return (.tag "!" suffix, rest)
  | _ => none

/-! Directives -/

/-- Part of a version: at most nine digits. -/
def versionPart? (s : List Char) : Option (Nat × List Char) :=
  let digits := s.takeWhile Char.isDigit
  if digits.length ≤ 9 then
    (Numeral.inBase? 10 digits).map fun n => (n, s.drop digits.length)
  else none

/-- Two parts between which there is a point. -/
def version? (s : List Char) : Option (Token × List Char) := do
  let (major, rest) ← versionPart? s
  match rest with
  | '.' :: rest =>
    let (minor, rest) ← versionPart? rest
    return (.version major minor, rest)
  | _ => none

/-- A handle between exclamation marks, or one such mark alone, and what it stands for. -/
def tagHandle? : List Char → Option (Token × List Char)
  | '!' :: rest => do
    let name := rest.takeWhile isNameChar
    let (handle, rest) ←
      match name, rest.drop name.length with
      | _, '!' :: rest => some ('!' :: name ++ ['!'], rest)
      | [], rest => some (['!'], rest)
      | _, _ => none
    if !rest.head?.any isBlank then none
    let (meaning, rest) ← someTagText? true (rest.dropWhile isBlank)
    if endsWord rest then return (.tagHandle (String.ofList handle) meaning, rest) else none
  | _ => none

/-- A line after a percent sign, and the next line. -/
def directive? (p : Place) : Option (Token × Place) := do
  let name := p.rest.takeWhile isNameChar
  let after := p.rest.drop name.length
  if !endsWord after then none
  let read ←
    if name = "YAML".toList then some version?
    else if name = "TAG".toList then some tagHandle?
    else none
  let (token, rest) ← read (after.dropWhile isBlank)
  return (token, ← (p.upTo rest).finishLine?)

/-! The tokens of a text -/

/-- The first token of what a colon may turn into a key. -/
structure Candidate where
  line : Nat
  column : Nat
  /-- How many tokens stand before it. -/
  position : Nat
  /-- Whether only a key can stand there. -/
  required : Bool
deriving DecidableEq, Repr

namespace Candidate

/-- Whether a colon at a place comes too late: on another line or far behind. -/
def isStale (p : Place) (c : Candidate) : Bool :=
  c.line < p.line || c.column + 1024 < p.column

/-- Drops a candidate that is stale; `none` where a key is required. -/
def refresh? (p : Place) (candidate? : Option Candidate) : Option (Option Candidate) :=
  match candidate? with
  | none => some none
  | some c => if !c.isStale p then some (some c) else if c.required then none else some none

end Candidate

/-- A text of which a part is divided into tokens. -/
structure Scanner where
  place : Place
  /-- The tokens of that part, the last one first. -/
  tokens : List Token
  /-- The columns of the open collections by indentation, the innermost first. -/
  columns : List Nat
  /-- The candidate within the innermost brackets. -/
  candidate? : Option Candidate
  /-- The candidates outside of each open bracket, the innermost first. -/
  outer : List (Option Candidate)
  /-- Whether a key may start here. -/
  startsKey : Bool
deriving Repr

namespace Scanner

/-- Nothing is divided yet. -/
def ofText (s : List Char) : Scanner := ⟨.ofText s, [], [], none, [], true⟩

/-- Whether brackets are open. -/
def inBrackets (s : Scanner) : Bool := !s.outer.isEmpty

/-- The least column of what the innermost collection by indentation may hold. -/
def least (s : Scanner) : Nat := s.columns.head?.elim 0 (· + 1)

/-- Adds a token, after which the text goes on at `p`. -/
def add (s : Scanner) (t : Token) (p : Place) : Scanner :=
  { s with tokens := t :: s.tokens, place := p }

/-- Adds a token of one character. -/
def addMark (s : Scanner) (t : Token) : Scanner := s.add t s.place.next

/-- Puts a token behind as many others. -/
def insert (s : Scanner) (position : Nat) (t : Token) : Scanner :=
  let later := s.tokens.length - position
  { s with tokens := s.tokens.take later ++ t :: s.tokens.drop later }

/-- Whether a key may start from here on. -/
def withKeys (s : Scanner) (startsKey : Bool) : Scanner := { s with startsKey := startsKey }

/-- Gives the candidate up; `none` where a key is required. -/
def dropCandidate? (s : Scanner) : Option Scanner :=
  if s.candidate?.any (·.required) then none else some { s with candidate? := none }

/-- Makes what starts here a candidate if a key may start. -/
def saveCandidate? (s : Scanner) : Option Scanner :=
  if s.startsKey then do
    let required := !s.inBrackets && s.columns.head? = some s.place.column
    let candidate : Candidate := ⟨s.place.line, s.place.column, s.tokens.length, required⟩
    return { ← s.dropCandidate? with candidate? := some candidate }
  else some s

/-- Drops the candidates that are stale. -/
def dropStale? (s : Scanner) : Option Scanner := do
  let candidate? ← Candidate.refresh? s.place s.candidate?
  let outer ← s.outer.mapM (Candidate.refresh? s.place)
  return { s with candidate? := candidate?, outer := outer }

/-- Opens a collection by indentation at a column, unless one is open there. -/
def openBlock (s : Scanner) (column position : Nat) (t : Token) : Scanner :=
  if s.inBrackets || column < s.least then s
  else { s.insert position t with columns := column :: s.columns }

/-- Opens a collection by indentation here; `none` where none may start. -/
def openHere? (s : Scanner) (t : Token) : Option Scanner :=
  if s.inBrackets then some s
  else if s.startsKey then some (s.openBlock s.place.column s.tokens.length t)
  else none

/-- Closes the collections by indentation whose columns are given up. -/
def closeBlocks (s : Scanner) (isClosed : Nat → Bool) : Scanner :=
  if s.inBrackets then s
  else
    let closed := (s.columns.takeWhile isClosed).map fun _ => Token.blockEnd
    { s with tokens := closed ++ s.tokens, columns := s.columns.drop closed.length }

/-- Closes all collections by indentation, after which no key may start. -/
def closeAll? (s : Scanner) : Option Scanner := do
  return (← (s.closeBlocks fun _ => true).dropCandidate?).withKeys false

/-- Opens brackets. -/
def openBracket? (s : Scanner) (t : Token) : Option Scanner := do
  let s ← s.saveCandidate?
  return { (s.addMark t).withKeys true with outer := s.candidate? :: s.outer, candidate? := none }

/-- Closes brackets, if any are open. -/
def closeBracket? (s : Scanner) (t : Token) : Option Scanner := do
  let s := ((← s.dropCandidate?).addMark t).withKeys false
  match s.outer with
  | [] => return s
  | candidate? :: outer => return { s with outer := outer, candidate? := candidate? }

/-- Takes a colon as the mark of a value, and the candidate as its key. -/
def addValue? (s : Scanner) : Option Scanner :=
  match s.candidate? with
  | some c =>
    let s := (s.insert c.position .key).openBlock c.column c.position .blockMappingStart
    some ({ s with candidate? := none }.withKeys false |>.addMark .value)
  | none => do
    return ((← s.openHere? .blockMappingStart).withKeys !s.inBrackets).addMark .value

/-- Adds a token that may be part of a key. -/
def addPart? (s : Scanner) (read : Place → Option (Token × Place)) : Option Scanner := do
  let s ← s.saveCandidate?
  let (t, p) ← read s.place
  return (s.withKeys false).add t p

/-- A tag; inside brackets a comma may follow at once. -/
def tagHere? (inBrackets : Bool) (p : Place) : Option (Token × Place) := do
  let (t, rest) ← tag? p.rest
  if endsWord rest || (inBrackets && rest.head? = some ',') then return (t, p.upTo rest)
  else none

/-- Adds a scalar without quotes. A key may start behind it on another line. -/
def addPlain? (s : Scanner) : Option Scanner := do
  let s ← s.saveCandidate?
  let (text, p, brokeLine) ← plain? s.inBrackets s.least s.place
  return (s.withKeys brokeLine).add (.scalar .plain text) p

/-- Adds a scalar in lines of its own, after which a key may start. -/
def addBlock? (s : Scanner) (style : Style) : Option Scanner := do
  let (text, p) ← block? style s.least s.place
  return ((← s.dropCandidate?).withKeys true).add (.scalar style text) p

/-- Whether a scalar without quotes may start here. -/
def startsPlain (inBrackets : Bool) : List Char → Bool
  | [] => false
  | c :: rest =>
    if c = '-' then !rest.head?.any isBlank
    else if c = '?' || c = ':' then !inBrackets && !endsWord rest
    else !(isSpace c || ",[]\x7b\x7d#&*!|>\x27\"%@\x60".toList.contains c)

/-- Divides the next token off. -/
def step? (s : Scanner) : Option Scanner :=
  let p := s.place
  if p.column = 0 && p.rest.head? = some '%' then do
    let (t, p) ← directive? p.next
    return (← s.closeAll?).add t p
  else if p.isAtMark '-' then s.closeAll?.map (·.add .documentStart (p.skip 3))
  else if p.isAtMark '.' then s.closeAll?.map (·.add .documentEnd (p.skip 3))
  else
    let ends := s.inBrackets || endsWord (p.rest.drop 1)
    match p.rest.head? with
    | some '[' => s.openBracket? .flowSequenceStart
    | some '\x7b' => s.openBracket? .flowMappingStart
    | some ']' => s.closeBracket? .flowSequenceEnd
    | some '\x7d' => s.closeBracket? .flowMappingEnd
    | some ',' => s.dropCandidate?.map fun s => (s.withKeys true).addMark .flowEntry
    | some '&' => s.addPart? fun p => (anchorName? p.next).map fun r => (.anchor r.1, r.2)
    | some '*' => s.addPart? fun p => (anchorName? p.next).map fun r => (.reference r.1, r.2)
    | some '!' => s.addPart? (tagHere? s.inBrackets)
    | some '\x27' => s.addPart? fun p => (quoted? '\x27' p).map fun r => (.scalar .quoted r.1, r.2)
    | some '"' => s.addPart? fun p => (quoted? '"' p).map fun r => (.scalar .quoted r.1, r.2)
    | some c =>
      if c = '-' && endsWord (p.rest.drop 1) then do
        let s ← (← s.openHere? .blockSequenceStart).dropCandidate?
        return (s.withKeys true).addMark .blockEntry
      else if c = '?' && ends then do
        let s ← (← s.openHere? .blockMappingStart).dropCandidate?
        return (s.withKeys !s.inBrackets).addMark .key
      else if c = ':' && ends then s.addValue?
      else if c = '|' && !s.inBrackets then s.addBlock? .literal
      else if c = '>' && !s.inBrackets then s.addBlock? .folded
      else if startsPlain s.inBrackets p.rest then s.addPlain?
      else none
    | none => none

/-- The next place with content. A byte order mark at the start of a line is read past but takes a
column. Inside brackets and where no key may start, tabs count as blank. -/
def content (inBrackets : Bool) :
    (startsKey inComment : Bool) → (line column : Nat) → List Char → Place × Bool
  | startsKey, _, line, column, [] => (⟨line, column, []⟩, startsKey)
  | startsKey, inComment, line, column, c :: rest =>
    if isBreak c then content inBrackets (startsKey || !inBrackets) false (line + 1) 0 rest
    else if inComment || c = ' ' || (c = '\t' && (inBrackets || !startsKey)) ||
        (c = '\ufeff' && column = 0) then
      content inBrackets startsKey inComment line (column + 1) rest
    else if c = '#' then content inBrackets startsKey true line (column + 1) rest
    else (⟨line, column, c :: rest⟩, startsKey)

/-- Goes on to the next place with content. -/
def toContent (s : Scanner) : Scanner :=
  let p := s.place
  let (place, startsKey) := content s.inBrackets s.startsKey false p.line p.column p.rest
  { s with place := place, startsKey := startsKey }

/-- Divides the rest of a text in at most `limit` steps. -/
def run? : (limit : Nat) → Scanner → Option (List Token)
  | 0, _ => none
  | limit + 1, s => do
    let s ← s.toContent.dropStale?
    let s := s.closeBlocks (s.place.column < ·)
    if s.place.rest.isEmpty then return (← s.closeAll?).tokens.reverse
    run? limit (← s.step?)

end Scanner

/-- The tokens of a text; `none` where some part of it is no token. -/
def tokens? (s : List Char) : Option (List Token) :=
  if s.all isAllowed then (Scanner.ofText s).run? (s.length + 2) else none

end CqlWire.Yaml
