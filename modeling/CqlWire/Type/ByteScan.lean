import CqlWire.Type.Parser

namespace CqlWire

/-- A place in the UTF-8 form of a text, and the number of brackets that are open there. -/
structure ByteScan where
  offset : Nat
  brackets : Nat
deriving DecidableEq, Repr

namespace ByteScan

open Scan (Failure Word)

/-- A step of the reading of a type name, which keeps the place that it came to when it fails. It
has no outcome where it cuts the text outside its bounds or inside a character, where it closes a
bracket that is not open, and where it runs out of fuel. -/
abbrev Step (α : Type) := ExceptT Failure (StateT ByteScan Option) α

/-- No outcome. -/
def stuck {α : Type} : Step α := fun _ => none

/-- Stops here for a fault. -/
def fail {α : Type} (cause : NameFault) : Step α := do
  throw (.fault cause (← get).offset)

/-- Moves on by a number of bytes. -/
def skip (bytes : Nat) : Step Unit :=
  modify fun s => { s with offset := s.offset + bytes }

/-- The same place behind an opening bracket. -/
def openBracket (s : ByteScan) : ByteScan :=
  { s with brackets := s.brackets + 1 }

/-- The same place behind a closing bracket. -/
def closeBracket? (s : ByteScan) : Option ByteScan :=
  match s.brackets with
  | 0 => none
  | brackets + 1 => some { s with brackets }

section

variable (input : String)

/-- The next character of the text. -/
def next? : Step (Option Char) := do
  match input.pos? ⟨(← get).offset⟩ with
  | some start => return (input.sliceFrom start).front?
  | none => stuck

/-- Within a character there is no next one. -/
example : next? "é" ⟨1, 0⟩ = none := by rfl

/-- The text from one byte to another. -/
def cut (start stop : Nat) : Step String :=
  match input.pos? ⟨start⟩, input.pos? ⟨stop⟩ with
  | some start, some stop =>
    match input.slice? start stop with
    | some text => return text.copy
    | none => stuck
  | _, _ => stuck

/-- Moves on to the next token. -/
def skipBlanks : (fuel : Nat) → Step Unit
  | 0 => stuck
  | fuel + 1 => do
    match ← next? input with
    | some c =>
      if isBlank c then
        skip c.utf8Size
        skipBlanks fuel
      else return ()
    | none => return ()

/-- The text up to the closing quote, behind what has been read of it. -/
def quotedText : (fuel : Nat) → (done : String) → Step String
  | 0, _ => stuck
  | fuel + 1, done => do
    match ← next? input with
    | some c =>
      if c = '"' then
        skip 1
        if (← next? input) = some '"' then
          skip 1
          quotedText fuel (done.push '"')
        else return done
      else
        skip c.utf8Size
        quotedText fuel (done.push c)
    | none => fail .openQuote

/-- Moves on behind the characters of an identifier without quotes. -/
def skipWord : (fuel : Nat) → Step Unit
  | 0 => stuck
  | fuel + 1 => do
    match ← next? input with
    | some c =>
      if Scan.isWordChar c then
        skip 1
        skipWord fuel
      else return ()
    | none => return ()

/-- Moves on behind the token `want`. -/
def expect (fuel : Nat) (want : Char) : Step Unit := do
  skipBlanks input fuel
  match ← next? input with
  | some c => if c = want then skip c.utf8Size else fail (.expected want (some c))
  | none => fail (.expected want none)

/-- The next token as an identifier, small letters unless it stands between quotes. -/
def word (fuel : Nat) : Step Word := do
  skipBlanks input fuel
  if (← next? input) = some '"' then
    skip 1
    return ⟨← quotedText input fuel "", true⟩
  else
    let start := (← get).offset
    skipWord input fuel
    let stop := (← get).offset
    if start = stop then fail .expectedName
    else return ⟨(← cut input start stop).map Char.toLower, false⟩

variable (r : Registry) (keyspace : String)

/-- The type on record under a name, in the keyspace before the point or else in `keyspace`. -/
def readNamed (fuel : Nat) (w : Word) : Step DataType := do
  skipBlanks input fuel
  let (keyspace, name) ←
    if (← next? input) = some '.' then
      skip 1
      let name ← word input fuel
      pure (w.text, name.text)
    else pure (keyspace, w.text)
  match r.lookup keyspace name with
  | .ok found => return found.type
  | .error e => throw (.other e)

/-- Refuses a number of types other than `arity`, which is left open as zero. -/
def checkArity (arity : Nat) (types : List DataType) : Step (List DataType) :=
  if arity ≠ 0 ∧ types.length ≠ arity then fail (.wrongArity arity types.length) else return types

mutual

/-- One type. -/
def readType : (fuel : Nat) → Step DataType
  | 0 => stuck
  | fuel + 1 => do
    let w ← word input fuel
    if w.quoted then readNamed input r keyspace fuel w
    else if w.text = "list" then
      return .list ((← readBracketed fuel 1).headD (.leaf .empty))
    else if w.text = "set" then
      return .set ((← readBracketed fuel 1).headD (.leaf .empty))
    else if w.text = "map" then
      match ← readBracketed fuel 2 with
      | k :: v :: _ => return .map k v
      -- Another number of types has been refused before.
      | types => fail (.wrongArity 2 types.length)
    else if w.text = "frozen" then
      return ((← readBracketed fuel 1).headD (.leaf .empty)).freeze
    else if w.text = "tuple" then
      return .tuple (← readBracketed fuel 0)
    else
      skipBlanks input fuel
      if (← next? input) = some '.' then readNamed input r keyspace fuel w
      else
        match Kind.ofWord w.text with
        | .known kind => return .leaf kind
        | .unsupported name => throw (.other (.unsupported name))
        | .other => readNamed input r keyspace fuel w

/-- A bracketed list of types, `arity` of them unless that is zero. -/
def readBracketed : (fuel arity : Nat) → Step (List DataType)
  | 0, _ => stuck
  | fuel + 1, arity => do
    expect input fuel '<'
    if nestingLimit ≤ (← get).brackets then fail (.deepNesting nestingLimit)
    else fun s => do
      let (outcome, s) ← readArguments fuel arity s.openBracket
      -- The bracket is closed whatever came of the list.
      return (outcome, ← s.closeBracket?)

/-- Types between commas up to the closing bracket. -/
def readArguments : (fuel arity : Nat) → Step (List DataType)
  | 0, _ => stuck
  | fuel + 1, arity => do
    let t ← readType fuel
    checkArity arity (← readFurther fuel [t])

/-- The same behind the types that have been read. -/
def readFurther : (fuel : Nat) → (done : List DataType) → Step (List DataType)
  | 0, _ => stuck
  | fuel + 1, done => do
    skipBlanks input fuel
    let found ← next? input
    if found = some ',' then
      skip 1
      let t ← readType fuel
      readFurther fuel (done ++ [t])
    else if found = some '>' then
      skip 1
      return done
    else fail .expectedSeparator

end

/-- One type and nothing behind it. -/
def readWhole (fuel : Nat) : Step DataType := do
  let t ← readType input r keyspace fuel
  skipBlanks input fuel
  if (← get).offset = input.utf8ByteSize then return t else fail .trailing

end

/-- What a failure says of the text. -/
def report (input : String) : Failure → Error
  | .fault cause offset => .badTypeName input cause offset
  | .other e => e

/-- The type that a text names, and the place where the reading ended. Each loop and each call
takes from the fuel. -/
def parse (fuel : Nat) (r : Registry) (keyspace input : String) :
    Option (Except Error DataType × ByteScan) := do
  let (outcome, s) ← readWhole input r keyspace fuel ⟨0, 0⟩
  return (outcome.mapError (report input), s)

end ByteScan

end CqlWire
