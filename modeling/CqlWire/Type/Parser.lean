import CqlWire.Registry.Basic
import CqlWire.Type.Binary
import CqlWire.Type.Scan

namespace CqlWire

namespace DataType

open Scan (Failure Word)

/-- A reading of one type from a place on. -/
abbrev NameReader := Scan → Except Failure (DataType × Scan)

/-- Types between commas up to the closing bracket, at most `limit` of them. -/
def readArguments (read : NameReader) : (limit : Nat) → Scan → Except Failure (List DataType × Scan)
  | 0, s => s.fail .expectedSeparator
  | limit + 1, s => do
    let (t, s) ← read s
    let s := s.skipBlanks
    if s.next? = some ',' then
      let (ts, s) ← readArguments read limit s.advance
      return (t :: ts, s)
    else if s.next? = some '>' then return ([t], s.advance)
    else s.fail .expectedSeparator

/-- A bracketed list of types, refused where no more brackets may be opened. -/
def readBracketed (inner? : Option NameReader) (s : Scan) :
    Except Failure (List DataType × Scan) := do
  let s ← s.expect '<'
  match inner? with
  | none => s.fail (.deepNesting nestingLimit)
  | some read => readArguments read (s.rest.length + 1) s

/-- A bracketed type. -/
def readOne (inner? : Option NameReader) (s : Scan) : Except Failure (DataType × Scan) := do
  match ← readBracketed inner? s with
  | ([t], s) => return (t, s)
  | (ts, s) => s.fail (.wrongArity 1 ts.length)

/-- Two bracketed types. -/
def readTwo (inner? : Option NameReader) (s : Scan) :
    Except Failure ((DataType × DataType) × Scan) := do
  match ← readBracketed inner? s with
  | ([k, v], s) => return ((k, v), s)
  | (ts, s) => s.fail (.wrongArity 2 ts.length)

/-- The type on record under a name, in the keyspace before the point or else in `keyspace`. -/
def readNamed (r : Registry) (keyspace : String) (w : Word) (s : Scan) :
    Except Failure (DataType × Scan) := do
  let s := s.skipBlanks
  let (keyspace, name, s) ←
    if s.next? = some '.' then
      let (name, s) ← s.advance.word
      pure (w.text, name.text, s)
    else pure (keyspace, w.text, s)
  match r.lookup keyspace name with
  | .ok found => return (found.type, s)
  | .error e => .error (.other e)

/-- One type, whose arguments `inner?` reads. -/
def readWith (r : Registry) (keyspace : String) (inner? : Option NameReader) : NameReader :=
  fun s => do
    let (w, s) ← s.word
    if w.quoted then readNamed r keyspace w s
    else if w.text = "list" then
      let (t, s) ← readOne inner? s
      return (.list t, s)
    else if w.text = "set" then
      let (t, s) ← readOne inner? s
      return (.set t, s)
    else if w.text = "map" then
      let ((k, v), s) ← readTwo inner? s
      return (.map k v, s)
    else if w.text = "frozen" then
      let (t, s) ← readOne inner? s
      return (t.freeze, s)
    else if w.text = "tuple" then
      let (ts, s) ← readBracketed inner? s
      return (.tuple ts, s)
    else if s.skipBlanks.next? = some '.' then readNamed r keyspace w s
    else
      match Kind.ofWord w.text with
      | .known kind => return (.leaf kind, s.skipBlanks)
      | .unsupported name => .error (.other (.unsupported name))
      | .other => readNamed r keyspace w s

/-- One type in which at most `levels` brackets are open at once. -/
def readWithin (r : Registry) (keyspace : String) : (levels : Nat) → NameReader
  | 0 => readWith r keyspace none
  | levels + 1 => readWith r keyspace (some (readWithin r keyspace levels))

/-- The type that a text names. Words and brackets may have white space before them, words without
quotes may be written in either case, and a name that is no leaf type is looked up in the registry,
in `keyspace` unless it names its own. -/
def parse (r : Registry) (keyspace input : String) : Except Error DataType :=
  let outcome : Except Failure DataType := do
    let (t, s) ← readWithin r keyspace nestingLimit (.ofString input)
    let s := s.skipBlanks
    if s.rest = [] then return t else s.fail .trailing
  match outcome with
  | .ok t => .ok t
  | .error (.fault cause offset) => .error (.badTypeName input cause offset)
  | .error (.other e) => .error e

end DataType

end CqlWire
