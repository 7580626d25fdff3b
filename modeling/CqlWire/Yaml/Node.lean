import CqlWire.Text.Utf8
import CqlWire.Yaml.Token

namespace CqlWire.Yaml

/-- A scalar, its tag and how it is written. -/
structure Scalar where
  style : Style
  tag? : Option Bytes
  text : String
deriving DecidableEq, Repr

/-- The scalar that stands where nothing is written. -/
def Scalar.empty : Scalar := ⟨.plain, none, ""⟩

/-- What a document consists of. The tags of collections are left out. -/
inductive Node where
  | scalar (s : Scalar)
  /-- What an anchor with this number marks. -/
  | reference (anchor : Nat)
  | sequence (items : List Node)
  | mapping (entries : List (Node × Node))
deriving Repr, Inhabited

/-- The node where nothing is written. -/
def Node.empty : Node := .scalar .empty

/-- Tokens that become nodes, and what is known by name so far. -/
structure Composer where
  tokens : List Token
  /-- What the handles of tags stand for. -/
  handles : List (String × Bytes)
  /-- The numbers of the anchors by name. -/
  anchors : List (String × Nat)
  /-- What anchors mark by number, the latest first: a scalar, or a collection, which is left
  out. -/
  targets : List (Nat × Option Scalar)
deriving Repr

abbrev Composing := StateT Composer Option

namespace Composer

/-- The next token. -/
def peek : Composing (Option Token) := do return (← get).tokens.head?

/-- Goes past a token. -/
def advance : Composing Unit := modify fun c => { c with tokens := c.tokens.drop 1 }

/-- Goes past a token if it is the next one. -/
def accept (t : Token) : Composing Bool := do
  if (← peek) = some t then
    advance
    return true
  else return false

/-- Whether one of some tokens is next. -/
def isNext (ts : List Token) : Composing Bool := do
  return (← peek).any ts.contains

/-- Marks a node. Its number is how many names there were, so that an anchor after a name in use may
share the number of another one. -/
def mark (name? : Option String) (target : Option Scalar) : Composing Unit :=
  match name? with
  | none => return
  | some name =>
    modify fun c => { c with
      anchors := (name, c.anchors.length) :: c.anchors.filter fun a => a.1 ≠ name
      targets := (c.anchors.length, target) :: c.targets }

/-- The anchor in front of a node. -/
def anchor : Composing (Option String) := do
  match ← peek with
  | some (.anchor name) =>
    advance
    return some name
  | _ => return none

/-- The tag in front of a node, its handle replaced. -/
def tag : Composing (Option Bytes) := do
  match ← peek with
  | some (.tag handle suffix) =>
    advance
    if handle.isEmpty then return some suffix
    let some meaning := (← get).handles.lookup handle | failure
    return some (meaning ++ suffix)
  | _ => return none

/-- The anchor and the tag in front of a node, in either order. -/
def properties : Composing (Option String × Option Bytes) := do
  let before ← anchor
  let tag? ← tag
  let after ← if tag?.isSome && before.isNone then anchor else pure none
  return (before.or after, tag?)

/-- A scalar that may be marked. -/
def scalar (name? : Option String) (s : Scalar) : Composing Node := do
  mark name? s
  return .scalar s

mutual

/-- A node. An exclamation mark alone is no tag of a scalar, unless nothing is written. Collections
by indentation stand only in each other, and a sequence in a mapping needs none. -/
def node : (limit : Nat) → (inBlock inMapping : Bool) → Composing Node
  | 0, _, _ => failure
  | limit + 1, inBlock, inMapping => do
    if let some (.reference name) ← peek then
      advance
      let some number := (← get).anchors.lookup name | failure
      return .reference number
    let (name?, tag?) ← properties
    match ← peek with
    | some (.scalar style text) =>
      advance
      scalar name? ⟨style, tag?.filter (· ≠ [0x21]), text⟩
    | some .flowSequenceStart =>
      advance
      mark name? none
      return .sequence (← flowItems limit true)
    | some .flowMappingStart =>
      advance
      mark name? none
      return .mapping (← flowEntries limit true)
    | next =>
      if inBlock && next = some .blockSequenceStart then
        advance
        mark name? none
        return .sequence (← blockItems limit)
      else if inBlock && next = some .blockMappingStart then
        advance
        mark name? none
        return .mapping (← blockEntries limit)
      else if inMapping && next = some .blockEntry then
        mark name? none
        return .sequence (← plainItems limit)
      else if name?.isSome || tag?.isSome then scalar name? ⟨.plain, tag?, ""⟩
      else failure

/-- A node, or none where one of some tokens follows. -/
def nodeBefore : (limit : Nat) → (inBlock inMapping : Bool) → List Token → Composing Node
  | 0, _, _, _ => failure
  | limit + 1, inBlock, inMapping, ts => do
    if ← isNext ts then return .empty else node limit inBlock inMapping

/-- The items of a sequence by indentation. -/
def blockItems : (limit : Nat) → Composing (List Node)
  | 0 => failure
  | limit + 1 => do
    if ← accept .blockEnd then return []
    if !(← accept .blockEntry) then failure
    let item ← nodeBefore limit true false [.blockEntry, .blockEnd]
    return item :: (← blockItems limit)

/-- The items of a sequence in the column of its key. -/
def plainItems : (limit : Nat) → Composing (List Node)
  | 0 => failure
  | limit + 1 => do
    if !(← accept .blockEntry) then return []
    let item ← nodeBefore limit true false [.blockEntry, .key, .value, .blockEnd]
    return item :: (← plainItems limit)

/-- The entries of a mapping by indentation. -/
def blockEntries : (limit : Nat) → Composing (List (Node × Node))
  | 0 => failure
  | limit + 1 => do
    if ← accept .blockEnd then return []
    if !(← accept .key) then failure
    let key ← nodeBefore limit true true [.key, .value, .blockEnd]
    let value ←
      if ← accept .value then nodeBefore limit true true [.key, .value, .blockEnd]
      else pure .empty
    return (key, value) :: (← blockEntries limit)

/-- The rest of a sequence in brackets. A key and its value are a mapping of their own; a question
mark that no key follows takes the next mark along. -/
def flowItems : (limit : Nat) → (isFirst : Bool) → Composing (List Node)
  | 0, _ => failure
  | limit + 1, isFirst => do
    if ← accept .flowSequenceEnd then return []
    if !isFirst then
      if !(← accept .flowEntry) then failure
    if ← accept .flowSequenceEnd then return []
    let item ←
      if ← accept .key then
        let ends := [Token.flowEntry, .flowSequenceEnd]
        let isBare ← isNext (.value :: ends)
        if isBare then advance
        let key ← if isBare then pure .empty else node limit false false
        let value ←
          if ← accept .value then nodeBefore limit false false ends else pure .empty
        pure (Node.mapping [(key, value)])
      else node limit false false
    return item :: (← flowItems limit false)

/-- The rest of a mapping in brackets. A key may stand without a value. -/
def flowEntries : (limit : Nat) → (isFirst : Bool) → Composing (List (Node × Node))
  | 0, _ => failure
  | limit + 1, isFirst => do
    if ← accept .flowMappingEnd then return []
    if !isFirst then
      if !(← accept .flowEntry) then failure
    if ← accept .flowMappingEnd then return []
    let ends := [Token.flowEntry, .flowMappingEnd]
    let entry ←
      if ← accept .key then
        let key ← nodeBefore limit false false (.value :: ends)
        let value ←
          if ← accept .value then nodeBefore limit false false ends else pure .empty
        pure (key, value)
      else pure (← node limit false false, .empty)
    return entry :: (← flowEntries limit false)

end

/-- The handles of tags that always stand for something. -/
def usualHandles : List (String × Bytes) :=
  [("!", [0x21]), ("!!", Text.toBytes "tag:yaml.org,2002:")]

/-- The directives in front of a document; each handle and the version at most once. -/
def directives : (limit : Nat) → (hasVersion : Bool) → Composing Unit
  | 0, _ => failure
  | limit + 1, hasVersion => do
    match ← peek with
    | some (.version major minor) =>
      if hasVersion || major ≠ 1 || (minor ≠ 1 && minor ≠ 2) then failure
      advance
      directives limit true
    | some (.tagHandle handle meaning) =>
      if ((← get).handles.lookup handle).isSome then failure
      advance
      modify fun c => { c with handles := (handle, meaning) :: c.handles }
      directives limit hasVersion
    | _ => return

/-- Whether a document ends here. -/
def isAtEnd : Composing Bool := do
  match ← peek with
  | none | some .documentStart | some .documentEnd | some (.version ..)
  | some (.tagHandle ..) => return true
  | _ => return false

/-- The only document, if there is one. It needs no mark in front unless there are directives. -/
def document (limit : Nat) : Composing (Option Node) := do
  let root? ←
    match ← peek with
    | none => return none
    | some .documentStart | some (.version ..) | some (.tagHandle ..) =>
      directives limit false
      if !(← accept .documentStart) then failure
      modify fun c => { c with handles := c.handles ++ usualHandles }
      if ← isAtEnd then pure .empty else node limit true false
    | some _ =>
      modify fun c => { c with handles := usualHandles }
      node limit true false
  modify fun c => { c with tokens := c.tokens.dropWhile (· = .documentEnd) }
  if (← peek).isSome then failure
  return some root?

end Composer

/-- A text with at most one document. -/
structure Composed where
  root? : Option Node
  /-- What anchors mark by number. -/
  targets : List (Nat × Option Scalar)
deriving Repr

/-- Reads a text; `none` for one that is not well formed or has several documents. -/
def compose? (s : List Char) : Option Composed := do
  let tokens ← tokens? s
  let limit := 4 * tokens.length + 4
  let (root?, c) ← (Composer.document limit).run ⟨tokens, [], [], []⟩
  return ⟨root?, c.targets⟩

end CqlWire.Yaml
