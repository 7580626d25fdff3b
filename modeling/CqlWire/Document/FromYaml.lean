import CqlWire.Document.Basic
import CqlWire.Yaml.Node

namespace CqlWire.Document

namespace FromYaml

/-- The words for null. -/
def nullWords : List String := ["~", "null", "Null", "NULL"]

/-- The tag of null. -/
def nullTag : Bytes := Text.toBytes "tag:yaml.org,2002:null"

/-- The tag of whole numbers. -/
def intTag : Bytes := Text.toBytes "tag:yaml.org,2002:int"

/-- Whether digits start with a zero that is not needed. -/
def isPadded (digits : List Char) : Bool :=
  1 < digits.length && digits.head? = some '0'

/-- A natural number: decimal, or after `0x`, `0o` or `0b` in another base. -/
def natural? (s : List Char) : Option Nat :=
  match if s.head? = some '+' then s.drop 1 else s with
  | '0' :: 'x' :: digits => Numeral.inBase? 16 digits
  | '0' :: 'o' :: digits => Numeral.inBase? 8 digits
  | '0' :: 'b' :: digits => Numeral.inBase? 2 digits
  | digits => if isPadded digits then none else Numeral.inBase? 10 digits

/-- What a scalar says. Without quotes it may be null or a number; in lines of its own it is a
number only if its tag says so. -/
def ofScalar (s : Yaml.Scalar) : Document :=
  let isNull :=
    match s.tag? with
    | none => s.text.isEmpty || nullWords.contains s.text
    | some tag => tag = nullTag && nullWords.contains s.text
  if s.style = .plain && isNull then null
  else if s.style = .plain || (s.style = .literal && s.tag? = some intTag) then
    match natural? s.text.toList with
    | some n => if s.tag? = some nullTag then voidNatural n else natural n
    | none => text s.text
  else text s.text

mutual

/-- What a node says, where `targets` holds what anchors mark. -/
def ofNode (targets : List (Nat × Option Yaml.Scalar)) : Yaml.Node → Document
  | .scalar s => ofScalar s
  | .reference number =>
    match targets.lookup number with
    | some (some s) => ofScalar s
    | _ => other
  | .sequence items => sequence (ofNodes targets items)
  | .mapping entries => mapping (ofEntries targets entries)

/-- What nodes say. -/
def ofNodes (targets : List (Nat × Option Yaml.Scalar)) : List Yaml.Node → List Document
  | [] => []
  | node :: nodes => ofNode targets node :: ofNodes targets nodes

/-- What keys and values say. -/
def ofEntries (targets : List (Nat × Option Yaml.Scalar)) :
    List (Yaml.Node × Yaml.Node) → List (Document × Document)
  | [] => []
  | (key, value) :: entries =>
    (ofNode targets key, ofNode targets value) :: ofEntries targets entries

end

end FromYaml

/-- What a YAML text with one document says; `none` for any other text. A document without content
is a mapping without entries. -/
def ofYaml? (input : String) : Option Document := do
  let composed ← Yaml.compose? input.toList
  match composed.root? with
  | none => return mapping []
  | some (.scalar s) =>
    return if s.style = .plain && s.text.isEmpty then mapping [] else FromYaml.ofScalar s
  | some node => return FromYaml.ofNode composed.targets node

end CqlWire.Document
