import CqlWire.Document.FromJson
import CqlWire.Document.FromYaml
import CqlWire.Error
import CqlWire.Text.Numeral

namespace CqlWire

/-- How random values are made. -/
structure Settings where
  /-- The least size of every list, set and map. -/
  minSize : Nat
  /-- How many elements there are at most beyond the least size. -/
  maxExtra : Nat
  /-- The greatest length of texts and byte strings. -/
  maxText : Nat
  /-- What fixes the random source; without it each run differs. -/
  seed? : Option UInt64
deriving DecidableEq, Repr

namespace Settings

/-- The settings where nothing is chosen. -/
def default : Settings := ⟨0, 5, 32, none⟩

instance : Inhabited Settings := ⟨default⟩

/-- Settings of which each may be left open. -/
structure Choices where
  minSize? : Option Nat
  maxExtra? : Option Nat
  maxText? : Option Nat
  seed? : Option UInt64
deriving DecidableEq, Repr

/-- The settings that choices make; texts are at least one character long. -/
def ofChoices (c : Choices) : Settings :=
  ⟨c.minSize?.getD default.minSize, c.maxExtra?.getD default.maxExtra,
    (c.maxText?.map (max 1)).getD default.maxText, c.seed?⟩

/-- The names of the settings. -/
def names : List String :=
  ["min_collection_size", "max_extra_elements", "max_text_len", "seed"]

/-- A size, or the default where it is left out. -/
def sizeOr? (standard : Nat) : Option Document → Option Nat
  | none => some standard
  | some d => d.word?

/-- A seed, if it is neither null nor left out. -/
def seedOf? : Option Document → Option (Option UInt64)
  | none => some none
  | some d => d.wordOrNull?.map fun n? => n?.map UInt64.ofNat

/-- The settings that a document states, each as it stands there. -/
def ofDocument? (d : Document) : Option Settings := do
  let [minSize, maxExtra, maxText, seed] ← d.record? names | none
  return ⟨← sizeOr? default.minSize minSize, ← sizeOr? default.maxExtra maxExtra,
    ← sizeOr? default.maxText maxText, ← seedOf? seed⟩

/-- The settings of a JSON text. -/
def ofJson (input : String) : Except Error Settings :=
  match Document.ofJson? input >>= ofDocument? with
  | some s => .ok s
  | none => .error .invalidJson

/-- The settings of a YAML text, where they stand by name. -/
def ofYaml (input : String) : Except Error Settings :=
  match (Document.ofYaml? input).filter Document.isMapping >>= ofDocument? with
  | some s => .ok s
  | none => .error .invalidYaml

/-- The last part of a path. -/
def fileName (path : String) : List Char :=
  (path.toList.reverse.takeWhile (· ≠ '/')).reverse

/-- What follows the last point of a file's name; a point at its start does not count. -/
def extension? (path : String) : Option String :=
  let name := fileName path
  let ending := (name.reverse.takeWhile (· ≠ '.')).reverse
  if ending.length + 1 < name.length then some (String.ofList ending) else none

/-- The settings of a file, YAML or JSON by its name; `none` stands for a file that is missing. -/
def ofFile (path : String) : Option String → Except Error Settings
  | none => .error .missingFile
  | some text =>
    if extension? path = some "yaml" ∨ extension? path = some "yml" then ofYaml text
    else ofJson text

/-- The number in an environment variable, which may have white space around it. -/
def wordOf? (environment : String → Option String) (name : String) : Option Nat := do
  Numeral.readWord? (trimBlanks (← environment name).toList)

/-- The settings after the environment: variables that hold a number go before all else. -/
def withEnvironment (s : Settings) (environment : String → Option String) : Settings :=
  { s with
    minSize := (wordOf? environment "CQLCODEC_MIN_COLLECTION_SIZE").getD s.minSize
    seed? := ((wordOf? environment "CQLCODEC_SEED").map UInt64.ofNat).or s.seed? }

end Settings

end CqlWire
