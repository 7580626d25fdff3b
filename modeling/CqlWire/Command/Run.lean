import CqlWire.Command.Invocation
import CqlWire.Json.Printer
import CqlWire.Json.View
import CqlWire.Random.Value
import CqlWire.Registry.Definition
import CqlWire.Settings
import CqlWire.Wire.Decode
import CqlWire.Wire.Encode

namespace CqlWire.Command

/-- What a program finds around it. -/
structure Surroundings where
  /-- The text of a file, if there is one. -/
  file : String → Option String
  /-- The value of an environment variable, if it is set. -/
  environment : String → Option String
  /-- The seed where none is fixed. -/
  entropy : UInt64

/-- What a program leaves behind. -/
structure Outcome where
  exit : Nat
  output : String
  complaint : String
deriving DecidableEq, Repr

/-- What went wrong, from the outermost description to the innermost cause. -/
abbrev Trouble := List String

/-- An error and what caused it. -/
def Trouble.ofError (e : Error) : Trouble :=
  match e with
  | .missingFile => [e.message, missingFileText]
  | e => [e.message]

/-- The lines of a text after the first, indented. -/
def indentLines (indent s : String) : String :=
  ("\n" ++ indent).intercalate (s.splitOn "\n")

/-- A cause, numbered if there are several. -/
def causeText (several : Bool) (number : Nat) (cause : String) : String :=
  if several then "\n    " ++ number.repr ++ ": " ++ indentLines "       " cause
  else "\n    " ++ indentLines "    " cause

/-- What is written of trouble. -/
def Trouble.toText : Trouble → String
  | [] => ""
  | [only] => "Error: " ++ only ++ "\n"
  | outer :: causes =>
    "Error: " ++ outer ++ "\n\nCaused by:" ++
      String.join (causes.mapIdx fun i cause => causeText (1 < causes.length) i cause) ++ "\n"

/-- The result, or the trouble with what was being done. -/
def during (doing : String) (outcome : Except Error α) : Except Trouble α :=
  outcome.mapError fun e => doing :: Trouble.ofError e

/-- What is printed line by line until trouble comes. -/
abbrev Printing := ExceptT Trouble (StateM String)

/-- Prints a line. -/
def printLine (s : String) : Printing Unit :=
  modify fun printed => printed ++ s ++ "\n"

/-- Goes on with a result. -/
def orTrouble (outcome : Except Trouble α) : Printing α :=
  liftExcept outcome

/-- The user-defined types of a file, none without a file. -/
def loadRegistry (around : Surroundings) : Option String → Except Trouble Registry
  | none => .ok .empty
  | some path =>
    during ("loading UDT definitions from " ++ path) (Registry.ofFile (around.file path))

/-- The settings of a file, or else the usual ones, under the environment. -/
def loadSettings (around : Surroundings) (path? : Option String) : Except Trouble Settings := do
  let settings ←
    match path? with
    | none => pure Settings.default
    | some path =>
      during ("loading config from " ++ path) (Settings.ofFile path (around.file path))
  return settings.withEnvironment around.environment

/-- The type of a name. -/
def resolveType (r : Registry) (keyspace name : String) : Except Trouble DataType :=
  during ("resolving type '" ++ name ++ "'") (DataType.parse r keyspace name)

/-- The bytes of a hexadecimal text. -/
def readHex (input : String) : Except Trouble Bytes :=
  match Hex.read input.toList with
  | .ok bytes => .ok bytes
  | .error (.badDigit c) => .error [s!"invalid hex digit '{c}' in '{input}'"]
  | .error .oddLength => .error [s!"odd number of hex digits in '{input}'"]

/-- Prints `count` random values, each with its encoding on the next line. -/
def printRandom (r : Registry) (t : DataType) (settings : Settings) :
    (count : Nat) → Wyrand → Printing Unit
  | 0, _ => return
  | count + 1, source => do
    let (value, source) := (Random.value settings settings.minSize t : StateM Wyrand Value) source
    let bytes ← orTrouble ((Value.encode r t value false).mapError Trouble.ofError)
    printLine (t.view value).compact
    printLine (Hex.ofBytes bytes)
    printRandom r t settings count source

/-- The name of a layout. -/
def layoutName : Layout → String
  | .simple => "Simple"
  | .frozen => "Frozen"
  | .multiCell => "MultiCell"

/-- Prints what is to be known of a type. -/
def printDescription (t : DataType) : Printing Unit := do
  printLine ("type:        " ++ t.name)
  printLine ("multi-cell:  " ++ if t.isMultiCell then "true" else "false")
  printLine ("layout:      " ++ layoutName (t.layout false))
  let bytes ← orTrouble (t.toBytes.mapError Trouble.ofError)
  printLine ("descriptor:  " ++ Hex.ofBytes bytes)
  if !t.udts.isEmpty then
    printLine ""
    printLine s!"UDTs ({t.udts.length}):"
    t.udts.forM fun udt => printLine ("  " ++ udt.createStatement)

/-- Does a task. -/
def perform (around : Surroundings) (i : Invocation) : Printing Unit := do
  let r ← orTrouble (loadRegistry around i.registry?)
  match i.task with
  | .random type count minSize? seed? =>
    let t ← orTrouble (resolveType r i.keyspace type)
    let settings ← orTrouble (loadSettings around i.config?)
    let settings := { settings with
      minSize := minSize?.getD settings.minSize
      seed? := seed?.or settings.seed? }
    printRandom r t settings count ⟨settings.seed?.getD around.entropy⟩
  | .decode type hex nested =>
    let t ← orTrouble (resolveType r i.keyspace type)
    let bytes ← orTrouble (readHex hex)
    let value ← orTrouble
      (during s!"decoding {bytes.length} bytes as {t.name}" (Value.decode r t bytes nested))
    printLine (t.view value).pretty
  | .describe type =>
    let t ← orTrouble (resolveType r i.keyspace type)
    printDescription t

/-- How the program is used. -/
def usage : String :=
  "Usage: cqlcodec [OPTIONS] <COMMAND>\n\nCommands:\n" ++
    "  random    Generate random values of a type and print them with their encoding\n" ++
    "  decode    Decode a hex-encoded value and print it as JSON\n" ++
    "  describe  Show name, cell layout, nested UDTs and DDL for a type\n\nOptions:\n" ++
    "      --registry <FILE>      JSON file of UDT definitions used to resolve type names\n" ++
    "      --config <FILE>        Generator settings (JSON or YAML)\n" ++
    "  -k, --keyspace <KEYSPACE>  Keyspace for unqualified UDT names [default: ks]\n" ++
    "  -h, --help                 Print help\n  -V, --version              Print version\n"

/-- Runs the program. -/
def run (around : Surroundings) (arguments : List String) : Outcome :=
  match Invocation.ofArguments arguments with
  | .error .misuse => ⟨2, "", usage⟩
  | .error .help => ⟨0, usage, ""⟩
  | .error .version => ⟨0, "cqlcodec 0.4.2\n", ""⟩
  | .ok i =>
    match (perform around i).run.run "" with
    | (.ok _, output) => ⟨0, output, ""⟩
    | (.error trouble, output) => ⟨1, output, trouble.toText⟩

end CqlWire.Command
