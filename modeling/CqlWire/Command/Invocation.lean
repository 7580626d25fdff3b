import CqlWire.Command.Arguments

namespace CqlWire.Command

/-- What is to be done. -/
inductive Task where
  /-- Prints random values of a type with their encodings. -/
  | random (type : String) (count : Nat) (minSize? : Option Nat) (seed? : Option UInt64)
  /-- Prints the value that a hexadecimal text encodes. -/
  | decode (type hex : String) (nested : Bool)
  /-- Prints the layout, the binary form and the statements of a type. -/
  | describe (type : String)
deriving DecidableEq, Repr

/-- A task and what it starts from. -/
structure Invocation where
  /-- The file of user-defined types. -/
  registry? : Option String
  /-- The file of settings. -/
  config? : Option String
  /-- The keyspace of names without one. -/
  keyspace : String
  task : Task
deriving DecidableEq, Repr

namespace Invocation

/-- The options that may stand before and after the command. -/
def sharedChoices : List Choice :=
  [⟨"registry", none, some .path⟩, ⟨"config", none, some .path⟩, ⟨"keyspace", some 'k', some .text⟩]

/-- What stands before the command. -/
def outer : Level := ⟨sharedChoices, 0, true, true⟩

/-- What stands after a command. -/
def inner (choices : List Choice) (positions : Nat) : Level :=
  ⟨sharedChoices ++ choices, positions, false, false⟩

/-- What stands after `random`. -/
def randomLevel : Level :=
  inner [⟨"count", some 'n', some .number⟩, ⟨"min", none, some .number⟩,
    ⟨"seed", none, some .number⟩] 1

/-- What stands after `decode`. -/
def decodeLevel : Level := inner [⟨"nested", none, none⟩] 2

/-- What stands after `describe`. -/
def describeLevel : Level := inner [] 1

/-- The number of an option. -/
def number? (w : Written) (long : String) : Option Nat := do
  Numeral.readWord? (← w.option? long).toList

/-- The task of `random`. -/
def randomTask (w : Written) : Except Stop Task :=
  match w.positions with
  | [type] =>
    .ok (.random type ((number? w "count").getD 1) (number? w "min")
      ((number? w "seed").map UInt64.ofNat))
  | _ => .error .misuse

/-- The task of `decode`. -/
def decodeTask (w : Written) : Except Stop Task :=
  match w.positions with
  | [type, hex] => .ok (.decode type hex (w.option? "nested").isSome)
  | _ => .error .misuse

/-- The task of `describe`. -/
def describeTask (w : Written) : Except Stop Task :=
  match w.positions with
  | [type] => .ok (.describe type)
  | _ => .error .misuse

/-- The level of a command, and how its task is read. -/
def command? (name : String) : Option (Level × (Written → Except Stop Task)) :=
  if name = "random" then some (randomLevel, randomTask)
  else if name = "decode" then some (decodeLevel, decodeTask)
  else if name = "describe" then some (describeLevel, describeTask)
  else none

/-- What `help` and the words after it ask for: at most one command can be named. -/
def helpFor : List String → Stop
  | [] => .help
  | [name] => if name = "help" ∨ (command? name).isSome then .help else .misuse
  | _ => .misuse

/-- Reads the command line. A shared option after the command goes before the same one in front of
it. -/
def ofArguments (arguments : List String) : Except Stop Invocation := do
  let (before, rest) ← outer.read .empty arguments
  let name :: rest := rest | throw .misuse
  if name = "help" then throw (helpFor rest)
  let some (level, task) := command? name | throw .misuse
  let (after, _) ← level.read .empty rest
  let shared (long : String) : Option String := (after.option? long).or (before.option? long)
  return ⟨shared "registry", shared "config", (shared "keyspace").getD "ks", ← task after⟩

end Invocation

end CqlWire.Command
