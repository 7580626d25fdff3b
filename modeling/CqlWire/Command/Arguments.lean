import CqlWire.Text.Numeral

namespace CqlWire.Command

/-- What may stand as the value of an option. -/
inductive Operand where
  | text
  | path
  | number
deriving DecidableEq, Repr

/-- Whether a value may stand. -/
def Operand.admits : Operand → String → Bool
  | text, _ => true
  | path, s => !s.isEmpty
  | number, s => (Numeral.readWord? s.toList).isSome

/-- An option: its long name, its letter, and what it takes, if anything. -/
structure Choice where
  long : String
  letter? : Option Char
  operand? : Option Operand
deriving DecidableEq, Repr

/-- What may be written at a place of the command line. -/
structure Level where
  choices : List Choice
  /-- How many arguments without a name there are. -/
  positions : Nat
  /-- Whether the first argument without a name is a command, with a level of its own. -/
  endsAtCommand : Bool
  /-- Whether the version can be asked for. -/
  showsVersion : Bool
deriving DecidableEq, Repr

/-- Why there is nothing to run. -/
inductive Stop where
  /-- The arguments make no sense. -/
  | misuse
  | help
  | version
deriving DecidableEq, Repr

/-- What has been written at a level: the options by long name, those without a value with an empty
one, and the arguments without a name. -/
structure Written where
  options : List (String × String)
  positions : List String
deriving DecidableEq, Repr

namespace Written

/-- Nothing has been written. -/
def empty : Written := ⟨[], []⟩

/-- The value of an option. -/
def option? (w : Written) (long : String) : Option String :=
  w.options.lookup long

/-- Adds an option, which can be there once. -/
def addOption (w : Written) (c : Choice) (value : String) : Except Stop Written :=
  if (w.option? c.long).isSome || !c.operand?.all (·.admits value) then .error .misuse
  else .ok { w with options := w.options ++ [(c.long, value)] }

/-- Adds an argument without a name, if there is room. -/
def addPosition (w : Written) (level : Level) (value : String) : Except Stop Written :=
  if w.positions.length < level.positions then
    .ok { w with positions := w.positions ++ [value] }
  else .error .misuse

end Written

/-- What an argument is. -/
inductive Argument where
  /-- The mark after which no options come. -/
  | endOfOptions
  /-- An option by its long name, with what follows an equals sign. -/
  | long (name : String) (attached? : Option String)
  /-- An option by its letter, with what follows. -/
  | letter (c : Char) (attached? : Option String)
  | plain (s : String)
deriving DecidableEq, Repr

/-- What stands before and after the first equals sign. -/
def splitAtEquals (s : List Char) : String × Option String :=
  let name := String.ofList (s.takeWhile (· ≠ '='))
  match s.dropWhile (· ≠ '=') with
  | [] => (name, none)
  | _ :: value => (name, some (String.ofList value))

/-- What follows the letter of an option; an equals sign between the two does not count. -/
def attached? : List Char → Option String
  | [] => none
  | '=' :: value => some (String.ofList value)
  | value => some (String.ofList value)

/-- Reads an argument. A hyphen alone is a plain one. -/
def Argument.ofString (s : String) : Argument :=
  match s.toList with
  | ['-', '-'] => endOfOptions
  | '-' :: '-' :: rest => long (splitAtEquals rest).1 (splitAtEquals rest).2
  | '-' :: c :: rest => letter c (attached? rest)
  | _ => plain s

/-- What is asked for instead of a run. -/
def Level.request? (level : Level) (help version : Bool) : Option Stop :=
  if help then some .help
  else if version && level.showsVersion then some .version
  else none

/-- Adds an option whose value is attached to it or is the next argument; `read` goes on after the
arguments that are used. -/
def takeOption (w : Written) (choice? : Option Choice) (attached? : Option String)
    (rest : List String) (read : Written → (used : Nat) → Except Stop α) : Except Stop α :=
  match choice? with
  | none => .error .misuse
  | some c =>
    match c.operand?, attached?, rest with
    | none, none, _ => do read (← w.addOption c "") 0
    | none, some _, _ => .error .misuse
    | some _, some value, _ => do read (← w.addOption c value) 0
    | some _, none, [] => .error .misuse
    | some _, none, next :: _ =>
      match Argument.ofString next with
      | .plain value => do read (← w.addOption c value) 1
      | _ => .error .misuse

/-- Reads arguments at a level. What is left over starts with a command. -/
def Level.read (level : Level) (w : Written) :
    List String → Except Stop (Written × List String)
  | [] => .ok (w, [])
  | s :: rest =>
    match Argument.ofString s with
    | .endOfOptions => do
      return (← rest.foldlM (fun w s => w.addPosition level s) w, [])
    | .long name attached? =>
      match level.request? (name = "help") (name = "version"), attached? with
      | some stop, none => .error stop
      | some _, some _ => .error .misuse
      | none, _ =>
        takeOption w (level.choices.find? fun c => c.long = name) attached? rest fun w used =>
          level.read w (rest.drop used)
    | .letter c attached? =>
      match level.request? (c = 'h') (c = 'V') with
      | some stop => .error stop
      | none =>
        takeOption w (level.choices.find? fun d => d.letter? = some c) attached? rest
          fun w used => level.read w (rest.drop used)
    | .plain s =>
      if level.endsAtCommand then .ok (w, s :: rest)
      else do level.read (← w.addPosition level s) rest
termination_by args => args.length
decreasing_by
  all_goals
    simp only [List.length_cons, List.length_drop]
    omega

end CqlWire.Command
