import CqlWire.Command.Run

open CqlWire Command

/-- The texts of the files that exist among some. -/
def readFiles (paths : List String) : IO (List (String × String)) :=
  paths.filterMapM fun (path : String) => do
    try
      let text ← IO.FS.readFile path
      return some (path, text)
    catch _ => return none

/-- The variables that are set among some. -/
def readVariables (names : List String) : IO (List (String × String)) :=
  names.filterMapM fun name => return (← IO.getEnv name).map fun value => (name, value)

/-- The program `cqlcodec`. -/
def main (arguments : List String) : IO UInt32 := do
  let paths :=
    match Invocation.ofArguments arguments with
    | .ok i => i.registry?.toList ++ i.config?.toList
    | .error _ => []
  let files ← readFiles paths
  let environment ← readVariables ["CQLCODEC_MIN_COLLECTION_SIZE", "CQLCODEC_SEED"]
  let entropy ← IO.rand 0 (UInt64.size - 1)
  let around : Surroundings :=
    ⟨fun path => files.lookup path, fun name => environment.lookup name, UInt64.ofNat entropy⟩
  let outcome := run around arguments
  IO.print outcome.output
  IO.eprint outcome.complaint
  return UInt32.ofNat outcome.exit
