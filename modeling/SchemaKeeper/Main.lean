import SchemaKeeper.Cli.Run
import SchemaKeeper.Cli.Supply
import Std.Time.DateTime.Timestamp

/-!
# The command line tool

Prints one JSON object for each run.  The process ends with 0 for success, 1 for a failed command
and 2 for arguments that do not fit.
-/
namespace SchemaKeeper.Cli

/-- An action on files, its failure given as a fault. -/
def attempt {α : Type} (action : IO α) : IO (Except FileFault α) := do
  match ← action.toBaseIO with
  | .ok a => return .ok a
  | .error e =>
    match e with
    | .noFileOrDirectory .. => return .error .missing
    | _ => return .error (.other (toString e))

/-- The action succeeds. -/
def succeeds {α : Type} (action : IO α) : IO Bool := do
  match ← action.toBaseIO with
  | .ok _ => return true
  | .error _ => return false

/-- The files of the operating system.  An idle part after a route leads somewhere only if the
route leads to a directory. -/
def systemFiles : FileAccess IO where
  read route := attempt (IO.FS.readFile route)
  isPresent route := succeeds (IO.FS.realPath route)
  isDirectory route := succeeds (IO.FS.realPath (route ++ "/."))
  makeDirectory route := attempt (IO.FS.createDir route)
  write route text := attempt (IO.FS.writeFile route text)
  move source target := attempt (IO.FS.rename source target)

/-- A random word. -/
def randomSeed : IO UInt64 := do
  let bytes ← IO.getRandomBytes 8
  return bytes.toList.foldl (fun n b => n * 256 + b.toUInt64) 0

/-- The supply of this process. -/
def systemSupply : IO Supply := do
  let high ← randomSeed
  let low ← randomSeed
  let start ← Std.Time.Timestamp.now
  return supplyOf high low start.toNanosecondsSinceUnixEpoch.toInt.toNat

/-- How the tool is called. -/
def usageText : String :=
  "usage: [--config FILE] [--classes FILE] list | exists NAME | inspect NAME | delete NAME |\n" ++
  "       create NAME --root CLASS [--media-type TYPE] [--persistent]"

end SchemaKeeper.Cli

open SchemaKeeper SchemaKeeper.Cli in
def main (args : List String) : IO UInt32 := do
  let outcome ← runLine systemFiles (← systemSupply) args
  match outcome with
  | .unfit usage => if usage.isAsked then IO.println usageText else IO.eprintln usageText
  | .ran result =>
    IO.println (response result).compact
    match result with
    | .ok _ => pure ()
    | .error r => IO.eprintln r.text
  return UInt32.ofNat outcome.exitCode
