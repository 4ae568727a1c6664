import SchemaKeeper.Cli.Classes
import SchemaKeeper.Cli.Command
import SchemaKeeper.Files.Access

/-!
# Running the tool

One run reads the configuration and the classes, opens the store, runs the command and writes the
store back.  Files are reached through `FileAccess`, so a run can be followed on any kind of
files.
-/
namespace SchemaKeeper.Cli

/-- The file of the catalog in a directory. -/
def catalogPath (dataDir : String) : String :=
  if dataDir.endsWith "/" then dataDir ++ "catalog.json" else dataDir ++ "/catalog.json"

/-- A store with the given catalog. -/
def workspaceOn (catalog : Catalog) (kept : Bool) (file : Option String) (supply : Supply) :
    Workspace :=
  ⟨⟨catalog, .zero, kept⟩, file, none, [], supply⟩

/-- The store that a text of a catalog file holds. -/
def openText (text : Option String) (supply : Supply) : Except StoreRefusal Workspace :=
  match text with
  | none => .ok (workspaceOn .empty true none supply)
  | some text =>
    match Catalog.read? text with
    | some catalog => .ok (workspaceOn catalog true (some text) supply)
    | none => .error (.unreadable "not a catalog")

variable {m : Type → Type} [Monad m]

/-- Reads the configuration. -/
def loadConfig (files : FileAccess m) (path : String) : ExceptT CommandRefusal m Config := do
  match ← files.read path with
  | .error fault => throw (.ofConfig (.unread path fault.text))
  | .ok text =>
    match Config.read text with
    | .error r => throw (.ofConfig r)
    | .ok config => return config

/-- Reads the classes, if a file with classes is named. -/
def loadClasses (files : FileAccess m) : Option String → ExceptT CommandRefusal m Registry
  | none => return .empty
  | some path => do
    match ← files.read path with
    | .error fault => throw (.classes ("Failed to read " ++ path ++ ": " ++ fault.text))
    | .ok text =>
      match Declaration.read text with
      | .error r => throw r
      | .ok r => return r

def storeRefusal (r : StoreRefusal) : CommandRefusal := .operation (.store r)

/-- The refusal of the store for a file that cannot be reached. -/
def deviceRefusal (fault : FileFault) : CommandRefusal := storeRefusal (.device fault.text)

/-- Opens the store of a configuration. -/
def openStore (files : FileAccess m) (config : Config) (supply : Supply) :
    ExceptT CommandRefusal m Workspace := do
  if config.isInMemory then return workspaceOn .empty false none supply
  match ← files.makeDirectories config.dataDir with
  | .error fault => throw (deviceRefusal fault)
  | .ok () => pure ()
  let path := catalogPath config.dataDir
  let text ← if ← files.isPresent path then do
      match ← files.read path with
      | .error fault => throw (deviceRefusal fault)
      | .ok text => pure (some text)
    else pure none
  match openText text supply with
  | .error r => throw (storeRefusal r)
  | .ok ws => return ws

/-- Writes the file of the store back if it changed. -/
def closeStore (files : FileAccess m) (config : Config) (before after : Option String) :
    ExceptT CommandRefusal m Unit := do
  match after with
  | none => return ()
  | some text =>
    if before = some text then return ()
    match ← files.replace (catalogPath config.dataDir) text with
    | .error fault => throw (deviceRefusal fault)
    | .ok () => return ()

/-- Runs an invocation and answers its data. -/
def execute (files : FileAccess m) (supply : Supply) (inv : Invocation) :
    ExceptT CommandRefusal m Json := do
  let config ← loadConfig files inv.config
  let classes ← loadClasses files inv.classes
  let ws ← openStore files config supply
  let connection := Connection.plain classes config.settings
  match (inv.command.run config connection).run ws with
  | .ok data after =>
    closeStore files config ws.file after.file
    return data
  | .error r after =>
    closeStore files config ws.file after.file
    throw r

/-- The object that the tool prints for a run. -/
def response : Except CommandRefusal Json → Json
  | .ok data => .object [("data", data), ("status", .string "ok")]
  | .error r =>
    .object [("code", .string r.code), ("message", .string r.message), ("status", .string "error")]

/-- How a run of the tool ends: with arguments that did not fit, or with what its command came
to. -/
inductive Outcome where
  | unfit (usage : Usage)
  | ran (result : Except CommandRefusal Json)

namespace Outcome

/-- The code that the process ends with: 0 for success and for a text that was asked for, 1 for a
failed command, 2 for arguments that do not fit. -/
def exitCode : Outcome → Nat
  | .unfit usage => if usage.isAsked then 0 else 2
  | .ran (.ok _) => 0
  | .ran (.error _) => 1

/-- The object that the tool prints, if there was a command to run. -/
def printed? : Outcome → Option Json
  | .unfit _ => none
  | .ran result => some (response result)

end Outcome

/-- Runs a command line. -/
def runLine (files : FileAccess m) (supply : Supply) (args : List String) : m Outcome := do
  match readArgs args with
  | .error usage => return .unfit usage
  | .ok invocation => return .ran (← (execute files supply invocation).run)

end SchemaKeeper.Cli
