import SchemaKeeper.Dataset.Definition

/-!
# Arguments of the command line

A command line has options for the whole tool, one command, and the options and the name that the
command takes.  Options for the whole tool may also stand after the command, where they win.  An
option takes the next argument as its value or what follows an equals sign, and may be given once
before the command and once after it.
-/
namespace SchemaKeeper.Cli

/-- One operation of the tool. -/
inductive Command where
  | list
  | probe (name : String)
  | inspect (name : String)
  | delete (name : String)
  | create (name root : String) (mediaType : Option MediaType) (persistent : Bool)
  deriving DecidableEq

/-- A whole command line. -/
structure Invocation where
  config : String
  classes : Option String
  command : Command
  deriving DecidableEq

/-- Why there is no command to run: help or the version was asked for, or the arguments do not
fit. -/
inductive Usage where
  | help
  | version
  | helpForNothing
  | missingCommand
  | missingArgument
  | unknownCommand
  | unknownArgument
  | badValue
  | missingValue
  | repeated
  | needlessValue
  deriving DecidableEq

/-- The name of a case. -/
def Usage.text : Usage → String
  | .help => "DisplayHelp"
  | .version => "DisplayVersion"
  | .helpForNothing => "DisplayHelpOnMissingArgumentOrSubcommand"
  | .missingCommand => "MissingSubcommand"
  | .missingArgument => "MissingRequiredArgument"
  | .unknownCommand => "InvalidSubcommand"
  | .unknownArgument => "UnknownArgument"
  | .badValue => "ValueValidation"
  | .missingValue => "InvalidValue"
  | .repeated => "ArgumentConflict"
  | .needlessValue => "TooManyValues"

/-- The answer is a text that was asked for. -/
def Usage.isAsked : Usage → Bool
  | .help => true
  | .version => true
  | _ => false

/-- The commands by name. -/
inductive Verb where
  | list
  | probe
  | inspect
  | delete
  | create
  deriving DecidableEq

def Verb.ofText? : String → Option Verb
  | "list" => some .list
  | "exists" => some .probe
  | "inspect" => some .inspect
  | "delete" => some .delete
  | "create" => some .create
  | _ => none

/-- The options that take a value. -/
inductive Opt where
  | config
  | classes
  | root
  | mediaType
  deriving DecidableEq

/-- What an argument that starts with dashes asks for. -/
inductive Mark where
  | option (o : Opt)
  | persistent
  | help
  | version

/-- The marks with a long name, before the command (`none`) or after it. -/
def Mark.long? (verb : Option Verb) : String → Option Mark
  | "config" => some (.option .config)
  | "classes" => some (.option .classes)
  | "help" => some .help
  | "version" => if verb = none then some .version else none
  | "root" => if verb = some .create then some (.option .root) else none
  | "media-type" => if verb = some .create then some (.option .mediaType) else none
  | "persistent" => if verb = some .create then some .persistent else none
  | _ => none

/-- The marks with a short name. -/
def Mark.short? (verb : Option Verb) (c : Char) : Option Mark :=
  if c = 'h' then some .help
  else if c = 'V' ∧ verb = none then some .version
  else none

/-- How an argument is written. -/
inductive Form where
  | word
  | long (name : String) (value : Option String)
  | short (c : Char)

/-- The form of an argument; a dash alone is a word. -/
def formOf (arg : String) : Form :=
  match arg.toList with
  | '-' :: '-' :: cs =>
    match cs.dropWhile (· != '=') with
    | [] => .long (String.ofList cs) none
    | _ :: value => .long (String.ofList (cs.takeWhile (· != '='))) (some (String.ofList value))
  | '-' :: c :: _ => .short c
  | _ => .word

/-- An option that was met last: still without its value, or with it. -/
inductive Pending where
  | nothing
  | awaiting (o : Opt)
  | valued (o : Opt) (value : String)

/-- What has been read of one part of the line, before the command or after it. -/
structure Part where
  given : List (Opt × String)
  persistent : Bool
  name : Option String
  pending : Pending
  onlyWords : Bool

namespace Part

def empty : Part := ⟨[], false, none, .nothing, false⟩

def value? (p : Part) (o : Opt) : Option String := (p.given.find? fun g => g.1 = o).map (·.2)

/-- A value that the option can have: a file needs a name, a media type a known one. -/
def checkValue (o : Opt) (value : String) : Except Usage Unit :=
  match o with
  | .config => if value = "" then .error .missingValue else .ok ()
  | .classes => if value = "" then .error .missingValue else .ok ()
  | .root => .ok ()
  | .mediaType => if (MediaType.ofText? value).isSome then .ok () else .error .badValue

/-- Takes an option with its value, once. -/
def take (p : Part) (o : Opt) (value : String) : Except Usage Part := do
  if (p.value? o).isSome then throw .repeated
  checkValue o value
  return { p with given := (o, value) :: p.given }

/-- Takes the option that was met last, which must have its value by now. -/
def settle (p : Part) : Except Usage Part :=
  match p.pending with
  | .nothing => .ok p
  | .awaiting _ => .error .missingValue
  | .valued o value => take { p with pending := .nothing } o value

/-- Takes an argument that starts with dashes. -/
def mark (p : Part) (m : Option Mark) (value : Option String) : Except Usage Part :=
  match m with
  | none => .error .unknownArgument
  | some (.option o) => do
    let p ← p.settle
    match value with
    | some v => p.take o v
    | none => return { p with pending := .awaiting o }
  | some .persistent => do
    if value.isSome then throw .needlessValue
    let p ← p.settle
    if p.persistent then throw .repeated
    return { p with persistent := true }
  | some .help => do
    if value.isSome then throw .needlessValue
    discard p.settle
    throw .help
  | some .version => do
    if value.isSome then throw .needlessValue
    discard p.settle
    throw .version

/-- Takes a word after the command: the name, if the command takes one and has none yet. -/
def word (p : Part) (verb : Verb) (arg : String) : Except Usage Part :=
  if verb = .list ∨ p.name.isSome then .error .unknownArgument
  else do
    let p ← p.settle
    return { p with name := some arg }

/-- Reads what follows the command. -/
def readAfter (verb : Verb) : Part → List String → Except Usage Part
  | p, [] => p.settle
  | p, arg :: rest =>
    if p.onlyWords then do
      let p ← p.word verb arg
      readAfter verb p rest
    else if arg = "--" then readAfter verb { p with onlyWords := true } rest
    else
      match formOf arg with
      | .long name value => do
        let p ← p.mark (Mark.long? (some verb) name) value
        readAfter verb p rest
      | .short c => do
        let p ← p.mark (Mark.short? (some verb) c) none
        readAfter verb p rest
      | .word =>
        match p.pending with
        | .awaiting o => readAfter verb { p with pending := .valued o arg } rest
        | _ => do
          let p ← p.word verb arg
          readAfter verb p rest

/-- The name, which the command needs. -/
def requireName (p : Part) : Except Usage String :=
  match p.name with
  | some name => .ok name
  | none => .error .missingArgument

/-- The command with what was read for it. -/
def command (p : Part) : Verb → Except Usage Command
  | .list => .ok .list
  | .probe => p.requireName.map .probe
  | .inspect => p.requireName.map .inspect
  | .delete => p.requireName.map .delete
  | .create => do
    let name ← p.requireName
    match p.value? .root with
    | none => throw .missingArgument
    | some root =>
      return .create name root (p.value? .mediaType >>= MediaType.ofText?) p.persistent

end Part

/-- A request for help about commands: one known name at most. -/
def readHelp : List String → Usage
  | [] => .help
  | [name] => if name = "help" ∨ (Verb.ofText? name).isSome then .help else .unknownCommand
  | _ => .unknownCommand

/-- The whole line from the parts before and after the command. -/
def invocation (before after : Part) (command : Command) : Invocation where
  config := ((after.value? .config).orElse fun _ => before.value? .config).getD "./aeroschema.json"
  classes := (after.value? .classes).orElse fun _ => before.value? .classes
  command := command

/-- Reads a command line from the given part on.  What stands after the command is judged before
the last option in front of it. -/
def readFrom : Part → List String → Except Usage Invocation
  | p, [] => do
    let p ← p.settle
    if p.given.isEmpty then throw .helpForNothing
    throw .missingCommand
  | p, arg :: rest =>
    if p.onlyWords then
      .error (if arg = "help" ∨ (Verb.ofText? arg).isSome then .unknownArgument
        else .unknownCommand)
    else if arg = "--" then readFrom { p with onlyWords := true } rest
    else
      match formOf arg with
      | .long name value => do
        let p ← p.mark (Mark.long? none name) value
        readFrom p rest
      | .short c => do
        let p ← p.mark (Mark.short? none c) none
        readFrom p rest
      | .word =>
        match p.pending with
        | .awaiting o => readFrom { p with pending := .valued o arg } rest
        | _ =>
          if arg = "help" then .error (readHelp rest)
          else
            match Verb.ofText? arg with
            | none => .error .unknownCommand
            | some verb => do
              let after ← Part.readAfter verb .empty rest
              let command ← after.command verb
              let before ← p.settle
              return invocation before after command

/-- The invocation that the arguments of a command line say. -/
def readArgs (args : List String) : Except Usage Invocation := readFrom .empty args

end SchemaKeeper.Cli
