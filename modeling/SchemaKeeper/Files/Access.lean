import SchemaKeeper.Files.Route

/-!
# Access to files

Files are reached through `FileAccess`, a record of the steps that a device takes, so what is done
with files can be followed on any kind of them.  Two things take several steps: a directory is
made together with those it lies in (`FileAccess.makeDirectories`), and a file is replaced as a
whole (`FileAccess.replace`).
-/
namespace SchemaKeeper

/-- Why a file or a directory cannot be reached or made. -/
inductive FileFault where
  | missing
  | notDirectory
  | isDirectory
  | taken
  | tooLong
  | malformed
  | other (reason : String)
  deriving DecidableEq

/-- What a fault says. -/
def FileFault.text : FileFault → String
  | .missing => "no such file or directory"
  | .notDirectory => "not a directory"
  | .isDirectory => "is a directory"
  | .taken => "something has this name"
  | .tooLong => "name too long"
  | .malformed => "a null character in the path"
  | .other reason => reason

/-- How files are reached. -/
structure FileAccess (m : Type → Type) where
  read : String → m (Except FileFault String)
  isPresent : String → m Bool
  isDirectory : String → m Bool
  makeDirectory : String → m (Except FileFault Unit)
  write : String → String → m (Except FileFault Unit)
  move : String → String → m (Except FileFault Unit)

namespace FileAccess
variable {m : Type → Type} [Monad m]

/-- What became of making a directory; it does no harm that the directory was there. -/
def settle (files : FileAccess m) (route : String) :
    Except FileFault Unit → m (Except FileFault Unit)
  | .ok () => return .ok ()
  | .error fault => do
    if ← files.isDirectory route then return .ok () else return .error fault

/-- Makes the first of some directories, each of which lies in the next.  The others are made only
if the first finds no place. -/
def makeEach (files : FileAccess m) : List String → m (Except FileFault Unit)
  | [] => return .ok ()
  | route :: outer => do
    match ← files.makeDirectory route with
    | .error .missing =>
      match ← makeEach files outer with
      | .error fault => return .error fault
      | .ok () => files.settle route (← files.makeDirectory route)
    | result => files.settle route result

/-- Makes a directory and, where they are missing, those that the route to it passes. -/
def makeDirectories (files : FileAccess m) (route : String) : m (Except FileFault Unit) :=
  files.makeEach (route :: Route.passed route)

/-- Gives a file a new text.  The text is written beside the file and then moved there, so the
file never holds a part of it. -/
def replace (files : FileAccess m) (route text : String) : m (Except FileFault Unit) := do
  match ← files.write (route ++ ".tmp") text with
  | .error fault => return .error fault
  | .ok () => files.move (route ++ ".tmp") route

end FileAccess
end SchemaKeeper
