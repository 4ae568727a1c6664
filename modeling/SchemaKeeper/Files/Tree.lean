import SchemaKeeper.Files.Access
import SchemaKeeper.Keyed

/-!
# Files held in memory

A tree of directories with files at its leaves.  A route is walked part by part from the root: the
walk keeps the directories above the spot that it has reached, so two dots lead back, and the
whole tree can be put together again around a changed spot.  Every part needs a directory to start
from, so nothing follows a file, not even an idle part.
-/
namespace SchemaKeeper

/-- What has a name in a directory. -/
inductive Entry where
  | file (text : String)
  | directory (entries : List (String × Entry))

/-- A spot in a tree: what stands there, and the directories above it, the nearest first, each with
the name that it has for what lies below. -/
structure Spot where
  entry : Entry
  above : List (String × List (String × Entry))

namespace Spot

/-- The root of a tree. -/
def root (tree : Entry) : Spot := ⟨tree, []⟩

/-- The spot one part further.  Nothing lies above the root, so two dots stay there. -/
def step (s : Spot) (part : String) : Except FileFault Spot :=
  match s.entry with
  | .file _ => .error .notDirectory
  | .directory entries =>
    if Route.isIdle part then .ok s
    else if part = ".." then
      match s.above with
      | [] => .ok s
      | (_, outer) :: above => .ok ⟨.directory outer, above⟩
    else if Route.nameLimit < part.utf8ByteSize then .error .tooLong
    else
      match Entries.get? entries part with
      | none => .error .missing
      | some entry => .ok ⟨entry, (part, entries) :: s.above⟩

/-- The spot at the end of some parts. -/
def walk (s : Spot) (parts : List String) : Except FileFault Spot := parts.foldlM step s

/-- The whole tree around a spot. -/
def whole (s : Spot) : Entry :=
  s.above.foldl (fun entry d => .directory (Entries.insert d.1 entry d.2)) s.entry

/-- The whole tree, with the entries of the directory at the spot changed. -/
def change (s : Spot) (f : List (String × Entry) → List (String × Entry)) : Entry :=
  match s.entry with
  | .file _ => s.whole
  | .directory entries => whole ⟨.directory (f entries), s.above⟩

theorem walk_nil (s : Spot) : s.walk [] = .ok s := rfl

theorem walk_cons (s : Spot) (part : String) (rest : List String) :
    s.walk (part :: rest) = s.step part >>= fun s => s.walk rest := rfl

/-- An idle part stays in a directory. -/
theorem step_idle {s : Spot} {entries : List (String × Entry)} {part : String}
    (hs : s.entry = .directory entries) (h : Route.isIdle part = true) : s.step part = .ok s := by
  simp [step, hs, h]

/-- Nothing follows a file. -/
theorem step_file {s : Spot} {text : String} (hs : s.entry = .file text) (part : String) :
    s.step part = .error .notDirectory := by simp [step, hs]

end Spot

/-- The files of a device: the tree below its root. -/
structure Files where
  tree : Entry

namespace Files

/-- The name of the working directory in the root. -/
def home : String := "home"

/-- A working directory without files, and the null device, which reads as an empty text. -/
def empty : Files :=
  ⟨.directory [("dev", .directory [("null", .file "")]), (home, .directory [])]⟩

/-- The parts of a route from the root; a route may hold no null character and not be too long. -/
def parts (route : String) : Except FileFault (List String) :=
  if route = "" then .error .missing
  else if '\x00' ∈ route.toList then .error .malformed
  else if Route.limit < route.utf8ByteSize then .error .tooLong
  else if route.startsWith "/" then .ok (Route.parts route)
  else .ok (home :: Route.parts route)

/-- The spot that parts from the root lead to. -/
def walk (files : Files) (parts : List String) : Except FileFault Spot :=
  (Spot.root files.tree).walk parts

/-- The spot that a route leads to. -/
def find (files : Files) (route : String) : Except FileFault Spot := parts route >>= files.walk

/-- The directory in which the last of some parts is a name, and that name. -/
def slot (files : Files) (parts : List String) : Except FileFault (Spot × String) :=
  match parts.getLast? with
  | none => .error .taken
  | some name => do
    let s ← files.walk parts.dropLast
    if Route.isName name then return (s, name) else throw .taken

/-- The text of a file. -/
def read (files : Files) (route : String) : Except FileFault String := do
  match (← files.find route).entry with
  | .file text => return text
  | .directory _ => throw .isDirectory

/-- The route leads to a file or a directory. -/
def isPresent (files : Files) (route : String) : Bool :=
  match files.find route with
  | .ok _ => true
  | .error _ => false

/-- The route leads to a directory. -/
def isDirectory (files : Files) (route : String) : Bool :=
  match files.find route with
  | .ok ⟨.directory _, _⟩ => true
  | _ => false

/-- Makes a directory, under a name that nothing has; slashes may follow the name. -/
def makeDirectory (files : Files) (route : String) : Except FileFault Files := do
  let (s, name) ← files.slot ((← parts route).reverse.dropWhile (· = "")).reverse
  match s.step name with
  | .ok _ => throw .taken
  | .error .missing => return ⟨s.change (Entries.insert name (.directory []))⟩
  | .error fault => throw fault

/-- Writes a file, new or in place of one. -/
def write (files : Files) (route text : String) : Except FileFault Files := do
  let (s, name) ← files.slot (← parts route)
  let written : Files := ⟨s.change (Entries.insert name (.file text))⟩
  match s.step name with
  | .ok ⟨.directory _, _⟩ => throw .isDirectory
  | .ok ⟨.file _, _⟩ => return written
  | .error .missing => return written
  | .error fault => throw fault

/-- Moves a file to another route. -/
def move (files : Files) (source target : String) : Except FileFault Files := do
  let text ← files.read source
  let moved ← files.write target text
  let (s, name) ← moved.slot (← parts source)
  return ⟨s.change (Entries.erase name)⟩

/-- Applies a change to the files; one that fails leaves them as they are. -/
def apply (change : Files → Except FileFault Files) : StateM Files (Except FileFault Unit) :=
  fun files =>
    match change files with
    | .ok changed => (.ok (), changed)
    | .error fault => (.error fault, files)

/-- How the files are reached. -/
def access : FileAccess (StateM Files) where
  read route := do return (← get).read route
  isPresent route := do return (← get).isPresent route
  isDirectory route := do return (← get).isDirectory route
  makeDirectory route := apply fun files => files.makeDirectory route
  write route text := apply fun files => files.write route text
  move source target := apply fun files => files.move source target

/-- Puts a text at a route, where the directories that the route passes are made for it. -/
def put (files : Files) (route text : String) : Files :=
  let store : StateM Files Unit := do
    discard <| access.makeEach (Route.passed route)
    discard <| access.write route text
  (store.run files).2

/-- Files from their texts by their routes. -/
def ofTexts (texts : List (String × String)) : Files :=
  texts.foldl (fun files t => files.put t.1 t.2) empty

end Files
end SchemaKeeper
