/-!
# Routes to files

A route is a text of parts between slashes.  Each part leads from a directory to what stands in it
under a name, or stays (an empty part and a single dot), or leads back (two dots).  A route that
starts with a slash starts at the root, any other at the working directory.
-/
namespace SchemaKeeper.Route

/-- The longest name, in bytes. -/
def nameLimit : Nat := 255

/-- The longest route, in bytes. -/
def limit : Nat := 4095

/-- The part stays where it is. -/
def isIdle (part : String) : Bool := part = "" || part = "."

/-- The part is the name of something in a directory. -/
def isName (part : String) : Bool := !isIdle part && part != ".."

/-- The parts of a route. -/
def parts (route : String) : List String := route.splitOn "/"

/-- The starts of a list of parts, without those that end in an idle part, the shortest first. -/
def stages : List String → List (List String)
  | [] => []
  | part :: rest =>
    let longer := (stages rest).map (part :: ·)
    if isIdle part then longer else [part] :: longer

/-- The routes to the directories that a route passes, the nearest first.  The last part that is
not idle leads to where the route itself ends, so its stage is not among them. -/
def passed (route : String) : List String :=
  (stages (parts route)).dropLast.reverse.map (String.intercalate "/")

theorem length_stages_le (ps : List String) : (stages ps).length ≤ ps.length := by
  induction ps with
  | nil => exact Nat.le_refl 0
  | cons p ps ih =>
    unfold stages
    split <;> simp <;> omega

example : stages ["", "a", ".", "b"] = [["", "a"], ["", "a", ".", "b"]] := by decide

example : stages ["a", "..", "b", ""] = [["a"], ["a", ".."], ["a", "..", "b"]] := by decide

end SchemaKeeper.Route
