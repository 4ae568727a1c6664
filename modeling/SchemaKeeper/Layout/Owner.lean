import SchemaKeeper.Layout.FieldDefinition
import SchemaKeeper.Path

/-!
# Owners of paths

A path belongs to the collection at the longest other path within which it lies; the root owns
what no other collection claims, and has itself no owner.
-/
namespace SchemaKeeper.Collections

/-- The collection path could own the path. -/
def claims (candidate path : String) : Bool :=
  candidate != path && Path.isWithin candidate path

/-- The longer of the candidates that claim a path. -/
def longest (path : String) : List String → Option String
  | [] => none
  | candidate :: rest =>
    match longest path rest with
    | none => if claims candidate path then some candidate else none
    | some best =>
      if claims candidate path && decide (best.length < candidate.length) then some candidate
      else some best

/-- The collection path that owns a path. -/
def owner? (c : Collections) (path : String) : Option String := longest path c.keys

/-- The collection that owns a path, with the name of the path below it. -/
def home? (c : Collections) (path : String) : Option (String × String) := do
  let owner ← c.owner? path
  let name ← c.get? owner
  return (name, Path.under owner path)

end SchemaKeeper.Collections
