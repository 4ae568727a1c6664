import SchemaKeeper.Ascending
import SchemaKeeper.Schema.Descriptor

/-!
# Field definitions

The persisted form of one path of a schema: its type and, where documents stand, the name of the
collection that holds them.
-/
namespace SchemaKeeper

/-- Backing collections by path. -/
abbrev Collections := Keyed String

/-- A persisted field. -/
structure FieldDefinition where
  path : String
  type : Descriptor
  collection : Option String
  deriving DecidableEq

namespace FieldDefinition

/-- The stored form; a field without collection leaves that member out. -/
def json (d : FieldDefinition) : Json :=
  .object ((match d.collection with
      | some name => [("collection", .string name)]
      | none => []) ++ [("path", .string d.path), ("type", d.type.json)])

def ofTree? (t : Tree) : Option FieldDefinition := do
  let ms ← t.record? ["path", "type", "collection"]
  let path ← Tree.require? Tree.string? ms "path"
  let type ← Tree.require? Descriptor.ofTree? ms "type"
  let collection ← Tree.orElse? (Tree.nullable? Tree.string?) none ms "collection"
  return ⟨path, type, collection⟩

/-- Documents stand at the path. -/
def isDocument (d : FieldDefinition) : Bool := d.collection.isSome

/-- The collections that definitions name, by path; of two with one path the later counts. -/
def collections (ds : List FieldDefinition) : Collections :=
  Keyed.ofList (ds.filterMap fun d => d.collection.map fun name => (d.path, name))

/-- Definitions in ascending order of their paths; equal paths keep their order. -/
def sorted (ds : List FieldDefinition) : List FieldDefinition :=
  Ascending.arrange path ds

end FieldDefinition
end SchemaKeeper
