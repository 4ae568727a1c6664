import SchemaKeeper.Ascending
import SchemaKeeper.Schema.Registry
import SchemaKeeper.Workspace

/-!
# Connections

A connection says how datasets are reached: the registry that resolves class names, the migration
that runs before a dataset is loaded, and settings.
-/
namespace SchemaKeeper

/-- The name of the collection of definitions, the version that new datasets carry, and whether
they persist unless told otherwise. -/
structure Settings where
  definitions : String
  version : String
  persistent : Bool
  deriving DecidableEq

/-- The settings of a connection that says nothing else. -/
def Settings.default : Settings := ⟨"datasets", "0.1.0", false⟩

/-- How datasets are reached. -/
structure Connection where
  classes : Registry
  migrate : String → Op Refusal Unit
  settings : Settings

namespace Connection

/-- A connection that migrates nothing. -/
def plain (classes : Registry) (settings : Settings) : Connection :=
  ⟨classes, fun _ => pure (), settings⟩

/-- The name of the collection of definitions. -/
def definitions (c : Connection) : String := c.settings.definitions

/-- The unique index on the names of datasets. -/
def nameIndex : Index := .single "name" .ascending true

/-- Makes sure of the collection of definitions and its index. -/
def ensureDefinitions (c : Connection) : Op Refusal Unit := do
  let catalog ← Op.catalog
  if !catalog.collections.contains c.definitions then
    discard <| Op.write (.createCollection c.definitions)
  discard <| Op.write (.createIndex c.definitions nameIndex)

/-- The stored definition with the given text in a member. -/
def find? (c : Connection) (field text : String) : Op Refusal (Option Json) := do
  return (← Op.catalog).findOne c.definitions field (.string text)

/-- A dataset of the name exists. -/
def hasDataset (c : Connection) (name : String) : Op Refusal Bool := do
  return (← c.find? "name" name).isSome

/-- The names of all datasets in ascending order. -/
def datasetNames (c : Connection) : Op Refusal (List String) := do
  let catalog ← Op.catalog
  if !catalog.collections.contains c.definitions then return []
  let documents ← Op.query fun catalog => catalog.findAll c.definitions
  let names := documents.filterMap fun d => d.get? "name" >>= Json.asString?
  return Ascending.arrange id names

end Connection
end SchemaKeeper
