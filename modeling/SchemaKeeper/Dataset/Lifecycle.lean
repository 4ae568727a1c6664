import SchemaKeeper.Dataset.Basic
import SchemaKeeper.Schema.Delta

/-!
# The life of a dataset

Datasets are created, loaded, committed and deleted, each in one transaction.  A commit replays
the edits that its client made since it last saw the dataset onto the schema that is persisted
now: of two clients that changed the type of one path the later keeps its own, and edits of other
paths merge.
-/
namespace SchemaKeeper.Dataset

/-! ## Creation -/

/-- The work of a creation inside its transaction. -/
def build (c : Connection) (name : String) (s : Schema) (mediaType : Option MediaType)
    (persistent : Bool) : Op Refusal Dataset := do
  c.ensureDefinitions
  if ← c.hasDataset name then throw (.alreadyExists name)
  let provision ← Provision.make s .empty
  let live ← Provision.recover provision.definitions provision.validators c.classes
  let definition :=
    Definition.new (← Op.freshId) (← Op.now) name provision.definitions mediaType persistent
      c.settings.version
  discard <| Op.write (.insertOne c.definitions definition.document)
  return ⟨c, .attached ⟨definition, provision.validators⟩, live⟩

/-- Creates a dataset with a schema, whose root must be a document. -/
def createFrom (c : Connection) (name : String) (s : Schema) (mediaType : Option MediaType)
    (persistent : Bool) : Op Refusal Dataset := do
  discard <| Op.lift (rootClass s)
  if ← c.hasDataset name then throw (.alreadyExists name)
  let scope ← Op.openScope "DATASET_CREATE" [("dataset", name)]
  match ← Op.attempt (Op.inTransaction (build c name s mediaType persistent)) with
  | .error e =>
    Op.fail scope e.text
    throw e
  | .ok d =>
    let id := (d.definition?.map Definition.key).getD ""
    let count := (d.collections?.map Keyed.size).getD 0
    Op.complete scope [("id", id)]
    Op.note .info .datasetCreated
      [("dataset", name), ("id", id), ("collections", toString count)]
    return d

/-- Creates a dataset whose root documents are of a class. -/
def create (c : Connection) (name : String) (root : DocClass) (mediaType : Option MediaType)
    (persistent : Bool) : Op Refusal Dataset :=
  createFrom c name root.rootSchema mediaType persistent

/-! ## Loading -/

/-- Reads a dataset as it is persisted now, without migration and without a trace in the
store. -/
def read (c : Connection) (key : DatasetKey) : Op Refusal Dataset := do
  match ← c.find? key.field key.text with
  | none => throw (.datasetNotFound key.text)
  | some document =>
    let definition ← Op.lift (Definition.ofDocument document)
    let validators := Provision.loadedValidators (← Op.catalog) definition.collections
    let live ← Provision.recover definition.fields validators c.classes
    return ⟨c, .attached ⟨definition, validators⟩, live⟩

/-! ## Commits -/

/-- The schema that a client last saw: that of its own definition and validators. -/
def baseSchema (c : Connection) (h : Holding) : Op Refusal Schema :=
  Provision.recover h.definition.fields h.validators c.classes

/-- The work of a commit inside its transaction: what the client holds and its live schema
afterwards. -/
def merge (c : Connection) (h : Holding) (edited : Schema) : Op Refusal (Holding × Schema) := do
  let latest ← read c (.byId h.definition.id)
  let base ← baseSchema c h
  let delta := Delta.between base edited
  Op.note .trace .mergeComputed
    [("dataset", h.definition.name), ("added", toString delta.added.size),
      ("changed", toString delta.changed.size), ("removed", toString delta.removed.length)]
  let known := h.definition.collections.union (latest.collections?.getD .empty)
  let provision ← Provision.make (delta.apply latest.live) known
  let live ← Provision.recover provision.definitions provision.validators c.classes
  let retired := (latest.definition?.map Definition.retired).getD []
  let next := ({ h.definition with retired := retired }.retire known.values
    provision.collections).setFields provision.definitions
  if !(← Op.write (.replaceOne c.definitions next.key next.document false)) then
    throw (.datasetNotFound next.name)
  return (⟨next, provision.validators⟩, live)

/-- Merges the edits of the live schema into the persisted dataset. -/
def commit (d : Dataset) : Op Refusal Dataset := do
  let h ← Op.lift d.holding
  let scope ← Op.openScope "SCHEMA_COMMIT" [("dataset", h.definition.name)]
  match ← Op.attempt (Op.inTransaction (merge d.connection h d.live)) with
  | .error e =>
    Op.fail scope e.text
    throw e
  | .ok (next, live) =>
    Op.note .info .schemaCommitted
      [("dataset", next.definition.name), ("fields", toString next.definition.fields.length)]
    Op.complete scope []
    return { d with standing := .attached next, live := live }

/-- The same dataset, loaded at the given time. -/
def stamped (d : Dataset) (now : Moment) : Dataset :=
  match d.standing with
  | .attached h =>
    { d with standing := .attached { h with
      definition := { h.definition with lastLoadedAt := now } } }
  | _ => d

/-- Loads a dataset by name: migrates it, reads it, and commits the time of loading. -/
def load (c : Connection) (key : DatasetKey) : Op Refusal Dataset := do
  match key with
  | .byId id =>
    throw (.invalidKey ("dataset id " ++ id.text ++ " can only be loaded virtually"))
  | .byName name =>
    c.migrate name
    Op.note .trace .migrationInvoked [("dataset", name)]
    let d ← read c key
    let d ← commit (d.stamped (← Op.now))
    Op.note .info .datasetLoaded [("dataset", name)]
    return d

/-! ## Deletion -/

/-- Drops the collections in use. -/
def dropLive : List (String × String) → Op Refusal Unit
  | [] => pure ()
  | (path, name) :: rest => do
    if ← Op.write (.dropCollection name) then
      Op.note .info .collectionDropped [("path", path), ("collection", name)]
    dropLive rest

/-- Drops the collections that are no longer in use. -/
def dropRetired : List String → Op Refusal Unit
  | [] => pure ()
  | name :: rest => do
    if ← Op.write (.dropCollection name) then
      Op.note .info .collectionDropped [("collection", name), ("retired", "true")]
    dropRetired rest

/-- The work of a deletion inside its transaction.  The stored definition says what is retired,
since others may have retired collections that this client never saw. -/
def demolish (c : Connection) (definition : Definition) : Op Refusal Unit := do
  dropLive definition.collections.entries
  let retired ← match ← c.find? "_id" definition.key with
    | some stored => do
      let stored ← Op.lift (Definition.ofDocument stored)
      pure stored.retired
    | none => pure definition.retired
  dropRetired retired
  discard <| Op.write (.deleteOne c.definitions definition.key)

/-- Deletes a dataset with all its collections. -/
def delete (d : Dataset) : Op Refusal Dataset := do
  let h ← Op.lift d.holding
  Op.inTransaction (demolish d.connection h.definition)
  Op.note .info .datasetDeleted [("dataset", h.definition.name)]
  return { d with standing := .deleted }

end SchemaKeeper.Dataset
