import SchemaKeeper.Proofs.Dataset.Load
import SchemaKeeper.Proofs.Dataset.Records

/-!
# Operations among other writers

Others write to the store while an operation is under way: between two of its looks at the store,
and between the beginning of its transaction and the commit.  An operation that is refused leaves
the committed catalog to them, and one that nobody disturbs is the operation itself.
-/
namespace SchemaKeeper

open Op

/-- What other writers do to the committed catalog in the pauses of an operation, one after the
other. -/
abbrev Others := Nat → Catalog → Catalog

namespace Others

/-- Nobody else writes. -/
def idle : Others := fun _ catalog => catalog

/-- What the others leave of a catalog in the first pauses. -/
def left (o : Others) : Nat → Catalog → Catalog
  | 0, catalog => catalog
  | n + 1, catalog => o n (o.left n catalog)

@[simp] theorem left_idle (n : Nat) (catalog : Catalog) : idle.left n catalog = catalog := by
  induction n with
  | zero => rfl
  | succ n ih => exact ih

end Others

namespace Workspace

/-- The workspace after others have written. -/
def moved (f : Catalog → Catalog) (ws : Workspace) : Workspace :=
  { ws with store := { ws.store with catalog := f ws.store.catalog } }

/-- No transaction is open, and the committed catalog is what the others have left of the given
one. -/
structure LeftBy (o : Others) (catalog : Catalog) (n : Nat) (ws : Workspace) : Prop where
  catalog : ws.store.catalog = o.left n catalog
  transaction : ws.transaction = none

variable {o : Others} {catalog : Catalog} {n : Nat} {ws ws' : Workspace}

theorem LeftBy.unchanged (h : LeftBy o catalog n ws) (hu : ws.Unchanged ws') :
    LeftBy o catalog n ws' := ⟨hu.catalog.trans h.catalog, hu.transaction⟩

theorem LeftBy.rests (h : LeftBy o catalog n ws) (hr : ws.Rests ws') : LeftBy o catalog n ws' :=
  h.unchanged (hr.unchanged h.transaction)

theorem LeftBy.moved (h : LeftBy o catalog n ws) : LeftBy o catalog (n + 1) (ws.moved (o n)) :=
  ⟨congrArg (o n) h.catalog, h.transaction⟩

end Workspace

namespace Op
variable {ε α β : Type} {ws ws' : Workspace}

/-- A pause in which others write. -/
def meanwhile (f : Catalog → Catalog) : Op ε Unit := modify (Workspace.moved f)

theorem meanwhile_apply (f : Catalog → Catalog) (ws : Workspace) :
    (meanwhile f : Op ε Unit) ws = .ok () (ws.moved f) := rfl

/-- Runs an operation in a transaction of its own while others write.  The work is done on a copy
of the catalog, so it does not matter when they do. -/
def inTransactionAmid [FromStore ε] (f : Catalog → Catalog) (work : Op ε α) : Op ε α := do
  let t ← beginTransaction
  let (result, t) ← within t work
  meanwhile f
  match result with
  | .ok a =>
    commitTransaction t
    return a
  | .error e =>
    abortTransaction t
    throw e

theorem inTransactionAmid_idle [FromStore ε] (work : Op ε α) (n : Nat) :
    inTransactionAmid (Others.idle n) work = inTransaction work := rfl

theorem within_not_error {t : Transaction} {work : Op ε α} {e : β} :
    (within t work : Op β _) ws ≠ .error e ws' := by
  simp only [within, bind_apply, get_apply, modify_apply, attempt]
  cases work { ws with transaction := some t }
  all_goals
    intro h
    cases h

end Op

namespace Dataset
variable {c : Connection} {o : Others} {catalog : Catalog} {n : Nat} {ws ws' : Workspace}

/-! ## The operations -/

/-- Creates a dataset while others write: after the look whether the name is taken, and during the
transaction. -/
def createFromAmid (o : Others) (c : Connection) (name : String) (s : Schema)
    (mediaType : Option MediaType) (persistent : Bool) : Op Refusal Dataset := do
  discard <| Op.lift (rootClass s)
  if ← c.hasDataset name then throw (.alreadyExists name)
  meanwhile (o 0)
  let scope ← Op.openScope "DATASET_CREATE" [("dataset", name)]
  match ← Op.attempt (inTransactionAmid (o 1) (build c name s mediaType persistent)) with
  | .error e =>
    Op.fail scope e.text
    throw e
  | .ok d =>
    let id := (d.definition?.map Definition.key).getD ""
    let count := (d.collections?.map Keyed.size).getD 0
    Op.complete scope [("id", id)]
    Op.note .info .datasetCreated
      [("dataset", name), ("id", id), ("collections", toString count)]
    return d

/-- Commits while others write. -/
def commitAmid (f : Catalog → Catalog) (d : Dataset) : Op Refusal Dataset := do
  let h ← Op.lift d.holding
  let scope ← Op.openScope "SCHEMA_COMMIT" [("dataset", h.definition.name)]
  match ← Op.attempt (inTransactionAmid f (merge d.connection h d.live)) with
  | .error e =>
    Op.fail scope e.text
    throw e
  | .ok (next, live) =>
    Op.note .info .schemaCommitted
      [("dataset", next.definition.name), ("fields", toString next.definition.fields.length)]
    Op.complete scope []
    return { d with standing := .attached next, live := live }

/-- Reads a dataset while others write, between the look at its definition and that at its
validators. -/
def readAmid (f : Catalog → Catalog) (c : Connection) (key : DatasetKey) : Op Refusal Dataset := do
  match ← c.find? key.field key.text with
  | none => throw (.datasetNotFound key.text)
  | some document =>
    meanwhile f
    let definition ← Op.lift (Definition.ofDocument document)
    let validators := Provision.loadedValidators (← Op.catalog) definition.collections
    let live ← Provision.recover definition.fields validators c.classes
    return ⟨c, .attached ⟨definition, validators⟩, live⟩

/-- Loads a dataset while others write: after the migration, while it is read, before it is
committed, and during the commit. -/
def loadAmid (o : Others) (c : Connection) (key : DatasetKey) : Op Refusal Dataset := do
  match key with
  | .byId id =>
    throw (.invalidKey ("dataset id " ++ id.text ++ " can only be loaded virtually"))
  | .byName name =>
    c.migrate name
    Op.note .trace .migrationInvoked [("dataset", name)]
    meanwhile (o 0)
    let d ← readAmid (o 1) c key
    meanwhile (o 2)
    let d ← commitAmid (o 3) (d.stamped (← Op.now))
    Op.note .info .datasetLoaded [("dataset", name)]
    return d

/-- Deletes a dataset while others write. -/
def deleteAmid (f : Catalog → Catalog) (d : Dataset) : Op Refusal Dataset := do
  let h ← Op.lift d.holding
  inTransactionAmid f (demolish d.connection h.definition)
  Op.note .info .datasetDeleted [("dataset", h.definition.name)]
  return { d with standing := .deleted }

/-- Saves a record while others write. -/
def saveRecordAmid (f : Catalog → Catalog) (d : Dataset) (r : Record) : Op Refusal Unit := do
  let c ← Op.lift d.collections
  inTransactionAmid f (writeRecord c r)
  let name := (d.definition?.map Definition.name).getD ""
  Op.note .trace .recordSaved [("dataset", name), ("id", r.id.text)]

theorem createFromAmid_idle (name : String) (s : Schema) (mediaType : Option MediaType)
    (persistent : Bool) : createFromAmid .idle c name s mediaType persistent =
      createFrom c name s mediaType persistent := rfl

theorem commitAmid_idle (n : Nat) (d : Dataset) : commitAmid (Others.idle n) d = commit d := rfl

theorem readAmid_idle (n : Nat) (key : DatasetKey) :
    readAmid (Others.idle n) c key = read c key := rfl

theorem loadAmid_idle (key : DatasetKey) : loadAmid .idle c key = load c key := rfl

theorem deleteAmid_idle (n : Nat) (d : Dataset) : deleteAmid (Others.idle n) d = delete d := rfl

theorem saveRecordAmid_idle (n : Nat) (d : Dataset) (r : Record) :
    saveRecordAmid (Others.idle n) d r = saveRecord d r := rfl

/-! ## Refusals -/

end Dataset
end SchemaKeeper
