import SchemaKeeper.Dataset.Lifecycle
import SchemaKeeper.Record.Form

/-!
# Records of a dataset

Saving writes a record and all documents inside it in one transaction; loading reads them back
through the live schema.
-/
namespace SchemaKeeper.Dataset

/-- An empty record with a fresh identifier. -/
def newRecord (d : Dataset) : Op Refusal Record := do
  let root ← Op.lift (rootClass d.live)
  return .empty (← Op.freshId) root

/-- Writes documents to the collections of their paths. -/
def writeParts (c : Collections) : List Part → Op Refusal Unit
  | [] => pure ()
  | part :: rest => do
    let collection ← Op.lift (Record.collectionFor c part.path)
    discard <| Op.write (.replaceOne collection part.id.text part.document true)
    writeParts c rest

/-- Writes the documents inside a record and then the record. -/
def writeRecord (c : Collections) (r : Record) : Op Refusal Unit := do
  let root ← Op.lift (Record.collectionFor c "")
  writeParts c r.parts
  discard <| Op.write (.replaceOne root r.id.text r.document true)

/-- Saves a record with all documents inside it. -/
def saveRecord (d : Dataset) (r : Record) : Op Refusal Unit := do
  let c ← Op.lift d.collections
  Op.inTransaction (writeRecord c r)
  let name := (d.definition?.map Definition.name).getD ""
  Op.note .trace .recordSaved [("dataset", name), ("id", r.id.text)]

/-- Loads the record with an identifier, if it is there. -/
def loadRecord (d : Dataset) (id : Uuid) : Op Refusal (Option Record) := do
  let c ← Op.lift d.collections
  let root ← Op.lift (rootClass d.live)
  let collection ← Op.lift (Record.collectionFor c "")
  let catalog ← Op.catalog
  match catalog.findOne collection "_id" (.string id.text) with
  | none => return none
  | some document =>
    let r ← Op.lift (Record.ofDocument catalog d.live c root document)
    return some r

/-- Loads every record, in the order of their identifiers. -/
def loadRecords (d : Dataset) : Op Refusal (List Record) := do
  let c ← Op.lift d.collections
  let root ← Op.lift (rootClass d.live)
  let collection ← Op.lift (Record.collectionFor c "")
  let catalog ← Op.catalog
  let documents ← Op.liftStore (catalog.findAll collection)
  documents.mapM fun document => Op.lift (Record.ofDocument catalog d.live c root document)

end SchemaKeeper.Dataset
