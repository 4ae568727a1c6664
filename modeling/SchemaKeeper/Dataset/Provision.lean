import SchemaKeeper.Layout.Basic
import SchemaKeeper.Workspace

/-!
# Provisioning

Makes the store match a schema: collections that are missing are created after one look at what
exists, then the indexes of their classes, then validators are installed where they differ.
-/
namespace SchemaKeeper

/-- What a schema is laid out as in the store. -/
structure Provision where
  definitions : List FieldDefinition
  validators : Validators

namespace Provision

/-- The backing collections, by path. -/
def collections (p : Provision) : Collections := FieldDefinition.collections p.definitions

/-- Installs a validator unless an equal one is there, and tells whether it did. -/
def installValidator {ε : Type} [FromStore ε] (collection : String) (rule : Rule) : Op ε Bool := do
  let installed ← Op.query fun catalog => catalog.validatorOf collection
  if Collection.sameValidator installed (some rule.document) then
    Op.note .trace .validatorUnchanged [("collection", collection)]
    return false
  else
    discard <| Op.write (.setValidator collection rule.document)
    Op.note .info .validatorInstalled [("collection", collection)]
    return true

/-- Installs all validators. -/
def installValidators : List (String × Rule) → Op Refusal Unit
  | [] => pure ()
  | (name, rule) :: rest => do
    discard <| installValidator name rule
    installValidators rest

/-- Makes sure of the indexes of a collection. -/
def ensureIndexes (collection : String) : List Index → Op Refusal Unit
  | [] => pure ()
  | index :: rest => do
    if ← Op.write (.createIndex collection index) then
      Op.note .info .indexCreated [("collection", collection), ("index", index.name)]
    ensureIndexes collection rest

/-- The indexes that the class at a path asks for. -/
def indexesAt (s : Schema) (path : String) : List Index :=
  match (s.get? path >>= Field.type) >>= Shape.nested? with
  | some c => c.indexes
  | none => []

/-- Makes sure of all collections and their indexes. -/
def ensureCollections (s : Schema) (existing : Keyed Unit) :
    List (String × String) → Op Refusal Unit
  | [] => pure ()
  | (path, name) :: rest => do
    if !existing.contains name then
      discard <| Op.write (.createCollection name)
      Op.note .info .collectionCreated [("path", path), ("collection", name)]
    ensureIndexes name (indexesAt s path)
    ensureCollections s existing rest

/-- The field definitions of a schema, fresh collection names drawn from the supply. -/
def define (s : Schema) (known : Collections) : Op Refusal (List FieldDefinition) := do
  let ws ← get
  let (definitions, drawn) ←
    Op.lift (Layout.define ws.supply.ids known ws.supply.drawn s.entries)
  set { ws with supply := { ws.supply with drawn := drawn } }
  return definitions

/-- Lays a schema out in the store.  Collections that are known for a path are used again. -/
def make (s : Schema) (known : Collections) : Op Refusal Provision := do
  let definitions ← define s known
  let collections := FieldDefinition.collections definitions
  let validators ← Op.lift (Layout.validators collections s)
  let existing := (← Op.catalog).existing collections.values
  ensureCollections s existing collections.entries
  installValidators validators.entries
  return ⟨definitions, validators⟩

/-- The rules that can be read from the validators of the collections that exist. -/
def loadedValidators (catalog : Catalog) (c : Collections) : Validators :=
  Keyed.ofList (c.values.filterMap fun name => do
    let state ← catalog.collections.get? name
    let document ← state.validator
    let rule ← Rule.ofDocument? document
    return (name, rule))

/-- Reads a schema back and notes the paths on which the validators were silent. -/
def recover (definitions : List FieldDefinition) (v : Validators) (r : Registry) :
    Op Refusal Schema := do
  let (silent, result) := Layout.recover definitions v r
  silent.forM fun path => Op.note .warn .validatorFallback [("path", path)]
  Op.lift result

end Provision
end SchemaKeeper
