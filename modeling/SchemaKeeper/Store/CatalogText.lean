import SchemaKeeper.Json.Reader
import SchemaKeeper.Store.Catalog

/-!
# The text of a catalog

A store that is kept in a file writes its whole catalog there, the version first.  A collection
without validator leaves that member out; on reading, null stands for no validator as well.
-/
namespace SchemaKeeper

namespace Collection

/-- The written form of a collection. -/
def json (c : Collection) : Json :=
  .object (("documents", .ofKeyed c.documents) :: ("indexes", .array (c.indexes.map Index.json)) ::
    match c.validator with
    | some v => [("validator", v)]
    | none => [])

def ofTree? (t : Tree) : Option Collection := do
  let ms ← t.record? ["documents", "indexes", "validator"]
  let documents ← Tree.orElse? (Tree.keyed? Tree.settle?) .empty ms "documents"
  let indexes ← Tree.orElse? (Tree.list? Index.ofTree?) [] ms "indexes"
  let validator ← Tree.orElse? (Tree.nullable? Tree.settle?) none ms "validator"
  return ⟨documents, indexes, validator⟩

end Collection

namespace Catalog

/-- The written form of a catalog, its members in the order of the file. -/
def json (c : Catalog) : Json :=
  .object [("version", .int (Int.ofNat c.version)),
    ("collections", .ofKeyed (c.collections.mapValues fun _ state => state.json))]

/-- The text of the catalog in the file. -/
def text (c : Catalog) : String := c.json.pretty

def ofTree? (t : Tree) : Option Catalog := do
  let ms ← t.record? ["version", "collections"]
  let version ← Tree.require? Tree.word? ms "version"
  let collections ← Tree.require? (Tree.keyed? Collection.ofTree?) ms "collections"
  return ⟨version, collections⟩

/-- The catalog that a text says. -/
def read? (text : String) : Option Catalog := Tree.read? text >>= ofTree?

end Catalog
end SchemaKeeper
