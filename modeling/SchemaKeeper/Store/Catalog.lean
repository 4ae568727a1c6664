import SchemaKeeper.Json.Printer
import SchemaKeeper.Refusal
import SchemaKeeper.Schema.Index
import SchemaKeeper.Validator.Check
import SchemaKeeper.Validator.Form

/-!
# Catalogs

A catalog is everything a store holds: collections by name, each with documents by identifier,
indexes and perhaps a validator document, and a version that counts effective writes.  A `Write`
is one change; `Catalog.perform` makes it and answers whether it found something to do, or refuses
it.
-/
namespace SchemaKeeper

/-- A named set of documents with what they must obey. -/
structure Collection where
  documents : Keyed Json
  indexes : List Index
  validator : Option Json

namespace Collection

def empty : Collection := ⟨.empty, [], none⟩

/-- Two validators agree. -/
def sameValidator : Option Json → Option Json → Bool
  | some a, some b => a.same b
  | none, none => true
  | _, _ => false

/-- The collections hold the same. -/
def same (a b : Collection) : Bool :=
  Json.sameMembers a.documents.entries b.documents.entries
    && decide (a.indexes = b.indexes) && sameValidator a.validator b.validator

/-- Two keys of one index agree. -/
def sameKey (a b : List Json) : Bool := Json.sameItems a b

/-- Another document already has the key that the unique index finds in this one. -/
def clashes (c : Collection) (id : String) (document : Json) (i : Index) : Bool :=
  match i.keyOf? document with
  | none => false
  | some key =>
    c.documents.entries.any fun e =>
      e.1 != id && (match i.keyOf? e.2 with | some other => sameKey other key | none => false)

/-- Asks the validator and then each unique index whether a document may stand under its
identifier. -/
def accept (c : Collection) (name id : String) (document : Json) : Except StoreRefusal Unit := do
  match c.validator with
  | none => pure ()
  | some v =>
    match Rule.ofDocument? v with
    | none =>
      throw (.internal ("collection '" ++ name ++ "' has an unreadable validator"))
    | some rule =>
      match rule.checkDocument document with
      | .error complaint => throw (.failedValidation name complaint.text)
      | .ok () => pure ()
  match c.indexes.find? fun i => i.unique && c.clashes id document i with
  | some i => throw (.duplicateKey name i.name)
  | none => pure ()

/-- Two documents have the same text in the fields of an index. -/
def hasDuplicate (c : Collection) (i : Index) : Bool :=
  !((c.documents.values.filterMap i.keyOf?).map fun key => (Json.array key).compact).Nodup

end Collection

/-- All collections by name, and the count of effective writes. -/
structure Catalog where
  version : Nat
  collections : Keyed Collection

/-- One change to a catalog. -/
inductive Write where
  | createCollection (name : String)
  | dropCollection (name : String)
  | createIndex (collection : String) (index : Index)
  | setValidator (collection : String) (validator : Json)
  | insertOne (collection : String) (document : Json)
  | replaceOne (collection id : String) (document : Json) (upsert : Bool)
  | deleteOne (collection id : String)

/-- How often something was done to a store since it was opened. -/
structure Counters where
  created : Nat
  dropped : Nat
  indexes : Nat
  validators : Nat
  committed : Nat
  aborted : Nat
  deriving DecidableEq

namespace Counters

def zero : Counters := ⟨0, 0, 0, 0, 0, 0⟩

def add (a b : Counters) : Counters :=
  ⟨a.created + b.created, a.dropped + b.dropped, a.indexes + b.indexes,
    a.validators + b.validators, a.committed + b.committed, a.aborted + b.aborted⟩

instance : Add Counters := ⟨add⟩

/-- The provisioning steps since an earlier count: collections, indexes and validators. -/
def provisionedSince (now earlier : Counters) : Nat :=
  (now.created - earlier.created) + (now.indexes - earlier.indexes)
    + (now.validators - earlier.validators)

end Counters

/-- What a write that was performed adds to the counters, given its answer. -/
def Write.counted : Write → Bool → Counters
  | .createCollection _, true => { Counters.zero with created := 1 }
  | .dropCollection _, true => { Counters.zero with dropped := 1 }
  | .createIndex _ _, true => { Counters.zero with indexes := 1 }
  | .setValidator _ _, true => { Counters.zero with validators := 1 }
  | _, _ => .zero

namespace Catalog

/-- The catalog of a new store. -/
def empty : Catalog := ⟨0, .empty⟩

def sameCollections : List (String × Collection) → List (String × Collection) → Bool
  | [], [] => true
  | (k, a) :: as, (k', b) :: bs => k == k' && a.same b && sameCollections as bs
  | _, _ => false

/-- The catalogs have the same version and hold the same. -/
def same (a b : Catalog) : Bool :=
  a.version == b.version && sameCollections a.collections.entries b.collections.entries

def collection (c : Catalog) (name : String) : Except StoreRefusal Collection :=
  match c.collections.get? name with
  | some state => .ok state
  | none => .error (.collectionNotFound name)

/-- Those of the names that are collections, each once and in ascending order. -/
def existing (c : Catalog) (names : List String) : Keyed Unit :=
  Keyed.ofList ((names.filter c.collections.contains).map fun name => (name, ()))

/-- The first document, in the order of identifiers, whose field has the value. -/
def findOne (c : Catalog) (collection field : String) (value : Json) : Option Json :=
  match c.collections.get? collection with
  | some state =>
    state.documents.values.find? fun d =>
      match d.get? field with
      | some v => v.same value
      | none => false
  | none => none

def findAll (c : Catalog) (name : String) : Except StoreRefusal (List Json) :=
  (c.collection name).map fun state => state.documents.values

def indexesOf (c : Catalog) (name : String) : Except StoreRefusal (List Index) :=
  (c.collection name).map fun state => state.indexes

def validatorOf (c : Catalog) (name : String) : Except StoreRefusal (Option Json) :=
  (c.collection name).map fun state => state.validator

/-- Puts a collection in the place of the one of its name. -/
def setCollection (c : Catalog) (name : String) (state : Collection) : Catalog :=
  { c with collections := c.collections.insert name state }

/-- The identifier that a document carries. -/
def documentId (document : Json) : Except StoreRefusal String :=
  match document.get? "_id" with
  | some (.string id) => .ok id
  | _ => .error (.invalidDocument "document has no string _id")

/-- Makes one change.  The answer tells whether there was something to change: a collection to
drop, an index not yet there, a document to replace or delete. -/
def perform (c : Catalog) : Write → Except StoreRefusal (Bool × Catalog)
  | .createCollection name =>
    if c.collections.contains name then .error (.collectionExists name)
    else .ok (true, c.setCollection name .empty)
  | .dropCollection name =>
    if c.collections.contains name then
      .ok (true, { c with collections := c.collections.erase name })
    else .ok (false, c)
  | .createIndex name index => do
    let state ← c.collection name
    if state.indexes.any fun i => decide (i.keys = index.keys) then return (false, c)
    if index.unique && state.hasDuplicate index then throw (.duplicateKey name index.name)
    return (true, c.setCollection name { state with indexes := state.indexes ++ [index] })
  | .setValidator name validator => do
    let state ← c.collection name
    return (true, c.setCollection name { state with validator := some validator })
  | .insertOne name document => do
    let id ← documentId document
    let state ← c.collection name
    if state.documents.contains id then throw (.duplicateKey name "_id_")
    state.accept name id document
    return (true,
      c.setCollection name { state with documents := state.documents.insert id document })
  | .replaceOne name id document upsert => do
    let own ← documentId document
    if own ≠ id then
      throw (.invalidDocument ("replacement for '" ++ id ++ "' carries a different _id"))
    let state ← c.collection name
    if !upsert && !state.documents.contains id then return (false, c)
    state.accept name id document
    return (true,
      c.setCollection name { state with documents := state.documents.insert id document })
  | .deleteOne name id =>
    match c.collections.get? name with
    | none => .ok (false, c)
    | some state =>
      if state.documents.contains id then
        .ok (true, c.setCollection name { state with documents := state.documents.erase id })
      else .ok (false, c)

end Catalog
end SchemaKeeper
