import SchemaKeeper.Layout.Owner
import SchemaKeeper.Schema.Registry
import SchemaKeeper.Uuid
import SchemaKeeper.Validator.Rule

/-!
# The layout of a schema

A schema is laid out over a store as field definitions, backing collections and one validator for
each collection.  `Layout.define` and `Layout.validators` lay a schema out, `Layout.recover` reads
it back: the validators are asked first, and a definition speaks for itself where they are silent.
-/
namespace SchemaKeeper

/-- Validator rules by the name of their collection. -/
abbrev Validators := Keyed Rule

namespace Layout

/-- Lower case for the capitals of a class name, each with an underscore before it unless it
comes first; what is no letter or digit of ASCII becomes an underscore. -/
def lowerWords : Bool → List Char → List Char
  | _, [] => []
  | first, c :: cs =>
    if 'A' ≤ c ∧ c ≤ 'Z' then
      if first then c.toLower :: lowerWords false cs else '_' :: c.toLower :: lowerWords false cs
    else if c.isAlphanum then c :: lowerWords false cs
    else '_' :: lowerWords false cs

/-- The name of a new collection for a class. -/
def collectionName (className : String) (id : Uuid) : String :=
  String.ofList (lowerWords true className.toList) ++ "." ++ id.plain

/-- The definitions of the fields of a schema.  A path where documents stand keeps the collection
that is known for it, or gets a new one named with the next of the identifiers.  The count of
identifiers drawn is answered with them. -/
def define (ids : Nat → Uuid) (known : Collections) :
    Nat → List (String × Field) → Except Refusal (List FieldDefinition × Nat)
  | drawn, [] => .ok ([], drawn)
  | drawn, (path, field) :: rest => do
    let type ← field.requireType path
    let (collection, drawn) := match type.nested? with
      | none => (none, drawn)
      | some c =>
        match known.get? path with
        | some name => (some name, drawn)
        | none => (some (collectionName c.name (ids drawn)), drawn + 1)
    let (ds, drawn) ← define ids known drawn rest
    return (⟨path, type.descriptor, collection⟩ :: ds, drawn)

/-- The class whose documents the collection at a path holds. -/
def classAt (s : Schema) (path : String) : Except Refusal DocClass := do
  let type ← s.typeAt path
  match type.nested? with
  | some c => return c
  | none => throw (.unresolvable path "collection path is not document-typed")

/-- One titled rule for each collection, still without properties. -/
def titles (s : Schema) : List (String × String) → Validators → Except Refusal Validators
  | [], v => .ok v
  | (path, name) :: rest, v => do
    let c ← classAt s path
    titles s rest (v.insert name (.collection c.name))

/-- Puts each field as a property into the rule of the collection that owns its path. -/
def assign (c : Collections) : List (String × Field) → Validators → Except Refusal Validators
  | [], v => .ok v
  | (path, field) :: rest, v =>
    match c.home? path with
    | none => assign c rest v
    | some (name, key) => do
      let type ← field.requireType path
      match v.get? name with
      | none => assign c rest v
      | some rule =>
        assign c rest (v.insert name (rule.withProperty key (.ofDescriptor type.descriptor)))

/-- The validators of a schema over its collections. -/
def validators (c : Collections) (s : Schema) : Except Refusal Validators := do
  let v ← titles s c.entries .empty
  assign c s.entries v

/-- What the validators say about the type of a definition.  A path with an owner is a property
there; one without is described by the title of its own collection. -/
def asked (c : Collections) (v : Validators) (d : FieldDefinition) :
    Except Refusal (Option Descriptor) :=
  match c.home? d.path with
  | some (name, key) =>
    match (v.get? name).bind fun rule => Entries.get? rule.properties key with
    | some property => (property.descriptor d.path).map some
    | none => .ok none
  | none =>
    .ok <| do
      let name ← d.collection
      let rule ← v.get? name
      let title ← rule.title
      return .document title

/-- Reads definitions into a schema.  Beside the schema it answers the paths, in order, whose
definition spoke for itself. -/
def recoverFields (c : Collections) (v : Validators) (r : Registry) :
    List FieldDefinition → Schema → List String × Except Refusal Schema
  | [], s => ([], .ok s)
  | d :: ds, s =>
    match asked c v d with
    | .error e => ([], .error e)
    | .ok found =>
      let silent := if found.isNone then [d.path] else []
      match (found.getD d.type).fieldType d.path r with
      | .error e => (silent, .error e)
      | .ok type =>
        let (paths, result) :=
          recoverFields c v r ds (s.insert d.path (.ofPath d.path (some type)))
        (silent ++ paths, result)

/-- The schema of definitions and validators, with the paths on which the validators were
silent. -/
def recover (ds : List FieldDefinition) (v : Validators) (r : Registry) :
    List String × Except Refusal Schema :=
  recoverFields (FieldDefinition.collections ds) v r ds .empty

/-- The schema of definitions and validators. -/
def schema (ds : List FieldDefinition) (v : Validators) (r : Registry) : Except Refusal Schema :=
  (recover ds v r).2

end Layout
end SchemaKeeper
