import SchemaKeeper.Json.Basic
import SchemaKeeper.Layout.FieldDefinition
import SchemaKeeper.Record.Basic
import SchemaKeeper.Store.Catalog

/-!
# The stored form of records

A record is stored as a document in the root collection.  A document value inside it stands there
as a reference and is itself stored in the collection of the path under which it appears;
`Record.parts` lists these documents.  Reading follows the declared types and resolves references
through the catalog.
-/
namespace SchemaKeeper

namespace Value

mutual

/-- A value as it stands inside a stored document. -/
def stored : Value → Json
  | .null => .null
  | .bool b => .bool b
  | .int n => .int n.toInt
  | .float x => if x.isFinite then .float x else .null
  | .string s => .string s
  | .datetime m => .object [("$date", .string m.text)]
  | .list items => .array (storedItems items)
  | .tuple items => .array (storedItems items)
  | .dict entries => .object (storedEntries entries)
  | .document id _ _ => .object [("$oid", .string id.text)]

def storedItems : List Value → List Json
  | [] => []
  | v :: vs => stored v :: storedItems vs

def storedEntries : List (String × Value) → List (String × Json)
  | [] => []
  | (k, v) :: vs => (k, stored v) :: storedEntries vs

end

/-- A stored document from its identifier and fields; a field called `_id` takes its place. -/
def storedDocument (id : Uuid) (fields : List (String × Value)) : Json :=
  .ofMembers (("_id", .string id.text) :: storedEntries fields)

end Value

/-- A document inside a record: the path under which it appears, its identifier and what is stored
of it. -/
structure Part where
  path : String
  id : Uuid
  document : Json

namespace Record

mutual

/-- The documents inside a value in the order in which they are written: the last first, and
before the documents inside it. -/
def partsOf (path : String) : Value → List Part
  | .list items => partsOfItems path items
  | .tuple items => partsOfItems path items
  | .dict entries => partsOfEntries path entries
  | .document id _ fields =>
    ⟨path, id, Value.storedDocument id fields⟩ :: partsOfFields path fields
  | _ => []

def partsOfItems (path : String) : List Value → List Part
  | [] => []
  | v :: vs => partsOfItems path vs ++ partsOf path v

/-- The documents in the entries of a dict, which all appear under one path. -/
def partsOfEntries (path : String) : List (String × Value) → List Part
  | [] => []
  | (_, v) :: vs => partsOfEntries path vs ++ partsOf path v

/-- The documents in the fields of a document, each field under its own path. -/
def partsOfFields (path : String) : List (String × Value) → List Part
  | [] => []
  | (name, v) :: vs => partsOfFields path vs ++ partsOf (Path.join path name) v

end

/-- The documents inside a record in the order in which they are written. -/
def parts (r : Record) : List Part := partsOfFields "" r.values.entries

/-- What is stored of the record itself. -/
def document (r : Record) : Json := Value.storedDocument r.id r.values.entries

/-- The collection for the documents at a path. -/
def collectionFor (c : Collections) (path : String) : Except Refusal String :=
  match c.get? path with
  | some name => .ok name
  | none => .error (.unresolvable path "no backing collection for document value")

/-! ## Reading -/

/-- The kind of a stored value in refusals. -/
def storedKind : Json → String
  | .null => "null"
  | .bool _ => "bool"
  | .int _ => "number"
  | .float _ => "number"
  | .string _ => "string"
  | .array _ => "array"
  | .object _ => "object"

/-- The moment in a stored date. -/
def dateOf? (j : Json) : Option Moment := j.wrapped? "$date" >>= Moment.read?

/-- An integer that fits a signed word of 64 bits. -/
def wordOf? (n : Int) : Option Int64 :=
  if Int64.minValue.toInt ≤ n ∧ n ≤ Int64.maxValue.toInt then some (Int64.ofInt n) else none

/-- A number of any kind. -/
def numberOf (n : Int) : Value :=
  match wordOf? n with
  | some w => .int w
  | none => .float (Double.ofInt n)

mutual

/-- The value that a stored one stands for where no type is declared. -/
def readAny : Json → Value
  | .null => .null
  | .bool b => .bool b
  | .int n => numberOf n
  | .float x => .float x
  | .string s => .string s
  | .array items => .list (readAnyItems items)
  | .object members =>
    match dateOf? (.object members) with
    | some m => .datetime m
    | none => .dict (readAnyMembers members)

def readAnyItems : List Json → List Value
  | [] => []
  | j :: js => readAny j :: readAnyItems js

def readAnyMembers : List (String × Json) → List (String × Value)
  | [] => []
  | (k, j) :: js => (k, readAny j) :: readAnyMembers js

end

/-- The value of a scalar kind that a stored one stands for. -/
def readScalar? : Scalar → Json → Option Value
  | .any, j => some (readAny j)
  | .bool, .bool b => some (.bool b)
  | .int, .int n => (wordOf? n).map .int
  | .float, .int n => some (.float (Double.ofInt n))
  | .float, .float x => some (.float x)
  | .string, .string s => some (.string s)
  | .datetime, j => (dateOf? j).map .datetime
  | _, _ => none

/-- Reads all items of an array in turn. -/
def readItems (ask : Json → Except Refusal Value) : List Json → Except Refusal (List Value)
  | [] => .ok []
  | j :: js => do
    let v ← ask j
    let vs ← readItems ask js
    return v :: vs

/-- Reads all members of an object in turn. -/
def readMembers (ask : Json → Except Refusal Value) :
    List (String × Json) → Except Refusal (List (String × Value))
  | [] => .ok []
  | (k, j) :: js => do
    let v ← ask j
    let vs ← readMembers ask js
    return (k, v) :: vs

def misread (path : String) (type : FieldType) (j : Json) : Except Refusal Value :=
  .error (.mismatch path type.text (storedKind j))

mutual

/-- Reads a stored value of a type.  `follow` resolves a reference to a document of a class by the
text of its identifier. -/
def readAs (follow : DocClass → String → Except Refusal Value) (path : String) :
    FieldType → Json → Except Refusal Value
  | .scalar k, j =>
    match j with
    | .null => .ok .null
    | j =>
      match readScalar? k j with
      | some v => .ok v
      | none => misread path (.scalar k) j
  | .list t, j =>
    match j with
    | .null => .ok .null
    | .array items => (readItems (fun i => readAs follow path t i) items).map .list
    | j => misread path (.list t) j
  | .dict t, j =>
    match j with
    | .null => .ok .null
    | .object members => (readMembers (fun m => readAs follow path t m) members).map .dict
    | j => misread path (.dict t) j
  | .tuple ts, j =>
    match j with
    | .null => .ok .null
    | .array items =>
      if items.length = ts.length then (readEach follow path ts items).map .tuple
      else misread path (.tuple ts) (.array items)
    | j => misread path (.tuple ts) j
  | .document c, j =>
    match j with
    | .null => .ok .null
    | j =>
      match j.get? "$oid" with
      | some (.string id) => follow c id
      | _ => misread path (.document c) j

/-- Reads items of the types of their positions. -/
def readEach (follow : DocClass → String → Except Refusal Value) (path : String) :
    List FieldType → List Json → Except Refusal (List Value)
  | t :: ts, j :: js => do
    let v ← readAs follow path t j
    let vs ← readEach follow path ts js
    return v :: vs
  | _, _ => .ok []

end

/-- The identifier of a stored document. -/
def identifier (path : String) (document : Json) : Except Refusal Uuid :=
  match document.get? "_id" >>= Json.asString? >>= Uuid.read? with
  | some id => .ok id
  | none => .error (.invalidKey ("document at '" ++ path ++ "' has no valid _id"))

/-- The members of a stored document besides its identifier. -/
def ownMembers (members : List (String × Json)) : List (String × Json) :=
  members.filter fun m => m.1 != "_id"

/-- The type that the schema declares for a member; any where it declares none. -/
def declared (s : Schema) (path : String) : FieldType :=
  ((s.get? path).bind Field.type).getD .any

/-- Reads the members of a document, each at its own path. -/
def readFields (ask : String → Json → Except Refusal Value) (path : String) :
    List (String × Json) → Except Refusal (List (String × Value))
  | [] => .ok []
  | (name, j) :: js => do
    let v ← ask (Path.join path name) j
    let vs ← readFields ask path js
    return (name, v) :: vs

/-- Resolves a reference: finds the document in the collection of its path and reads its members.
The count bounds how many references may hang below one another. -/
def follow (catalog : Catalog) (s : Schema) (c : Collections) :
    Nat → String → DocClass → String → Except Refusal Value
  | 0, _, _, _ => .error (.store (.internal "references run in a circle"))
  | depth + 1, path, root, id => do
    let collection ← collectionFor c path
    match catalog.findOne collection "_id" (.string id) with
    | none => throw (.store (.documentNotFound collection id))
    | some document =>
      match document with
      | .object members => do
        let uuid ← identifier path document
        let ask := fun (p : String) (j : Json) =>
          readAs (follow catalog s c depth p) p (declared s p) j
        let fields ← readFields ask path (ownMembers members)
        return .document uuid root.name fields
      | other => throw (.mismatch path "document" (storedKind other))

/-- How many references can hang below one another without a circle: each leads to a longer path
that has a collection, or within the root collection to another document. -/
def followLimit (catalog : Catalog) (c : Collections) : Nat :=
  let roots := (c.get? "").bind fun name => catalog.collections.get? name
  c.size + ((roots.map fun state => state.documents.size).getD 0) + 1

/-- Takes over the members of a stored root document.  A member that the schema does not know is
left behind, null stands for an absent value. -/
def takeFields (catalog : Catalog) (s : Schema) (c : Collections) :
    List (String × Json) → Record → Except Refusal Record
  | [], r => .ok r
  | (name, j) :: rest, r =>
    match s.get? name with
    | none => takeFields catalog s c rest r
    | some field => do
      let type ← field.requireType name
      let v ← readAs (follow catalog s c (followLimit catalog c) name) name type j
      let r ← if v.isNull then pure r else r.set s name v
      takeFields catalog s c rest r

/-- The record that a stored root document holds. -/
def ofDocument (catalog : Catalog) (s : Schema) (c : Collections) (root : DocClass) :
    Json → Except Refusal Record
  | .object members => do
    let id ← identifier "" (.object members)
    takeFields catalog s c (ownMembers members) (.empty id root)
  | other => .error (.mismatch "" "document" (storedKind other))

end Record
end SchemaKeeper
