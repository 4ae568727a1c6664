import SchemaKeeper.Json.Tree
import SchemaKeeper.Validator.Rule

/-!
# The stored form of validator rules

A rule is an object that leaves out what it does not ask for.  Positions of an array stand in an
array, a rule for all items stands alone.  The validator document of a collection holds its rule
as the only member `$jsonSchema`.
-/
namespace SchemaKeeper

namespace Rule

/-- A member that is left out when absent. -/
def optional (name : String) (f : α → Json) : Option α → List (String × Json)
  | some a => [(name, f a)]
  | none => []

mutual

/-- The stored form. -/
def json : Rule → Json
  | ⟨type, title, properties, items, values, minItems, maxItems⟩ =>
    .object (valuesMember values ++ optional "bsonType" (fun t => .string t.text) type
      ++ itemsMember items ++ optional "maxItems" (fun n => .int (Int.ofNat n)) maxItems
      ++ optional "minItems" (fun n => .int (Int.ofNat n)) minItems
      ++ (match properties with
        | [] => []
        | p :: ps => [("properties", .object (propertyMembers (p :: ps)))])
      ++ optional "title" .string title)

def valuesMember : Option Rule → List (String × Json)
  | none => []
  | some r => [("additionalProperties", json r)]

def itemsMember : Option (Items Rule) → List (String × Json)
  | none => []
  | some (.all r) => [("items", json r)]
  | some (.each rs) => [("items", .array (jsonAll rs))]

def propertyMembers : List (String × Rule) → List (String × Json)
  | [] => []
  | (name, r) :: rest => (name, json r) :: propertyMembers rest

def jsonAll : List Rule → List Json
  | [] => []
  | r :: rs => json r :: jsonAll rs

end

/-- The names of the members in the order in which an array gives them. -/
def memberNames : List String :=
  ["bsonType", "title", "properties", "items", "additionalProperties", "minItems", "maxItems"]

/-- A storage type by its name. -/
def typeOfTree? (t : Tree) : Option StorageType := t.choice? false >>= StorageType.ofText?

mutual

/-- The rule that a tree says.  An array below `items` is first tried as a rule for each position
and then taken for one rule given by its members. -/
def ofTree? (t : Tree) : Option Rule :=
  match h : t.record? memberNames with
  | none => none
  | some ms => do
    let type ← Tree.orElse? (Tree.nullable? typeOfTree?) none ms "bsonType"
    let title ← Tree.orElse? (Tree.nullable? Tree.string?) none ms "title"
    let minItems ← Tree.orElse? (Tree.nullable? Tree.word?) none ms "minItems"
    let maxItems ← Tree.orElse? (Tree.nullable? Tree.word?) none ms "maxItems"
    let properties ← match hp : Entries.get? ms "properties" with
      | none => some []
      | some (.object ps) =>
        have := Tree.sizeOf_record? h hp
        (ofProperties? ps).map Entries.ofList
      | some _ => none
    let items ← match hi : Entries.get? ms "items" with
      | none => some none
      | some .null => some none
      | some (.array ts) =>
        have := Tree.sizeOf_record? h hi
        if (Tree.array ts).isReadable then
          match ofAll? ts with
          | some rs => some (some (.each rs))
          | none => (ofTree? (.array ts)).map fun r => some (.all r)
        else none
      | some c =>
        have := Tree.sizeOf_record? h hi
        if c.isReadable then (ofTree? c).map fun r => some (.all r) else none
    let values ← match hv : Entries.get? ms "additionalProperties" with
      | none => some none
      | some .null => some none
      | some c =>
        have := Tree.sizeOf_record? h hv
        (ofTree? c).map some
    return ⟨type, title, properties, items, values, minItems, maxItems⟩
  termination_by sizeOf t
  decreasing_by all_goals simp_all; try omega

def ofProperties? (ps : List (String × Tree)) : Option (List (String × Rule)) :=
  match ps with
  | [] => some []
  | (name, t) :: rest => do
    let r ← ofTree? t
    let rs ← ofProperties? rest
    return (name, r) :: rs
  termination_by sizeOf ps

def ofAll? (ts : List Tree) : Option (List Rule) :=
  match ts with
  | [] => some []
  | t :: rest => do
    let r ← ofTree? t
    let rs ← ofAll? rest
    return r :: rs
  termination_by sizeOf ts

end

/-- The document that stores the rule on its collection. -/
def document (r : Rule) : Json := .object [("$jsonSchema", r.json)]

/-- The rule in a stored document. -/
def ofDocument? (j : Json) : Option Rule :=
  j.get? "$jsonSchema" >>= fun spec => ofTree? (Tree.ofJson spec)

end Rule
end SchemaKeeper
