import SchemaKeeper.Keyed
import SchemaKeeper.Refusal
import SchemaKeeper.Schema.Shape

/-!
# Validator rules

A rule is one node of the tree by which the store checks the documents of a collection.  At the
top stands an object titled with the class of the documents; below it each field has the rule
that `Rule.ofDescriptor` makes of its type, from which `Rule.descriptor` recovers the type.
-/
namespace SchemaKeeper

/-- The storage types that a rule can ask for. -/
inductive StorageType where
  | object
  | array
  | string
  | long
  | double
  | bool
  | date
  | objectId
  deriving DecidableEq

namespace StorageType

def text : StorageType → String
  | .object => "object"
  | .array => "array"
  | .string => "string"
  | .long => "long"
  | .double => "double"
  | .bool => "bool"
  | .date => "date"
  | .objectId => "objectId"

def ofText? : String → Option StorageType
  | "object" => some .object
  | "array" => some .array
  | "string" => some .string
  | "long" => some .long
  | "double" => some .double
  | "bool" => some .bool
  | "date" => some .date
  | "objectId" => some .objectId
  | _ => none

theorem ofText?_text (t : StorageType) : ofText? t.text = some t := by cases t <;> rfl

end StorageType

/-- What the items of an array must be: each what its position asks for, or all the same. -/
inductive Items (ρ : Type) where
  | each (positions : List ρ)
  | all (rule : ρ)

/-- A node of a validator tree.  An absent member asks for nothing; `values` applies to all
members of an object. -/
structure Rule where
  type : Option StorageType
  title : Option String
  properties : List (String × Rule)
  items : Option (Items Rule)
  values : Option Rule
  minItems : Option Nat
  maxItems : Option Nat

namespace Rule

/-- The rule that asks for nothing. -/
def any : Rule := ⟨none, none, [], none, none, none, none⟩

instance : Inhabited Rule := ⟨any⟩

/-- The rule that asks for a storage type alone. -/
def ofType (type : StorageType) : Rule := { any with type := some type }

/-- The top of the tree for documents of a class, still without properties. -/
def collection (className : String) : Rule :=
  { any with type := some .object, title := some className }

/-- The rule for a kind of scalar. -/
def ofScalar : Scalar → Rule
  | .any => any
  | .bool => ofType .bool
  | .int => ofType .long
  | .float => ofType .double
  | .string => ofType .string
  | .datetime => ofType .date

mutual

/-- The rule for the values of a type.  A document stands there as a reference titled with its
class, a tuple as an array of fixed length. -/
def ofDescriptor : Descriptor → Rule
  | .scalar k => ofScalar k
  | .list t => { any with type := some .array, items := some (.all (ofDescriptor t)) }
  | .dict t => { any with type := some .object, values := some (ofDescriptor t) }
  | .tuple ts =>
    { any with
      type := some .array
      items := some (.each (ofDescriptors ts))
      minItems := some ts.length
      maxItems := some ts.length }
  | .document c => { any with type := some .objectId, title := some c }

def ofDescriptors : List Descriptor → List Rule
  | [] => []
  | t :: ts => ofDescriptor t :: ofDescriptors ts

end

mutual

/-- The type whose rule this is; the path stands in refusals alone. -/
def descriptor (path : String) : Rule → Except Refusal Descriptor
  | ⟨none, _, _, _, _, _, _⟩ => .ok .any
  | ⟨some .bool, _, _, _, _, _, _⟩ => .ok (.scalar .bool)
  | ⟨some .long, _, _, _, _, _, _⟩ => .ok (.scalar .int)
  | ⟨some .double, _, _, _, _, _, _⟩ => .ok (.scalar .float)
  | ⟨some .string, _, _, _, _, _, _⟩ => .ok (.scalar .string)
  | ⟨some .date, _, _, _, _, _, _⟩ => .ok (.scalar .datetime)
  | ⟨some .objectId, some title, _, _, _, _, _⟩ => .ok (.document title)
  | ⟨some .objectId, none, _, _, _, _, _⟩ =>
    .error (.unresolvable path "objectId property has no document class title")
  | ⟨some .array, _, _, none, _, _, _⟩ => .ok (.list .any)
  | ⟨some .array, _, _, some (.all r), _, _, _⟩ => do
    let t ← descriptor path r
    return .list t
  | ⟨some .array, _, _, some (.each rs), _, _, _⟩ => do
    let ts ← descriptors path rs
    return .tuple ts
  | ⟨some .object, _, _, _, some r, _, _⟩ => do
    let t ← descriptor path r
    return .dict t
  | ⟨some .object, _, _, _, none, _, _⟩ =>
    .error (.unresolvable path "object property is neither a mapping nor a document reference")

def descriptors (path : String) : List Rule → Except Refusal (List Descriptor)
  | [] => .ok []
  | r :: rs => do
    let t ← descriptor path r
    let ts ← descriptors path rs
    return t :: ts

end

/-- Puts a property into a rule. -/
def withProperty (r : Rule) (name : String) (property : Rule) : Rule :=
  { r with properties := Entries.insert name property r.properties }

end Rule
end SchemaKeeper
