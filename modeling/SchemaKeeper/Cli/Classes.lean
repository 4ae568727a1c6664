import SchemaKeeper.Cli.Refusal
import SchemaKeeper.Json.Reader
import SchemaKeeper.Schema.Descriptor
import SchemaKeeper.Schema.Registry

/-!
# Classes files

A classes file declares document classes in an order in which each refers only to earlier ones.
-/
namespace SchemaKeeper

/-- The declaration of one class. -/
structure Declaration where
  name : String
  fields : Keyed Descriptor
  indexes : List Index

namespace Declaration

def ofTree? (t : Tree) : Option Declaration := do
  let ms ← t.record? ["name", "fields", "indexes"]
  let name ← Tree.require? Tree.string? ms "name"
  let fields ← Tree.orElse? (Tree.keyed? Descriptor.ofTree?) .empty ms "fields"
  let indexes ← Tree.orElse? (Tree.list? Index.ofTree?) [] ms "indexes"
  return ⟨name, fields, indexes⟩

/-- The declarations in a tree. -/
def listOfTree? (t : Tree) : Option (List Declaration) := do
  let ms ← t.record? ["classes"]
  Tree.require? (Tree.list? ofTree?) ms "classes"

/-- The live types of declared fields. -/
def resolveFields (r : Registry) (className : String) :
    List (String × Descriptor) → Except CommandRefusal (List (String × Option FieldType))
  | [] => .ok []
  | (name, type) :: rest =>
    match type.fieldType (className ++ "." ++ name) r with
    | .error e => .error (.classes e.text)
    | .ok type => do
      let fields ← resolveFields r className rest
      return (name, some type) :: fields

/-- The class of a declaration, its documents taken from the classes so far. -/
def resolve (d : Declaration) (r : Registry) : Except CommandRefusal DocClass := do
  let fields ← resolveFields r d.name d.fields.entries
  return ⟨d.name, fields, d.indexes⟩

/-- Registers declared classes one after the other; no name may be declared twice. -/
def registerAll : List Declaration → Registry → Except CommandRefusal Registry
  | [], r => .ok r
  | d :: ds, r =>
    if r.contains d.name then
      .error (.classes ("Class '" ++ d.name ++ "' declared twice"))
    else do
      let c ← d.resolve r
      registerAll ds (Registry.register c r)

/-- The registry of a list of declarations. -/
def registry (ds : List Declaration) : Except CommandRefusal Registry := registerAll ds .empty

/-- The registry that a text declares. -/
def read (text : String) : Except CommandRefusal Registry :=
  match Tree.read? text >>= listOfTree? with
  | none => .error (.classes ("Invalid classes JSON: " ++ "not a list of classes"))
  | some ds => registry ds

end Declaration
end SchemaKeeper
