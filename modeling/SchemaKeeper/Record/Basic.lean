import SchemaKeeper.Container.Held

/-!
# Records

A record is one root document of a dataset in the hands of a client: an identifier, a class and
held values by field.  The schema that fields are checked against is the one that the dataset
holds at the time.
-/
namespace SchemaKeeper

/-- A root document with its held values. -/
structure Record where
  id : Uuid
  root : DocClass
  fields : Keyed Held

namespace Record

/-- A record without fields. -/
def empty (id : Uuid) (root : DocClass) : Record := ⟨id, root, .empty⟩

/-- The name can be that of a top-level field. -/
def isTopLevel (name : String) : Bool := name != "" && !name.toList.contains '.'

/-- Gives a top-level field a value, which must fit the schema. -/
def set (r : Record) (s : Schema) (name : String) (v : Value) : Except Refusal Record := do
  if !isTopLevel name then
    throw (.invalidKey ("'" ++ name ++ "' is not a top-level field name"))
  let h ← holdField s name v
  return { r with fields := r.fields.insert name h }

/-- Takes the value of a field away. -/
def unset (r : Record) (name : String) : Record := { r with fields := r.fields.erase name }

/-- The plain values by field. -/
def values (r : Record) : Keyed Value := r.fields.mapValues fun _ h => h.plain

end Record
end SchemaKeeper
