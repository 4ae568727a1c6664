import SchemaKeeper.Schema.Basic

/-!
# Changes between schemas

A delta holds what an edit did to a schema: the fields it added, those whose type it changed and
the paths it removed.  Applied to another schema it does the same there, whatever that schema has
at these paths.
-/
namespace SchemaKeeper

/-- What an edit did to a schema. -/
structure Delta where
  added : Keyed Field
  changed : Keyed Field
  removed : List String

namespace Delta

/-- The earlier schema does not have the path. -/
def isAdded (earlier : Schema) (path : String) : Bool := !earlier.contains path

/-- The field was there before with another type. -/
def isChanged (earlier : Schema) (path : String) (f : Field) : Bool :=
  match earlier.get? path with
  | some before => !Field.sameType before.type f.type
  | none => false

/-- What leads from the earlier to the edited schema. -/
def between (earlier edited : Schema) : Delta where
  added := ⟨edited.entries.filter fun e => isAdded earlier e.1,
    Entries.ordered_filter _ edited.ordered⟩
  changed := ⟨edited.entries.filter fun e => isChanged earlier e.1 e.2,
    Entries.ordered_filter _ edited.ordered⟩
  removed := earlier.keys.filter fun path => !edited.contains path

def isEmpty (d : Delta) : Bool := d.added.isEmpty && d.changed.isEmpty && d.removed.isEmpty

/-- Puts the added and changed fields into a schema and takes the removed paths out. -/
def apply (d : Delta) (latest : Schema) : Schema :=
  d.removed.foldl (fun s path => s.erase path) ((latest.union d.added).union d.changed)

end Delta
end SchemaKeeper
