import SchemaKeeper.Json.Tree

/-!
# Indexes

An index names the fields by which a collection is ordered, each with a direction.  A unique index
forbids two documents that have all its fields and agree in them.
-/
namespace SchemaKeeper

/-- The direction of one field of an index. -/
inductive Direction where
  | ascending
  | descending
  deriving DecidableEq

namespace Direction

def text : Direction → String
  | .ascending => "ascending"
  | .descending => "descending"

/-- The mark of a direction in the name of an index. -/
def mark : Direction → String
  | .ascending => "1"
  | .descending => "-1"

def ofText? : String → Option Direction
  | "ascending" => some .ascending
  | "descending" => some .descending
  | _ => none

end Direction

/-- An index of a collection. -/
structure Index where
  keys : List (String × Direction)
  unique : Bool
  deriving DecidableEq

namespace Index

/-- An index on one field. -/
def single (field : String) (direction : Direction) (unique : Bool) : Index :=
  ⟨[(field, direction)], unique⟩

/-- The name that an index has from its fields. -/
def name (i : Index) : String :=
  String.intercalate "_" (i.keys.map fun k => k.1 ++ "_" ++ k.2.mark)

/-- What a document has in the fields of an index; nothing if one is absent. -/
def keyOf? (i : Index) (document : Json) : Option (List Json) :=
  i.keys.mapM fun k => document.get? k.1

/-- The stored form. -/
def json (i : Index) : Json :=
  .object [("keys", .array (i.keys.map fun k => .array [.string k.1, .string k.2.text])),
    ("unique", .bool i.unique)]

/-- One field with its direction: an array of the two. -/
def keyOfTree? : Tree → Option (String × Direction)
  | .array [.string field, direction] => do
    let name ← direction.choice? false
    let direction ← Direction.ofText? name
    return (field, direction)
  | _ => none

def ofTree? (t : Tree) : Option Index := do
  let ms ← t.record? ["keys", "unique"]
  let keys ← Tree.require? (Tree.list? keyOfTree?) ms "keys"
  let unique ← Tree.orElse? Tree.bool? false ms "unique"
  return ⟨keys, unique⟩

end Index
end SchemaKeeper
