import SchemaKeeper.Path
import SchemaKeeper.Refusal
import SchemaKeeper.Schema.DocClass

/-!
# Schemas

A schema maps paths to fields; the root document stands under the empty path.  The fields of a
class unfold into a schema by `DocClass.expanded`: each field stands under its path, and below it
stand the fields of the class that its type ends in through lists and dicts.
-/
namespace SchemaKeeper

/-- A named place in a schema, perhaps still without a type. -/
structure Field where
  name : String
  type : Option FieldType

namespace Field

/-- The field at a path, named by the last part of the path. -/
def ofPath (path : String) (type : Option FieldType) : Field := ⟨Path.leaf path, type⟩

/-- The type of the field, which must be declared. -/
def requireType (f : Field) (path : String) : Except Refusal FieldType :=
  match f.type with
  | some t => .ok t
  | none => .error (.missingType path)

/-- Two declarations of a type agree. -/
def sameType : Option FieldType → Option FieldType → Bool
  | some a, some b => a.same b
  | none, none => true
  | _, _ => false

/-- The fields have the same name and the same type. -/
def same (f g : Field) : Bool := f.name == g.name && sameType f.type g.type

end Field

/-- The fields of a dataset by path. -/
abbrev Schema := Keyed Field

namespace Schema

/-- The type declared at a path. -/
def typeAt (s : Schema) (path : String) : Except Refusal FieldType :=
  match s.get? path with
  | some f => f.requireType path
  | none => .error (.unknownField path)

/-- Two lists of entries have the same keys and the same fields. -/
def sameEntries : List (String × Field) → List (String × Field) → Bool
  | [], [] => true
  | (p, f) :: r, (q, g) :: r' => p == q && f.same g && sameEntries r r'
  | _, _ => false

/-- The schemas have the same paths with the same fields. -/
def same (s t : Schema) : Bool := sameEntries s.entries t.entries

/-- A schema from declared types, each field named by its path. -/
def ofTypes (types : List (String × Option FieldType)) : Schema :=
  Keyed.ofList (types.map fun t => (t.1, Field.ofPath t.1 t.2))

end Schema

namespace DocClass

mutual

/-- Puts the fields of a class, and all below them, into a schema under a path. -/
def expandInto (base : String) : DocClass → Schema → Schema
  | ⟨_, fields, _⟩, s => expandFields base fields s

def expandFields (base : String) : List (String × Option FieldType) → Schema → Schema
  | [], s => s
  | (name, type) :: rest, s =>
    let path := Path.join base name
    expandFields base rest ((expandType path type s).insert path ⟨name, type⟩)

/-- Puts what lies below a declared type into a schema. -/
def expandType (path : String) : Option FieldType → Schema → Schema
  | none, s => s
  | some t, s => expandShape path t s

/-- Puts what lies below a type into a schema: the fields of the class it ends in. -/
def expandShape (path : String) : FieldType → Schema → Schema
  | .list t, s => expandShape path t s
  | .dict t, s => expandShape path t s
  | .document c, s => expandInto path c s
  | .scalar _, s => s
  | .tuple _, s => s

end

/-- The fields of a class, and of all classes below them, by path below the given one. -/
def expanded (c : DocClass) (base : String) : Schema := expandInto base c .empty

/-- The schema of a dataset whose documents are of this class. -/
def rootSchema (c : DocClass) : Schema :=
  (c.expanded "").insert "" ⟨"", some (.document c)⟩

end DocClass
end SchemaKeeper
