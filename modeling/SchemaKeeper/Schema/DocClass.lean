import SchemaKeeper.Keyed
import SchemaKeeper.Schema.Index
import SchemaKeeper.Schema.Shape
import SchemaKeeper.Text.Quoted

/-!
# Document classes and live types

A document class declares the fields of its documents and the indexes of the collections that
hold them.  A live type is a shape whose leaves are classes; two types count as the same when they
have the same descriptor, that is, when their classes have the same names.
-/
namespace SchemaKeeper

/-- A class of documents.  A field without a type may be declared and is refused when used. -/
structure DocClass where
  name : String
  fields : List (String × Option (Shape DocClass))
  indexes : List Index

/-- A type whose documents carry their class. -/
abbrev FieldType := Shape DocClass

namespace DocClass

/-- A class from its fields in any order; of two with one name the later stays. -/
def ofFields (name : String) (fields : List (String × Option FieldType)) (indexes : List Index) :
    DocClass :=
  ⟨name, Entries.ofList fields, indexes⟩

/-- The short form of a class in messages. -/
def spelled (c : DocClass) : String :=
  "DocumentClass \x7b name: " ++ Text.spelled c.name ++ ", fields: ["
    ++ String.intercalate ", " (c.fields.map fun f => Text.spelled f.1) ++ "] \x7d"

end DocClass

namespace FieldType

/-- The persisted form of a type. -/
def descriptor (t : FieldType) : Descriptor := t.map DocClass.name

/-- The name of a type. -/
def text (t : FieldType) : String := t.label DocClass.name

/-- The types agree up to the classes behind the names. -/
def same (a b : FieldType) : Bool := decide (descriptor a = descriptor b)

end FieldType

end SchemaKeeper
