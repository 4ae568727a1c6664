import SchemaKeeper.Schema.Basic

/-!
# Class registries

A registry knows classes by name.  To register a class registers the classes below its fields as
well; a name that is already there keeps its class.
-/
namespace SchemaKeeper

/-- Classes by name. -/
abbrev Registry := Keyed DocClass

namespace Registry

mutual

/-- Adds a class and every class that its fields end in, unless its name is taken. -/
def register : DocClass → Registry → Registry
  | ⟨name, fields, indexes⟩, r =>
    if r.contains name then r else registerFields fields (r.insert name ⟨name, fields, indexes⟩)

def registerFields : List (String × Option FieldType) → Registry → Registry
  | [], r => r
  | (_, type) :: rest, r => registerFields rest (registerType type r)

def registerType : Option FieldType → Registry → Registry
  | none, r => r
  | some t, r => registerShape t r

def registerShape : FieldType → Registry → Registry
  | .list t, r => registerShape t r
  | .dict t, r => registerShape t r
  | .document c, r => register c r
  | .scalar _, r => r
  | .tuple _, r => r

end

/-- The class of a name that stands in the type at a path. -/
def resolve (r : Registry) (path name : String) : Except Refusal DocClass :=
  match r.get? name with
  | some c => .ok c
  | none => .error (.unresolvable path ("document class '" ++ name ++ "' is not registered"))

end Registry

namespace Descriptor

/-- The live type that a descriptor stands for. -/
def fieldType (d : Descriptor) (path : String) (r : Registry) : Except Refusal FieldType :=
  d.resolveWith (r.resolve path)

/-- The class that a descriptor ends in through lists and dicts, if it ends in one. -/
def nestedClass (d : Descriptor) (path : String) (r : Registry) :
    Except Refusal (Option DocClass) :=
  match d.nested? with
  | some name => (r.resolve path name).map some
  | none => .ok none

end Descriptor
end SchemaKeeper
