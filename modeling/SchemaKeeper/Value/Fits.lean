import SchemaKeeper.Schema.DocClass
import SchemaKeeper.Value.Basic

/-!
# Instances of types

`Value.fits` says when a value is an instance of a live type.  Null and numbers that are not
finite are instances of none.  An integer may stand where a floating-point number is declared, and
a list where a tuple is; nothing else is converted.
-/
namespace SchemaKeeper.Value

/-- The value is of the scalar kind. -/
def fitsScalar : Scalar → Value → Bool
  | .any, v => v.isStorable
  | .bool, .bool _ => true
  | .int, .int _ => true
  | .float, .float _ => true
  | .float, .int _ => true
  | .string, .string _ => true
  | .datetime, .datetime _ => true
  | _, _ => false

/-- The items of a value that can stand for a tuple. -/
def positions? : Value → Option (List Value)
  | .tuple items => some items
  | .list items => some items
  | _ => none

mutual

/-- The value is an instance of the type. -/
def fits : FieldType → Value → Bool
  | .scalar k, v => !v.isNull && !v.isWild && fitsScalar k v
  | .list t, .list items => items.all fun v => fits t v
  | .list _, _ => false
  | .dict t, .dict entries => entries.all fun e => fits t e.2
  | .dict _, _ => false
  | .tuple ts, v =>
    match v.positions? with
    | some items => fitsEach ts items
    | none => false
  | .document c, v => v.className? == some c.name && v.isStorable

/-- As many values as types, each an instance of its own. -/
def fitsEach : List FieldType → List Value → Bool
  | [], [] => true
  | t :: ts, v :: vs => fits t v && fitsEach ts vs
  | _, _ => false

end

end SchemaKeeper.Value
