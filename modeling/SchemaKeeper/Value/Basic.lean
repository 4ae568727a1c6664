import SchemaKeeper.Keyed
import SchemaKeeper.Moment.Rfc3339
import SchemaKeeper.Number.Double
import SchemaKeeper.Uuid

/-!
# Runtime values

What a program holds in the fields of a record.  A document value has an identifier, the name of
its class and its own fields.  Equality compares floating-point numbers as numbers.
-/
namespace SchemaKeeper

/-- A runtime value; the entries of dicts and documents ascend by name. -/
inductive Value where
  | null
  | bool (b : Bool)
  | int (n : Int64)
  | float (x : Double)
  | string (s : String)
  | datetime (m : Moment)
  | list (items : List Value)
  | dict (entries : List (String × Value))
  | tuple (items : List Value)
  | document (id : Uuid) (className : String) (fields : List (String × Value))

namespace Value

instance : Inhabited Value := ⟨.null⟩

def isNull : Value → Bool
  | .null => true
  | _ => false

/-- The name of the kind of a value. -/
def kind : Value → String
  | .null => "null"
  | .bool _ => "bool"
  | .int _ => "int"
  | .float x => if x.isFinite then "float" else "non-finite float"
  | .string _ => "string"
  | .datetime _ => "datetime"
  | .list _ => "list"
  | .dict _ => "dict"
  | .tuple _ => "tuple"
  | .document _ className _ => "document<" ++ className ++ ">"

mutual

/-- Equality of values: kind by kind, numbers as numbers. -/
def same : Value → Value → Bool
  | .null, .null => true
  | .bool a, .bool b => a == b
  | .int a, .int b => a == b
  | .float a, .float b => a.same b
  | .string a, .string b => a == b
  | .datetime a, .datetime b => decide (a = b)
  | .list a, .list b => sameItems a b
  | .dict a, .dict b => sameEntries a b
  | .tuple a, .tuple b => sameItems a b
  | .document i c a, .document j d b => decide (i = j) && c == d && sameEntries a b
  | _, _ => false

def sameItems : List Value → List Value → Bool
  | [], [] => true
  | a :: as, b :: bs => same a b && sameItems as bs
  | _, _ => false

def sameEntries : List (String × Value) → List (String × Value) → Bool
  | [], [] => true
  | (k, a) :: as, (k', b) :: bs => k == k' && same a b && sameEntries as bs
  | _, _ => false

end

instance : BEq Value := ⟨same⟩

mutual

/-- No number inside is infinite or undefined, so a document can hold the value. -/
def isStorable : Value → Bool
  | .float x => x.isFinite
  | .list items => itemsStorable items
  | .tuple items => itemsStorable items
  | .dict entries => entriesStorable entries
  | .document _ _ fields => entriesStorable fields
  | _ => true

def itemsStorable : List Value → Bool
  | [] => true
  | v :: vs => isStorable v && itemsStorable vs

def entriesStorable : List (String × Value) → Bool
  | [] => true
  | (_, v) :: vs => isStorable v && entriesStorable vs

end

def asString? : Value → Option String
  | .string s => some s
  | _ => none

def asInt? : Value → Option Int64
  | .int n => some n
  | _ => none

/-- The class of a document value. -/
def className? : Value → Option String
  | .document _ className _ => some className
  | _ => none

/-- A number that is infinite or undefined. -/
def isWild : Value → Bool
  | .float x => !x.isFinite
  | _ => false

end Value
end SchemaKeeper
