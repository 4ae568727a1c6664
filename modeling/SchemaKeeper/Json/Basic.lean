import SchemaKeeper.Keyed
import SchemaKeeper.Number.Double

/-!
# Documents

The values that the store holds.  Members of an object ascend by name, as `Json.IsSettled` says
and every function that builds an object keeps.  Numbers are integers or floating-point numbers,
and `Json.same` never takes one for the other.
-/
namespace SchemaKeeper

/-- A document value. -/
inductive Json where
  | null
  | bool (b : Bool)
  | int (n : Int)
  | float (x : Double)
  | string (s : String)
  | array (items : List Json)
  | object (members : List (String × Json))

namespace Json

instance : Inhabited Json := ⟨.null⟩

mutual

/-- Equality of documents: numbers compare as numbers of their own sort, so zero equals minus
zero, and an integer never equals a floating-point number. -/
def same : Json → Json → Bool
  | .null, .null => true
  | .bool a, .bool b => a == b
  | .int a, .int b => a == b
  | .float a, .float b => a.same b
  | .string a, .string b => a == b
  | .array a, .array b => sameItems a b
  | .object a, .object b => sameMembers a b
  | _, _ => false

def sameItems : List Json → List Json → Bool
  | [], [] => true
  | a :: as, b :: bs => same a b && sameItems as bs
  | _, _ => false

def sameMembers : List (String × Json) → List (String × Json) → Bool
  | [], [] => true
  | (k, a) :: as, (k', b) :: bs => k == k' && same a b && sameMembers as bs
  | _, _ => false

end

instance : BEq Json := ⟨same⟩

/-- An object from its members in any order; of two with one name the later stays. -/
def ofMembers (members : List (String × Json)) : Json := .object (Entries.ofList members)

/-- The object that holds a map. -/
def ofKeyed (m : Keyed Json) : Json := .object m.entries

/-- The member of an object. -/
def get? : Json → String → Option Json
  | .object members, name => Entries.get? members name
  | _, _ => none

/-- Puts a member into an object; other values stay as they are. -/
def set (j : Json) (name : String) (value : Json) : Json :=
  match j with
  | .object members => .object (Entries.insert name value members)
  | j => j

def ofOption (f : α → Json) : Option α → Json
  | some a => f a
  | none => .null

/-- The text of a string value. -/
def asString? : Json → Option String
  | .string s => some s
  | _ => none

mutual

/-- Every object, at any depth, has its members in ascending order. -/
def IsSettled : Json → Prop
  | .array items => ItemsSettled items
  | .object members => Entries.Ordered members ∧ MembersSettled members
  | _ => True

def ItemsSettled : List Json → Prop
  | [] => True
  | a :: as => IsSettled a ∧ ItemsSettled as

def MembersSettled : List (String × Json) → Prop
  | [] => True
  | (_, a) :: as => IsSettled a ∧ MembersSettled as

end

end Json
end SchemaKeeper
