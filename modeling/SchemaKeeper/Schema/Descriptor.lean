import SchemaKeeper.Json.Tree
import SchemaKeeper.Schema.Shape

/-!
# The stored form of descriptors

A descriptor is an object whose member `kind` says which of the five forms it has and whose other
member holds its content.  It may also be given as the array of the two.  An inner descriptor may
say its kind by number, in the order scalar, list, dict, tuple, document.
-/
namespace SchemaKeeper

/-- The child of a record of two: under a name, or in second place. -/
def Tree.content? (name : String) : Tree → Option Tree
  | .object members => Entries.get? members name
  | .array [_, t] => some t
  | _ => none

theorem Tree.sizeOf_content? {name : String} {t c : Tree} (h : t.content? name = some c) :
    sizeOf c < sizeOf t := by
  unfold Tree.content? at h
  split at h
  · have := Tree.sizeOf_get? h
    simp; omega
  · injection h with h
    subst h
    simp; omega
  · cases h

namespace Descriptor

mutual

/-- The stored form. -/
def json : Descriptor → Json
  | .scalar k => .object [("kind", .string "scalar"), ("scalar", .string k.text)]
  | .list t => .object [("element", json t), ("kind", .string "list")]
  | .dict t => .object [("kind", .string "dict"), ("value", json t)]
  | .tuple ts => .object [("items", .array (jsonAll ts)), ("kind", .string "tuple")]
  | .document c => .object [("class", .string c), ("kind", .string "document")]

def jsonAll : List Descriptor → List Json
  | [] => []
  | t :: ts => json t :: jsonAll ts

end

/-- The five kinds with the name of the content of each. -/
inductive Kind where
  | scalar
  | list
  | dict
  | tuple
  | document

def Kind.ofText? : String → Option Kind
  | "scalar" => some .scalar
  | "list" => some .list
  | "dict" => some .dict
  | "tuple" => some .tuple
  | "document" => some .document
  | _ => none

def Kind.ofNumber? : Int → Option Kind
  | 0 => some .scalar
  | 1 => some .list
  | 2 => some .dict
  | 3 => some .tuple
  | 4 => some .document
  | _ => none

/-- The member that holds the content. -/
def Kind.content : Kind → String
  | .scalar => "scalar"
  | .list => "element"
  | .dict => "value"
  | .tuple => "items"
  | .document => "class"

/-- What the member `kind` says; only an inner descriptor may say it by number. -/
def kindOf? (inner : Bool) : Tree → Option Kind
  | .string s => Kind.ofText? s
  | .int n => if inner then Kind.ofNumber? n else none
  | _ => none

/-- The names in a record each stand once. -/
def distinct (names : List String) (members : List (String × Tree)) : Bool :=
  ((members.filter fun m => names.contains m.1).map (·.1)).Nodup

/-- The kind of a descriptor that is otherwise a record of two members. -/
def kind? (inner : Bool) : Tree → Option Kind
  | .object members => do
    let kind ← Entries.get? members "kind" >>= kindOf? inner
    if distinct ["kind", kind.content] members then some kind else none
  | .array [kind, _] => kindOf? inner kind
  | _ => none

/-- A kind of scalar by its name. -/
def scalarOfTree? (t : Tree) : Option Scalar := t.choice? true >>= Scalar.ofText?

mutual

def ofReadable? (inner : Bool) (t : Tree) : Option Descriptor :=
  match kind? inner t with
  | some .scalar => t.content? "scalar" >>= scalarOfTree? |>.map .scalar
  | some .list =>
    match h : t.content? "element" with
    | some c =>
      have := Tree.sizeOf_content? h
      (ofReadable? true c).map .list
    | none => none
  | some .dict =>
    match h : t.content? "value" with
    | some c =>
      have := Tree.sizeOf_content? h
      (ofReadable? true c).map .dict
    | none => none
  | some .tuple =>
    match h : t.content? "items" with
    | some (.array cs) =>
      have := Tree.sizeOf_content? h
      (ofReadableAll? cs).map .tuple
    | _ => none
  | some .document => t.content? "class" >>= Tree.string? |>.map .document
  | none => none
  termination_by sizeOf t
  decreasing_by all_goals simp_all; try omega

def ofReadableAll? (ts : List Tree) : Option (List Descriptor) :=
  match ts with
  | [] => some []
  | t :: ts => do
    let d ← ofReadable? true t
    let ds ← ofReadableAll? ts
    return d :: ds
  termination_by sizeOf ts

end

/-- The descriptor that a tree says; all of it must be readable, also what is passed over. -/
def ofTree? (t : Tree) : Option Descriptor :=
  if t.isReadable then ofReadable? false t else none

end Descriptor
end SchemaKeeper
