/-!
# Shapes of types

A shape is built from scalars by lists, dicts and tuples over leaves that stand for documents.
What a leaf holds is left open: a name in a persisted `Descriptor`, the class itself in a live
type.  `Shape.map` carries one to the other, and `Shape.nested?` finds the document at the end of
a chain of lists and dicts.
-/
namespace SchemaKeeper

/-- The kinds of values without parts. -/
inductive Scalar where
  | any
  | bool
  | int
  | float
  | string
  | datetime
  deriving DecidableEq

/-- The name of a kind. -/
def Scalar.text : Scalar → String
  | .any => "any"
  | .bool => "bool"
  | .int => "int"
  | .float => "float"
  | .string => "string"
  | .datetime => "datetime"

/-- The kind with a name. -/
def Scalar.ofText? : String → Option Scalar
  | "any" => some .any
  | "bool" => some .bool
  | "int" => some .int
  | "float" => some .float
  | "string" => some .string
  | "datetime" => some .datetime
  | _ => none

theorem Scalar.ofText?_text (k : Scalar) : Scalar.ofText? k.text = some k := by
  cases k <;> rfl

/-- A type over leaves for documents. -/
inductive Shape (κ : Type) where
  | scalar (kind : Scalar)
  | list (element : Shape κ)
  | dict (value : Shape κ)
  | tuple (items : List (Shape κ))
  | document (leaf : κ)

/-- A type as it is persisted: documents are named by their class. -/
abbrev Descriptor := Shape String

namespace Shape
variable {κ α β ε : Type}

/-- The type that constrains nothing but null and numbers that are not finite. -/
def any : Shape κ := .scalar .any

instance : Inhabited (Shape κ) := ⟨any⟩

mutual

def decEq [DecidableEq κ] : (a b : Shape κ) → Decidable (a = b)
  | .scalar a, .scalar b =>
    if h : a = b then isTrue (h ▸ rfl) else isFalse fun e => h (by injection e)
  | .list a, .list b =>
    match decEq a b with
    | isTrue h => isTrue (h ▸ rfl)
    | isFalse h => isFalse fun e => h (by injection e)
  | .dict a, .dict b =>
    match decEq a b with
    | isTrue h => isTrue (h ▸ rfl)
    | isFalse h => isFalse fun e => h (by injection e)
  | .tuple as, .tuple bs =>
    match decEqAll as bs with
    | isTrue h => isTrue (h ▸ rfl)
    | isFalse h => isFalse fun e => h (by injection e)
  | .document a, .document b =>
    if h : a = b then isTrue (h ▸ rfl) else isFalse fun e => h (by injection e)
  | .scalar _, .list _ | .scalar _, .dict _ | .scalar _, .tuple _ | .scalar _, .document _
  | .list _, .scalar _ | .list _, .dict _ | .list _, .tuple _ | .list _, .document _
  | .dict _, .scalar _ | .dict _, .list _ | .dict _, .tuple _ | .dict _, .document _
  | .tuple _, .scalar _ | .tuple _, .list _ | .tuple _, .dict _ | .tuple _, .document _
  | .document _, .scalar _ | .document _, .list _ | .document _, .dict _
  | .document _, .tuple _ => isFalse nofun

def decEqAll [DecidableEq κ] : (as bs : List (Shape κ)) → Decidable (as = bs)
  | [], [] => isTrue rfl
  | a :: as, b :: bs =>
    match decEq a b, decEqAll as bs with
    | isTrue h, isTrue h' => isTrue (h ▸ h' ▸ rfl)
    | isFalse h, _ => isFalse fun e => h (by injection e)
    | _, isFalse h => isFalse fun e => h (by injection e)
  | [], _ :: _ | _ :: _, [] => isFalse nofun

end

instance [DecidableEq κ] : DecidableEq (Shape κ) := decEq

mutual

/-- The same shape over other leaves. -/
def map (f : α → β) : Shape α → Shape β
  | .scalar k => .scalar k
  | .list t => .list (map f t)
  | .dict t => .dict (map f t)
  | .tuple ts => .tuple (mapAll f ts)
  | .document c => .document (f c)

def mapAll (f : α → β) : List (Shape α) → List (Shape β)
  | [] => []
  | t :: ts => map f t :: mapAll f ts

end

mutual

/-- Looks every leaf up, from left to right, and stops at the first that is refused. -/
def resolveWith (f : α → Except ε β) : Shape α → Except ε (Shape β)
  | .scalar k => .ok (.scalar k)
  | .list t => do
    let t ← resolveWith f t
    return .list t
  | .dict t => do
    let t ← resolveWith f t
    return .dict t
  | .tuple ts => do
    let ts ← resolveAll f ts
    return .tuple ts
  | .document c => do
    let c ← f c
    return .document c

def resolveAll (f : α → Except ε β) : List (Shape α) → Except ε (List (Shape β))
  | [] => .ok []
  | t :: ts => do
    let t ← resolveWith f t
    let ts ← resolveAll f ts
    return t :: ts

end

mutual

/-- The leaves from left to right. -/
def leaves : Shape κ → List κ
  | .scalar _ => []
  | .list t => leaves t
  | .dict t => leaves t
  | .tuple ts => leavesAll ts
  | .document c => [c]

def leavesAll : List (Shape κ) → List κ
  | [] => []
  | t :: ts => leaves t ++ leavesAll ts

end

/-- The document at the end of a chain of lists and dicts. -/
def nested? : Shape κ → Option κ
  | .list t => nested? t
  | .dict t => nested? t
  | .document c => some c
  | .scalar _ => none
  | .tuple _ => none

/-- What one layer of a list or dict holds; anything else holds values of any type. -/
def element : Shape κ → Shape κ
  | .list t => t
  | .dict t => t
  | _ => any

/-- Takes off one layer and then the given number of further ones. -/
def unwrap (t : Shape κ) : Nat → Shape κ
  | 0 => t.element
  | level + 1 => (unwrap t level).element

def isList : Shape κ → Bool
  | .list _ => true
  | _ => false

def isDict : Shape κ → Bool
  | .dict _ => true
  | _ => false

mutual

/-- The name of a type, given the names of its documents. -/
def label (name : κ → String) : Shape κ → String
  | .scalar k => k.text
  | .list t => "list<" ++ label name t ++ ">"
  | .dict t => "dict<" ++ label name t ++ ">"
  | .tuple ts => "tuple<" ++ String.intercalate ", " (labels name ts) ++ ">"
  | .document c => "document<" ++ name c ++ ">"

def labels (name : κ → String) : List (Shape κ) → List String
  | [] => []
  | t :: ts => label name t :: labels name ts

end

theorem mapAll_eq_map (f : α → β) (ts : List (Shape α)) : mapAll f ts = ts.map (map f) := by
  induction ts with
  | nil => rfl
  | cons t ts ih => simp [mapAll, ih]

theorem labels_eq_map (name : κ → String) (ts : List (Shape κ)) :
    labels name ts = ts.map (label name) := by
  induction ts with
  | nil => rfl
  | cons t ts ih => simp [labels, ih]

@[simp] theorem nested?_map (f : α → β) (t : Shape α) : (t.map f).nested? = t.nested?.map f := by
  fun_induction nested? t <;> simp_all [map, nested?]

@[simp] theorem element_map (f : α → β) (t : Shape α) : (t.map f).element = t.element.map f := by
  cases t <;> rfl

@[simp] theorem unwrap_map (f : α → β) (t : Shape α) (level : Nat) :
    (t.map f).unwrap level = (t.unwrap level).map f := by
  induction level with
  | zero => simp [unwrap]
  | succ n ih => simp [unwrap, ih]

end Shape
end SchemaKeeper
