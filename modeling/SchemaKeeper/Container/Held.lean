import SchemaKeeper.Schema.Basic
import SchemaKeeper.Value.Fits

/-!
# Held values

A value that a record takes up is held: lists and dicts at the top of its type become containers
that know the path of their field and how many container layers lie between the field and
themselves.  Every value that enters a container later is asked the type found there, so
`Binding.hold` serves first and later entries alike.
-/
namespace SchemaKeeper

/-- Where a container sits: the path of its field and the number of layers above it. -/
structure Binding where
  path : String
  level : Nat
  deriving DecidableEq

/-- A value that was checked against the schema. -/
inductive Held where
  | value (v : Value)
  | list (binding : Binding) (items : List Held)
  | dict (binding : Binding) (entries : List (String × Held))

namespace Held

instance : Inhabited Held := ⟨.value .null⟩

mutual

/-- The plain value, containers taken apart at every depth. -/
def plain : Held → Value
  | .value v => v
  | .list _ items => .list (plainItems items)
  | .dict _ entries => .dict (plainEntries entries)

def plainItems : List Held → List Value
  | [] => []
  | h :: hs => plain h :: plainItems hs

def plainEntries : List (String × Held) → List (String × Value)
  | [] => []
  | (k, h) :: hs => (k, plain h) :: plainEntries hs

end

mutual

/-- Equality of held values: containers agree if they belong to the same path and hold the
same. -/
def same : Held → Held → Bool
  | .value a, .value b => a.same b
  | .list b items, .list c others => b.path == c.path && sameItems items others
  | .dict b entries, .dict c others => b.path == c.path && sameEntries entries others
  | _, _ => false

def sameItems : List Held → List Held → Bool
  | [], [] => true
  | a :: as, b :: bs => same a b && sameItems as bs
  | _, _ => false

def sameEntries : List (String × Held) → List (String × Held) → Bool
  | [], [] => true
  | (k, a) :: as, (k', b) :: bs => k == k' && same a b && sameEntries as bs
  | _, _ => false

end

end Held

/-- Asks each item in turn and stops at the first refusal. -/
def holdItems (ask : Value → Except Refusal Held) : List Value → Except Refusal (List Held)
  | [] => .ok []
  | v :: vs => do
    let h ← ask v
    let hs ← holdItems ask vs
    return h :: hs

/-- Asks each entry in turn and stops at the first refusal. -/
def holdEntries (ask : Value → Except Refusal Held) :
    List (String × Value) → Except Refusal (List (String × Held))
  | [] => .ok []
  | (k, v) :: vs => do
    let h ← ask v
    let hs ← holdEntries ask vs
    return (k, h) :: hs

/-- Null is refused before anything else is asked. -/
def refuseNull (path : String) (ask : Value → Except Refusal Held) (v : Value) :
    Except Refusal Held :=
  if v.isNull then .error (.nullValue path) else ask v

/-- Holds a value of a type.  `level` is the level of the container that a list or dict becomes;
what it holds is asked the type one layer further in. -/
def hold (path : String) (level : Nat) : FieldType → Value → Except Refusal Held
  | .list t, v =>
    match v with
    | .list items =>
      (holdItems (refuseNull path fun item => hold path (level + 1) t item) items).map fun hs =>
        .list ⟨path, level⟩ hs
    | v => .error (.mismatch path (FieldType.text (.list t)) v.kind)
  | .dict t, v =>
    match v with
    | .dict entries =>
      (holdEntries (refuseNull path fun item => hold path (level + 1) t item) entries).map
        fun hs => .dict ⟨path, level⟩ (Entries.ofList hs)
    | v => .error (.mismatch path (FieldType.text (.dict t)) v.kind)
  | .scalar k, v =>
    if v.fits (.scalar k) then .ok (.value v)
    else .error (.mismatch path (FieldType.text (.scalar k)) v.kind)
  | .tuple ts, v =>
    if v.fits (.tuple ts) then .ok (.value v)
    else .error (.mismatch path (FieldType.text (.tuple ts)) v.kind)
  | .document c, v =>
    if v.fits (.document c) then .ok (.value v)
    else .error (.mismatch path (FieldType.text (.document c)) v.kind)

/-- Holds a value for the field at a path. -/
def holdField (s : Schema) (path : String) (v : Value) : Except Refusal Held :=
  if v.isNull then .error (.nullValue path)
  else do
    let type ← s.typeAt path
    hold path 0 type v

namespace Binding

/-- The type that every value in the container must have. -/
def typeIn (b : Binding) (s : Schema) : Except Refusal FieldType := do
  let type ← s.typeAt b.path
  return type.unwrap b.level

/-- Holds a value that enters the container. -/
def hold (b : Binding) (s : Schema) (v : Value) : Except Refusal Held :=
  if v.isNull then .error (.nullValue b.path)
  else do
    let type ← b.typeIn s
    SchemaKeeper.hold b.path (b.level + 1) type v

end Binding
end SchemaKeeper
