import SchemaKeeper.Json.Basic

/-!
# Documents as read

A `Tree` keeps what a text says before anyone decides what to make of it: members stay in order
and may repeat, and a part that follows the grammar but has no value is `unreadable`.  Decoders
look only at the members they know, so an unreadable part does no harm where nobody looks.
`Tree.settle?` turns a tree into a document, for which every part must be readable.
-/
namespace SchemaKeeper

/-- A value as it was read. -/
inductive Tree where
  | null
  | bool (b : Bool)
  | int (n : Int)
  | float (x : Double)
  | string (s : String)
  | array (items : List Tree)
  | object (members : List (String × Tree))
  | unreadable

namespace Tree

instance : Inhabited Tree := ⟨.null⟩

mutual

/-- The document that a tree says; of members with one name the last counts. -/
def settle? : Tree → Option Json
  | .null => some .null
  | .bool b => some (.bool b)
  | .int n => some (.int n)
  | .float x => some (.float x)
  | .string s => some (.string s)
  | .array items => (settleItems? items).map .array
  | .object members => (settleMembers? members).map Json.ofMembers
  | .unreadable => none

def settleItems? : List Tree → Option (List Json)
  | [] => some []
  | t :: ts => do
    let j ← settle? t
    let js ← settleItems? ts
    return j :: js

def settleMembers? : List (String × Tree) → Option (List (String × Json))
  | [] => some []
  | (k, t) :: ts => do
    let j ← settle? t
    let js ← settleMembers? ts
    return (k, j) :: js

end

mutual

/-- A document as a tree. -/
def ofJson : Json → Tree
  | .null => .null
  | .bool b => .bool b
  | .int n => .int n
  | .float x => .float x
  | .string s => .string s
  | .array items => .array (ofItems items)
  | .object members => .object (ofMembers members)

def ofItems : List Json → List Tree
  | [] => []
  | j :: js => ofJson j :: ofItems js

def ofMembers : List (String × Json) → List (String × Tree)
  | [] => []
  | (k, j) :: js => (k, ofJson j) :: ofMembers js

end

/-- Every part of the tree has a value. -/
def isReadable (t : Tree) : Bool := t.settle?.isSome

/-! ## Decoding -/

/-- The members of a record with the given names.  A record is written as an object, where names
outside the list are passed over and a name may stand only once, or as the array of its members in
the order of the names, where members may be missing at the end. -/
def record? (names : List String) : Tree → Option (List (String × Tree))
  | .object members =>
    let known := members.filter fun m => names.contains m.1
    if (known.map (·.1)).Nodup then some known else none
  | .array items => if items.length ≤ names.length then some (names.zip items) else none
  | _ => none

/-- A member that must be there. -/
def require? (decode : Tree → Option α) (members : List (String × Tree)) (name : String) :
    Option α :=
  Entries.get? members name >>= decode

/-- A member with a value for its absence. -/
def orElse? (decode : Tree → Option α) (absent : α) (members : List (String × Tree))
    (name : String) : Option α :=
  match Entries.get? members name with
  | some t => decode t
  | none => some absent

/-- A value that may be null. -/
def nullable? (decode : Tree → Option α) : Tree → Option (Option α)
  | .null => some none
  | t => (decode t).map some

def string? : Tree → Option String
  | .string s => some s
  | _ => none

def bool? : Tree → Option Bool
  | .bool b => some b
  | _ => none

/-- An integer that fits an unsigned word of 64 bits. -/
def word? : Tree → Option Nat
  | .int n => if 0 ≤ n ∧ n < UInt64.size then some n.toNat else none
  | _ => none

/-- All items of an array. -/
def list? (decode : Tree → Option α) : Tree → Option (List α)
  | .array items => items.mapM decode
  | _ => none

/-- All members of an object; of members with one name the last counts. -/
def keyed? (decode : Tree → Option α) : Tree → Option (Keyed α)
  | .object members =>
    (members.mapM fun m => (decode m.2).map fun v => (m.1, v)).map Keyed.ofList
  | _ => none

/-- One of several names: a string, or an object whose only member has the name and is null.  With
`emptyToo` the member may also be an empty object. -/
def choice? (emptyToo : Bool) : Tree → Option String
  | .string s => some s
  | .object [(name, .null)] => some name
  | .object [(name, .object [])] => if emptyToo then some name else none
  | _ => none

/-! ## Sizes of children -/

theorem sizeOf_get? {key : String} {t : Tree} :
    ∀ {members : List (String × Tree)}, Entries.get? members key = some t →
      sizeOf t < sizeOf members
  | (k, v) :: rest, h => by
    unfold Entries.get? at h
    split at h
    · injection h with h
      subst h
      simp; omega
    · have := sizeOf_get? h
      simp; omega

theorem sizeOf_get?_filter {key : String} {t : Tree} (p : String × Tree → Bool) :
    ∀ {members : List (String × Tree)}, Entries.get? (members.filter p) key = some t →
      sizeOf t < sizeOf members
  | (k, v) :: rest, h => by
    rw [List.filter_cons] at h
    split at h
    · unfold Entries.get? at h
      split at h
      · injection h with h
        subst h
        simp; omega
      · have := sizeOf_get?_filter p h
        simp; omega
    · have := sizeOf_get?_filter p h
      simp; omega

theorem sizeOf_get?_zip {key : String} {t : Tree} :
    ∀ {names : List String} {items : List Tree}, Entries.get? (names.zip items) key = some t →
      sizeOf t < sizeOf items
  | [], _, h => by simp [Entries.get?] at h
  | _ :: _, [], h => by simp [Entries.get?] at h
  | n :: names, i :: items, h => by
    rw [List.zip_cons_cons] at h
    unfold Entries.get? at h
    split at h
    · injection h with h
      subst h
      simp; omega
    · have := sizeOf_get?_zip h
      simp; omega

/-- A member of a record is smaller than the record. -/
theorem sizeOf_record? {names : List String} {t c : Tree} {members : List (String × Tree)}
    {key : String} (h : t.record? names = some members)
    (hc : Entries.get? members key = some c) : sizeOf c < sizeOf t := by
  unfold record? at h
  split at h
  · simp only [Option.ite_none_right_eq_some, Option.some.injEq] at h
    obtain ⟨_, rfl⟩ := h
    have := sizeOf_get?_filter _ hc
    simp; omega
  · simp only [Option.ite_none_right_eq_some, Option.some.injEq] at h
    obtain ⟨_, rfl⟩ := h
    have := sizeOf_get?_zip hc
    simp; omega
  · cases h

end Tree
end SchemaKeeper
