import SchemaKeeper.Json.Basic
import SchemaKeeper.Moment.Rfc3339
import SchemaKeeper.Validator.Rule

/-!
# Checking documents

`Rule.check` goes through a document and a rule together and complains about the first part that
does not fit.  A titled object admits its properties and `_id` alone, a property may be absent,
and null fits no rule that asks for a type.  A date is `$date` with an RFC 3339 text, a reference
`$oid` with a text, each the only member of its object.
-/
namespace SchemaKeeper

/-- Where a document does not fit, what was asked for there and what stands there. -/
structure Complaint where
  field : String
  expected : String
  actual : String
  deriving DecidableEq

def Complaint.text (c : Complaint) : String :=
  "field '" ++ c.field ++ "': expected " ++ c.expected ++ ", got " ++ c.actual

namespace Json

/-- The storage type of a document value. -/
def storageText : Json → String
  | .null => "null"
  | .bool _ => "bool"
  | .int _ => "long"
  | .float _ => "double"
  | .string _ => "string"
  | .array _ => "array"
  | .object _ => "object"

/-- The text in an object whose only member has the given name. -/
def wrapped? (name : String) : Json → Option String
  | .object [(k, .string s)] => if k = name then some s else none
  | _ => none

end Json

namespace Rule

/-- The path of a member; the top of a document has a path of its own. -/
def memberPath (path name : String) : String :=
  if path = "$root" then name else path ++ "." ++ name

def itemPath (path : String) (i : Nat) : String := path ++ "[" ++ toString i ++ "]"

def mismatch (path : String) (type : StorageType) (v : Json) : Except Complaint Unit :=
  .error ⟨path, type.text, v.storageText⟩

/-- Asks for one of the storage types without parts. -/
def checkScalar (path : String) (type : StorageType) (v : Json) (holds : Bool) :
    Except Complaint Unit :=
  if holds then .ok () else mismatch path type v

/-- An array has neither too few nor too many items. -/
def checkLength (path : String) (minItems maxItems : Option Nat) (n : Nat) :
    Except Complaint Unit :=
  match minItems, maxItems with
  | some low, high =>
    if n < low then
      .error ⟨path, "at least " ++ toString low ++ " items", toString n ++ " items"⟩
    else
      match high with
      | some high =>
        if high < n then
          .error ⟨path, "at most " ++ toString high ++ " items", toString n ++ " items"⟩
        else .ok ()
      | none => .ok ()
  | none, some high =>
    if high < n then
      .error ⟨path, "at most " ++ toString high ++ " items", toString n ++ " items"⟩
    else .ok ()
  | none, none => .ok ()

/-- A titled object has no member but `_id` and its properties. -/
def checkClosed (path : String) (title : Option String) (properties : List (String × Rule)) :
    List (String × Json) → Except Complaint Unit
  | [] => .ok ()
  | (name, _) :: rest =>
    if title.isSome && name != "_id" && (Entries.get? properties name).isNone then
      .error ⟨memberPath path name, "no such field", "field present"⟩
    else checkClosed path title properties rest

def isInteger : Json → Bool
  | .int _ => true
  | _ => false

def isNumber : Json → Bool
  | .int _ => true
  | .float _ => true
  | _ => false

def isText : Json → Bool
  | .string _ => true
  | _ => false

def isTruth : Json → Bool
  | .bool _ => true
  | _ => false

/-- A date as it is stored. -/
def isDate (v : Json) : Bool :=
  match v.wrapped? "$date" with
  | some s => Moment.isText s
  | none => false

/-- Goes through the members of an object up to the first complaint. -/
def overMembers (ask : String → Json → Except Complaint Unit) :
    List (String × Json) → Except Complaint Unit
  | [] => .ok ()
  | (name, v) :: rest => do
    ask name v
    overMembers ask rest

/-- Goes through the items of an array, counted from the given position, up to the first
complaint. -/
def overItems (ask : Nat → Json → Except Complaint Unit) : Nat → List Json → Except Complaint Unit
  | _, [] => .ok ()
  | i, v :: vs => do
    ask i v
    overItems ask (i + 1) vs

mutual

/-- Complains about the first part of a value that the rule does not allow. -/
def check (path : String) : Rule → Json → Except Complaint Unit
  | ⟨none, _, _, _, _, _, _⟩, _ => .ok ()
  | ⟨some _, _, _, _, _, _, _⟩, .null => .error ⟨path, "non-null value", "null"⟩
  | ⟨some .string, _, _, _, _, _, _⟩, v => checkScalar path .string v (isText v)
  | ⟨some .long, _, _, _, _, _, _⟩, v => checkScalar path .long v (isInteger v)
  | ⟨some .double, _, _, _, _, _, _⟩, v => checkScalar path .double v (isNumber v)
  | ⟨some .bool, _, _, _, _, _, _⟩, v => checkScalar path .bool v (isTruth v)
  | ⟨some .date, _, _, _, _, _, _⟩, v => checkScalar path .date v (isDate v)
  | ⟨some .objectId, _, _, _, _, _, _⟩, v =>
    checkScalar path .objectId v (v.wrapped? "$oid").isSome
  | ⟨some .object, title, properties, _, values, _, _⟩, v =>
    match v with
    | .object members =>
      match values with
      | some r => overMembers (fun name v => check (memberPath path name) r v) members
      | none => do
        checkClosed path title properties members
        checkProperties path properties members
    | v => mismatch path .object v
  | ⟨some .array, _, _, items, _, minItems, maxItems⟩, v =>
    match v with
    | .array vs =>
      match checkLength path minItems maxItems vs.length with
      | .error c => .error c
      | .ok () =>
        match items with
        | some (.all r) => overItems (fun i v => check (itemPath path i) r v) 0 vs
        | some (.each rs) => checkEach path 0 rs vs
        | none => .ok ()
    | v => mismatch path .array v

/-- The properties that are present fit their rules. -/
def checkProperties (path : String) :
    List (String × Rule) → List (String × Json) → Except Complaint Unit
  | [], _ => .ok ()
  | (name, r) :: rest, members =>
    match Entries.get? members name with
    | some v => do
      check (memberPath path name) r v
      checkProperties path rest members
    | none => checkProperties path rest members

/-- Items fit the rules of their positions, as far as both go. -/
def checkEach (path : String) (i : Nat) : List Rule → List Json → Except Complaint Unit
  | r :: rs, v :: vs => do
    check (itemPath path i) r v
    checkEach path (i + 1) rs vs
  | _, _ => .ok ()

end

/-- Checks a whole document. -/
def checkDocument (r : Rule) (document : Json) : Except Complaint Unit :=
  check "$root" r document

end Rule
end SchemaKeeper
