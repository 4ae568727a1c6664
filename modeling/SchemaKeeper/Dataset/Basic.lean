import SchemaKeeper.Container.Held
import SchemaKeeper.Dataset.Connection
import SchemaKeeper.Dataset.Definition
import SchemaKeeper.Dataset.Provision

/-!
# Datasets as seen by one client

A client holds a dataset by its definition and validators as it last saw them, and a live schema
that it may edit ahead of them.  Edits touch the live schema alone until they are committed.
-/
namespace SchemaKeeper

/-- What a client last saw of a persisted dataset. -/
structure Holding where
  definition : Definition
  validators : Validators

/-- How a client stands to a dataset: without one, in step with it, with edits ahead of it, or
after deleting it. -/
inductive Standing where
  | detached
  | attached (h : Holding)
  | draft (h : Holding)
  | deleted

namespace Standing

def text : Standing → String
  | .detached => "Detached"
  | .attached _ => "Attached"
  | .draft _ => "Draft"
  | .deleted => "Deleted"

def holding? : Standing → Option Holding
  | .attached h => some h
  | .draft h => some h
  | _ => none

/-- The standing after an edit. -/
def edited : Standing → Standing
  | .attached h => .draft h
  | s => s

end Standing

/-- One client's hold on a dataset. -/
structure Dataset where
  connection : Connection
  standing : Standing
  live : Schema

namespace Dataset

/-- What the client holds, which there must be. -/
def holding (d : Dataset) : Except Refusal Holding :=
  match d.standing.holding? with
  | some h => .ok h
  | none => .error .notAttached

def definition? (d : Dataset) : Option Definition := d.standing.holding?.map Holding.definition

def validators? (d : Dataset) : Option Validators := d.standing.holding?.map Holding.validators

def collections? (d : Dataset) : Option Collections := d.definition?.map Definition.collections

/-- The collections of the definition, which there must be. -/
def collections (d : Dataset) : Except Refusal Collections :=
  d.holding.map fun h => h.definition.collections

/-- A copy of the live schema without a dataset. -/
def copy (d : Dataset) : Dataset := { d with standing := .detached }

/-- The live schema has more paths than the definition. -/
def isExpanded (d : Dataset) : Except Refusal Bool :=
  d.holding.map fun h => decide (h.definition.fields.length < d.live.size)

/-- The class of the root documents. -/
def rootClass (s : Schema) : Except Refusal DocClass :=
  match s.typeAt "" with
  | .error e => .error e
  | .ok (.document c) => .ok c
  | .ok other => .error (.mismatch "" "document" other.text)

/-! ## Edits -/

/-- Refuses edits after deletion and edits of the root. -/
def checkEditable (d : Dataset) (path : String) : Except Refusal Unit :=
  match d.standing with
  | .deleted => .error .notAttached
  | _ => if path = "" then .error (.invalidKey "the root path cannot be edited") else .ok ()

/-- The class that a type ends in must be registered. -/
def checkRegistered (r : Registry) (path : String) (type : FieldType) : Except Refusal Unit :=
  (type.descriptor.nestedClass path r).map fun _ => ()

/-- All classes that the types of fields end in must be registered. -/
def checkAllRegistered (r : Registry) : List (String × Field) → Except Refusal Unit
  | [] => .ok ()
  | (path, field) :: rest => do
    match field.type with
    | some type => checkRegistered r path type
    | none => pure ()
    checkAllRegistered r rest

/-- The fields below a path that its type unfolds into. -/
def unfolded (path : String) (type : FieldType) : Schema :=
  match type.nested? with
  | some c => c.expanded path
  | none => .empty

/-- Leaves out every path below the given one. -/
def prune (path : String) (s : Schema) : Schema :=
  s.filterKeys fun p => !Path.isBelow path p

/-- The schema with a field of a type: a change of type drops what stood below, and fields below
that are still there keep their declarations. -/
def withField (s : Schema) (path : String) (type : FieldType) : Schema :=
  let before := s.get? path >>= Field.type
  let kept := if Field.sameType before (some type) then s else prune path s
  ((unfolded path type).union kept).insert path (.ofPath path (some type))

/-- Adds a field or changes its type. -/
def addField (d : Dataset) (path : String) (type : FieldType) : Except Refusal Dataset := do
  d.checkEditable path
  checkRegistered d.connection.classes path type
  checkAllRegistered d.connection.classes (unfolded path type).entries
  return { d with live := withField d.live path type, standing := d.standing.edited }

/-- Removes a field and every path below it. -/
def removeField (d : Dataset) (path : String) : Except Refusal Dataset := do
  d.checkEditable path
  if !d.live.contains path then throw (.unknownField path)
  return { d with live := prune path (d.live.erase path), standing := d.standing.edited }

/-! ## Containers for a field -/

/-- A list for the field at a path. -/
def list (d : Dataset) (path : String) (items : List Value) : Except Refusal Held := do
  match ← holdField d.live path (.list items) with
  | .list b hs => return .list b hs
  | other => throw (.mismatch path "list" other.plain.kind)

/-- A dict for the field at a path; of two entries with one key the later stays. -/
def dict (d : Dataset) (path : String) (entries : List (String × Value)) :
    Except Refusal Held := do
  match ← holdField d.live path (.dict (Entries.ofList entries)) with
  | .dict b hs => return .dict b hs
  | other => throw (.mismatch path "dict" other.plain.kind)

end Dataset
end SchemaKeeper
