import SchemaKeeper.Layout.FieldDefinition
import SchemaKeeper.Moment.Rfc3339
import SchemaKeeper.Refusal
import SchemaKeeper.Uuid

/-!
# Dataset definitions

What is persisted of a dataset: its identifier and name, when it was created and last loaded, its
fields in ascending order of their paths, and the collections that it no longer uses and still
keeps until it is deleted.
-/
namespace SchemaKeeper

/-- The kind of media that the samples of a dataset hold. -/
inductive MediaType where
  | image
  | video
  | group
  | pointCloud
  | threeD
  deriving DecidableEq

namespace MediaType

def text : MediaType → String
  | .image => "image"
  | .video => "video"
  | .group => "group"
  | .pointCloud => "point_cloud"
  | .threeD => "three_d"

def ofText? : String → Option MediaType
  | "image" => some .image
  | "video" => some .video
  | "group" => some .group
  | "point_cloud" => some .pointCloud
  | "three_d" => some .threeD
  | _ => none

theorem ofText?_text (m : MediaType) : ofText? m.text = some m := by cases m <;> rfl

/-- The media type of a name, which must be known. -/
def ofText (s : String) : Except Refusal MediaType :=
  match ofText? s with
  | some m => .ok m
  | none => .error (.invalidKey ("unknown media type '" ++ s ++ "'"))

end MediaType

/-- How a dataset is looked up. -/
inductive DatasetKey where
  | byName (name : String)
  | byId (id : Uuid)
  deriving DecidableEq

namespace DatasetKey

/-- The member of a definition that the key asks for. -/
def field : DatasetKey → String
  | .byName _ => "name"
  | .byId _ => "_id"

/-- The text of the key, which the member must equal. -/
def text : DatasetKey → String
  | .byName name => name
  | .byId id => id.text

end DatasetKey

/-- The persisted definition of a dataset. -/
structure Definition where
  id : Uuid
  name : String
  createdAt : Moment
  lastLoadedAt : Moment
  fields : List FieldDefinition
  mediaType : Option MediaType
  persistent : Bool
  root : Bool
  version : String
  retired : List String
  deriving DecidableEq

namespace Definition

/-- The definition of a dataset that is created now. -/
def new (id : Uuid) (now : Moment) (name : String) (fields : List FieldDefinition)
    (mediaType : Option MediaType) (persistent : Bool) (version : String) : Definition :=
  ⟨id, name, now, now, FieldDefinition.sorted fields, mediaType, persistent, true, version, []⟩

/-- The identifier as it is stored. -/
def key (d : Definition) : String := d.id.text

/-- The collections in use, by path. -/
def collections (d : Definition) : Collections := FieldDefinition.collections d.fields

def setFields (d : Definition) (fields : List FieldDefinition) : Definition :=
  { d with fields := FieldDefinition.sorted fields }

/-- Records names as retired, each once and in ascending order, except those in use. -/
def retire (d : Definition) (names : List String) (live : Collections) : Definition :=
  let all := Keyed.ofList ((d.retired ++ names).map fun name => (name, ()))
  { d with retired := all.keys.filter fun name => !live.values.contains name }

/-- The stored form. -/
def document (d : Definition) : Json :=
  .object ([("_id", .string d.key), ("created_at", .string d.createdAt.text),
      ("fields", .array (d.fields.map FieldDefinition.json)),
      ("last_loaded_at", .string d.lastLoadedAt.text),
      ("media_type", Json.ofOption (fun m => .string m.text) d.mediaType),
      ("name", .string d.name), ("persistent", .bool d.persistent)]
    ++ (match d.retired with
      | [] => []
      | names => [("retired_collections", .array (names.map .string))])
    ++ [("root", .bool d.root), ("version", .string d.version)])

/-- The names of the members in the order in which an array gives them. -/
def memberNames : List String :=
  ["_id", "name", "created_at", "last_loaded_at", "fields", "media_type", "persistent", "root",
    "version", "retired_collections"]

def momentOfTree? (t : Tree) : Option Moment := t.string? >>= Moment.readSigned?

def mediaTypeOfTree? (t : Tree) : Option MediaType := t.choice? false >>= MediaType.ofText?

/-- The definition that a tree says. -/
def ofTree? (t : Tree) : Option Definition := do
  let ms ← t.record? memberNames
  let id ← Tree.require? (fun t => t.string? >>= Uuid.read?) ms "_id"
  let name ← Tree.require? Tree.string? ms "name"
  let createdAt ← Tree.require? momentOfTree? ms "created_at"
  let lastLoadedAt ← Tree.require? momentOfTree? ms "last_loaded_at"
  let fields ← Tree.require? (Tree.list? FieldDefinition.ofTree?) ms "fields"
  let mediaType ← Tree.orElse? (Tree.nullable? mediaTypeOfTree?) none ms "media_type"
  let persistent ← Tree.require? Tree.bool? ms "persistent"
  let root ← Tree.require? Tree.bool? ms "root"
  let version ← Tree.require? Tree.string? ms "version"
  let retired ← Tree.orElse? (Tree.list? Tree.string?) [] ms "retired_collections"
  return ⟨id, name, createdAt, lastLoadedAt, fields, mediaType, persistent, root, version, retired⟩

/-- The definition in a stored document, which must be readable. -/
def ofDocument (j : Json) : Except Refusal Definition :=
  match ofTree? (Tree.ofJson j) with
  | some d => .ok d
  | none => .error (.store (.unreadable "not a dataset definition"))

end Definition
end SchemaKeeper
