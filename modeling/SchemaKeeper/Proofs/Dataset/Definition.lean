import SchemaKeeper.Dataset.Definition
import SchemaKeeper.Proofs.Moment.Years
import SchemaKeeper.Proofs.Schema.Descriptor
import SchemaKeeper.Proofs.Uuid

/-!
# Definitions go through their stored form

A definition whose times can be written is read back from its document as it was, and the document
says its identifier and its name.
-/
namespace SchemaKeeper

namespace FieldDefinition

/-- A field definition goes through its stored form. -/
theorem ofTree?_json (d : FieldDefinition) : ofTree? (Tree.ofJson d.json) = some d := by
  obtain ⟨path, type, collection⟩ := d
  cases collection with
  | none =>
    have hrec : (Tree.ofJson (json ⟨path, type, none⟩)).record? ["path", "type", "collection"] =
        some (Tree.ofMembers [("path", .string path), ("type", type.json)]) :=
      Tree.record?_object (by simp) (by simp)
    rw [ofTree?, hrec]
    simp [Tree.require?, Tree.orElse?, Tree.ofJson, Tree.string?, Descriptor.ofTree?_json]
  | some name =>
    have hrec : (Tree.ofJson (json ⟨path, type, some name⟩)).record?
        ["path", "type", "collection"] = some (Tree.ofMembers
          [("collection", .string name), ("path", .string path), ("type", type.json)]) :=
      Tree.record?_object (by simp) (by simp)
    rw [ofTree?, hrec]
    simp [Tree.require?, Tree.orElse?, Tree.nullable?, Tree.ofJson, Tree.string?,
      Descriptor.ofTree?_json]

theorem floatFree_json (d : FieldDefinition) : d.json.FloatFree := by
  obtain ⟨path, type, collection⟩ := d
  cases collection
  · exact ⟨trivial, type.floatFree_json, trivial⟩
  · exact ⟨trivial, trivial, type.floatFree_json, trivial⟩

end FieldDefinition

namespace Definition

/-- The times of a definition can be written. -/
def Writable (d : Definition) : Prop := d.createdAt.Writable ∧ d.lastLoadedAt.Writable

/-- The members of the document of a definition. -/
def members (d : Definition) : List (String × Json) :=
  [("_id", .string d.key), ("created_at", .string d.createdAt.text),
      ("fields", .array (d.fields.map FieldDefinition.json)),
      ("last_loaded_at", .string d.lastLoadedAt.text),
      ("media_type", Json.ofOption (fun m => .string m.text) d.mediaType),
      ("name", .string d.name), ("persistent", .bool d.persistent)]
    ++ (match d.retired with
      | [] => []
      | names => [("retired_collections", .array (names.map .string))])
    ++ [("root", .bool d.root), ("version", .string d.version)]

theorem document_eq (d : Definition) : d.document = .object d.members := rfl

theorem record?_document (d : Definition) :
    (Tree.ofJson d.document).record? memberNames = some (Tree.ofMembers d.members) := by
  rw [document_eq]
  refine Tree.record?_object (fun m hm => ?_) ?_ <;> unfold members at *
  · cases hr : d.retired <;> simp [hr] at hm <;> rcases hm with rfl | rfl | rfl | rfl | rfl | rfl |
      rfl | rfl | rfl | rfl <;> simp [memberNames]
  · cases hr : d.retired <;> simp

@[simp] theorem get?_document_id (d : Definition) : d.document.get? "_id" = some (.string d.key) :=
  rfl

@[simp] theorem get?_document_name (d : Definition) :
    d.document.get? "name" = some (.string d.name) := rfl

theorem get?_members (d : Definition) :
    Entries.get? d.members "_id" = some (.string d.key) ∧
      Entries.get? d.members "created_at" = some (.string d.createdAt.text) ∧
      Entries.get? d.members "fields" = some (.array (d.fields.map FieldDefinition.json)) ∧
      Entries.get? d.members "last_loaded_at" = some (.string d.lastLoadedAt.text) ∧
      Entries.get? d.members "media_type" =
        some (Json.ofOption (fun m => .string m.text) d.mediaType) ∧
      Entries.get? d.members "name" = some (.string d.name) ∧
      Entries.get? d.members "persistent" = some (.bool d.persistent) ∧
      Entries.get? d.members "retired_collections" =
        (if d.retired = [] then none else some (.array (d.retired.map .string))) ∧
      Entries.get? d.members "root" = some (.bool d.root) ∧
      Entries.get? d.members "version" = some (.string d.version) := by
  rw [members]
  cases d.retired <;> simp

theorem mediaType?_json (m : Option MediaType) :
    Tree.nullable? mediaTypeOfTree? (Tree.ofJson (Json.ofOption (fun m => .string m.text) m)) =
      some m := by
  cases m with
  | none => rfl
  | some m => exact congrArg (Option.map some) (MediaType.ofText?_text m)

theorem momentOfTree?_text {m : Moment} (h : m.Writable) :
    momentOfTree? (Tree.ofJson (.string m.text)) = some m := by
  simp only [momentOfTree?, Tree.ofJson, Tree.string?, Option.bind_eq_bind, Option.bind_some,
    Moment.readSigned?_text h]

theorem require?_key {ms : List (String × Json)} {d : Definition}
    (hid : Entries.get? ms "_id" = some (.string d.key)) :
    Tree.require? (fun t : Tree => t.string?.bind Uuid.read?) (Tree.ofMembers ms) "_id" =
      some d.id := by
  rw [Tree.require?, Tree.get?_ofMembers, hid, key]
  simp only [Option.map_some, Option.bind_some, Tree.ofJson, Tree.string?, Option.bind_eq_bind,
    Uuid.read?_text]

/-- A definition whose times can be written goes through its document. -/
theorem ofDocument_document {d : Definition} (h : d.Writable) :
    ofDocument d.document = .ok d := by
  obtain ⟨hid, hcreated, hfields, hloaded, hmedia, hname, hpersistent, hretired, hroot, hversion⟩ :=
    d.get?_members
  have hretired : Tree.orElse? (Tree.list? Tree.string?) [] (Tree.ofMembers d.members)
      "retired_collections" = some d.retired := by
    by_cases hr : d.retired = []
    · rw [if_pos hr] at hretired
      rw [Tree.orElse?, Tree.get?_ofMembers, hretired, hr]
      rfl
    · rw [if_neg hr] at hretired
      exact Tree.orElse?_ofMembers hretired (Tree.list?_map fun _ _ => rfl)
  have hstring : ∀ {name s}, Entries.get? d.members name = some (.string s) →
      Tree.require? Tree.string? (Tree.ofMembers d.members) name = some s :=
    fun hget => Tree.require?_ofMembers hget rfl
  have hbool : ∀ {name b}, Entries.get? d.members name = some (.bool b) →
      Tree.require? Tree.bool? (Tree.ofMembers d.members) name = some b :=
    fun hget => Tree.require?_ofMembers hget rfl
  have hcreated := Tree.require?_ofMembers hcreated (momentOfTree?_text h.1)
  have hloaded := Tree.require?_ofMembers hloaded (momentOfTree?_text h.2)
  have hfields := Tree.require?_ofMembers hfields (Tree.list?_map fun f _ => f.ofTree?_json)
  have hmedia : Tree.orElse? (Tree.nullable? mediaTypeOfTree?) none (Tree.ofMembers d.members)
      "media_type" = some d.mediaType :=
    Tree.orElse?_ofMembers hmedia (mediaType?_json d.mediaType)
  have htree : ofTree? (Tree.ofJson d.document) = some d := by
    rw [ofTree?, record?_document]
    simp only [Option.bind_eq_bind, Option.bind_some, Option.pure_def, require?_key hid,
      hstring hname, hcreated, hloaded, hfields, hmedia, hbool hpersistent, hbool hroot,
      hstring hversion, hretired]
  rw [ofDocument, htree]

theorem floatFree_document (d : Definition) : d.document.FloatFree := by
  have hfields : Json.ItemsFloatFree (d.fields.map FieldDefinition.json) :=
    Json.itemsFloatFree_iff.2 fun j hj => by
      obtain ⟨f, -, rfl⟩ := List.mem_map.1 hj
      exact f.floatFree_json
  have hretired : Json.ItemsFloatFree (d.retired.map .string) :=
    Json.itemsFloatFree_iff.2 fun j hj => by
      obtain ⟨f, -, rfl⟩ := List.mem_map.1 hj
      trivial
  rw [document_eq, members]
  cases hr : d.retired with
  | nil => cases d.mediaType <;>
      simp [Json.FloatFree, Json.MembersFloatFree, hfields, Json.ofOption]
  | cons name rest =>
    rw [hr, List.map_cons] at hretired
    cases d.mediaType <;>
      simp [Json.FloatFree, Json.MembersFloatFree, hfields, Json.ofOption, hretired]

/-- Whatever its fields, their types and collections, its names and its media type are, a definition
whose times are in years of four digits goes through its document. -/
theorem goesThrough_document {d : Definition} (hcreated : d.createdAt.HasPlainYear)
    (hloaded : d.lastLoadedAt.HasPlainYear) : ofDocument d.document = .ok d :=
  ofDocument_document ⟨hcreated.writable, hloaded.writable⟩

/-- A definition with a field of each kind of type, created in the first instant that four digits
can write and loaded in a leap second at the end of the last year. -/
def sampleStored : Definition where
  id := .ofNat 1
  name := "d"
  createdAt := ⟨.first 0, 0, 0, 0, 0, by decide⟩
  lastLoadedAt := ⟨.last 9999, 23, 59, 60, 120000, by decide⟩
  fields :=
    [⟨"", .document "Sample", some "sample.1"⟩, ⟨"kind", .scalar .string, none⟩,
      ⟨"pairs", .dict (.tuple [.scalar .int, .list (.tuple [])]), none⟩,
      ⟨"tags", .list (.document "Tag"), some "tag.2"⟩]
  mediaType := some .pointCloud
  persistent := true
  root := false
  version := "0.1.0"
  retired := ["", "tag.1"]

theorem goesThrough_document_sample : ofDocument sampleStored.document = .ok sampleStored :=
  goesThrough_document (by decide) (by decide)

end Definition
end SchemaKeeper
