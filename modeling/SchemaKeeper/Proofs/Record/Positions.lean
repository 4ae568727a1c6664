import SchemaKeeper.Layout.Basic
import SchemaKeeper.Proofs.Record.Parts

/-!
# Positions inside a value

A position leads into a value step by step: to an item of a list or a tuple, to an entry of a dict,
to a field of a document.  The items and entries of a value appear under the path of the value
itself, each field under a path of its own, so the path under which a document appears can be told
from its position.
-/
namespace SchemaKeeper

namespace Value

/-- The way from a value to one directly inside it. -/
inductive Way where
  | item (index : Nat)
  | entry (key : String)
  | field (name : String)

/-- The path under which a value appears that is one step further inside. -/
def Way.below (path : String) : Way → String
  | .field name => Path.join path name
  | _ => path

/-- The path under which the value at a position appears. -/
def pathOf (path : String) (position : List Way) : String := position.foldl Way.below path

/-- The value one step further inside. -/
def child? : Value → Way → Option Value
  | .list items, .item index => items[index]?
  | .tuple items, .item index => items[index]?
  | .dict entries, .entry key => Entries.get? entries key
  | .document _ _ fields, .field name => Entries.get? fields name
  | _, _ => none

/-- The value at a position. -/
def inside? : Value → List Way → Option Value
  | v, [] => some v
  | v, way :: rest => (v.child? way).bind fun w => inside? w rest

variable {v w : Value} {way : Way} {path : String}

theorem inside?_cons_eq_some {rest : List Way} :
    v.inside? (way :: rest) = some w ↔ ∃ u, v.child? way = some u ∧ u.inside? rest = some w :=
  Option.bind_eq_some_iff

/-- The documents inside a value one step further are inside the value. -/
theorem documents_child_subset (h : v.child? way = some w) :
    documents (way.below path) w ⊆ documents path v := by
  intro d hd
  cases v with
  | list items =>
    cases way with
    | item index => exact mem_itemsDocuments.2 ⟨w, List.mem_of_getElem? h, hd⟩
    | _ => cases h
  | tuple items =>
    cases way with
    | item index => exact mem_itemsDocuments.2 ⟨w, List.mem_of_getElem? h, hd⟩
    | _ => cases h
  | dict entries =>
    cases way with
    | entry key => exact mem_entriesDocuments.2 ⟨(key, w), Entries.mem_of_get? h, hd⟩
    | _ => cases h
  | document id className fields =>
    cases way with
    | field name =>
      exact List.mem_cons_of_mem _ (mem_fieldsDocuments.2 ⟨(name, w), Entries.mem_of_get? h, hd⟩)
    | _ => cases h
  | _ => cases h

/-- Only the fields of documents have paths of their own. -/
theorem below_of_child (path : String) (h : v.child? way = some w) :
    (∃ id className fields, v = .document id className fields) ∨ way.below path = path := by
  cases way with
  | field name =>
    cases v with
    | document id className fields => exact .inl ⟨id, className, fields, rfl⟩
    | _ => cases h
  | _ => exact .inr rfl

/-- A document stands at some position inside the value. -/
def Bears (v : Value) : Prop :=
  ∃ position id className fields, v.inside? position = some (.document id className fields)

/-- The outermost document on the way to a document appears under the path of the value. -/
theorem Bears.exists_document (path : String) (h : v.Bears) :
    ∃ id className fields, (path, Value.document id className fields) ∈ documents path v := by
  obtain ⟨position, id, className, fields, h⟩ := h
  induction position generalizing v with
  | nil =>
    injection h with h
    subst h
    exact ⟨id, className, fields, List.mem_cons_self⟩
  | cons way rest ih =>
    obtain ⟨w, hw, hrest⟩ := inside?_cons_eq_some.1 h
    rcases below_of_child path hw with ⟨id', className', fields', rfl⟩ | hbelow
    · exact ⟨id', className', fields', List.mem_cons_self⟩
    · obtain ⟨id', className', fields', hmem⟩ := ih hrest
      exact ⟨id', className', fields', documents_child_subset hw (hbelow.symm ▸ hmem)⟩

/-- A text is stored as itself only. -/
theorem not_bears_of_stored_string {text : String} (h : v.stored = .string text) : ¬ v.Bears := by
  intro hbears
  obtain ⟨id, className, fields, hmem⟩ := hbears.exists_document ""
  cases v with
  | float x =>
    rw [stored] at h
    split at h <;> cases h
  | string s => cases hmem
  | _ => cases h

/-! ## Documents at the same positions -/

/-- Wherever a document stands inside a value, there stands one of the same identifier inside
another value, and it is of the class that the schema has at its path. -/
def Mirrors (s : Schema) (path : String) (v u : Value) : Prop :=
  ∀ position id className fields, v.inside? position = some (.document id className fields) →
    ∃ k fields', Layout.classAt s (pathOf path position) = .ok k ∧
      u.inside? position = some (.document id k.name fields')

variable {s : Schema} {u : Value}

/-- Whether a value is mirrored is decided at the value itself and one step further inside. -/
theorem mirrors_of_children
    (hself : ∀ id className fields, v = .document id className fields →
      ∃ k fields', Layout.classAt s path = .ok k ∧ u = .document id k.name fields')
    (hchild : ∀ way w, v.child? way = some w → w.Bears →
      ∃ w', u.child? way = some w' ∧ Mirrors s (way.below path) w w') : Mirrors s path v u := by
  intro position id className fields h
  cases position with
  | nil =>
    injection h with h
    obtain ⟨k, fields', hk, hu⟩ := hself id className fields h
    exact ⟨k, fields', hk, congrArg some hu⟩
  | cons way rest =>
    obtain ⟨w, hw, hrest⟩ := inside?_cons_eq_some.1 h
    obtain ⟨w', hw', hmirrors⟩ := hchild way w hw ⟨rest, id, className, fields, hrest⟩
    obtain ⟨k, fields', hk, hin⟩ := hmirrors rest id className fields hrest
    exact ⟨k, fields', hk, inside?_cons_eq_some.2 ⟨w', hw', hin⟩⟩

/-- A value without documents is mirrored by every other one. -/
theorem mirrors_of_not_bears (h : ¬ v.Bears) : Mirrors s path v u :=
  fun position id className fields hin => absurd ⟨position, id, className, fields, hin⟩ h

/-- What mirrors a value with documents is not null. -/
theorem Mirrors.isNull (h : Mirrors s path v u) (hv : v.Bears) : u.isNull = false := by
  obtain ⟨position, id, className, fields, hin⟩ := hv
  obtain ⟨k, fields', -, hu⟩ := h position id className fields hin
  cases u with
  | null => cases position <;> cases hu
  | _ => rfl

end Value

end SchemaKeeper
