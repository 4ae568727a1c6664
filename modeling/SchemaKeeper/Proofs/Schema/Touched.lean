import Mathlib.Data.List.Basic
import Mathlib.Data.Prod.Basic
import SchemaKeeper.Proofs.Schema.Delta

/-!
# The paths that a delta touches

A delta touches the paths of its three parts.  What it leaves at a path that it touches does not
depend on the schema that it is applied to, and every other path stays as it is there, so that two
deltas without a touched path in common can be applied in either order (`apply_comm`).  What leads
from one schema to another touches exactly the paths at which their entries differ, and leaves at
each of them what the edited schema has there.
-/
namespace SchemaKeeper

namespace Schema
variable {s t : Schema}

/-- Every field is named by the last part of its path. -/
def NamedByLeaf (s : Schema) : Prop := ∀ path f, s.get? path = some f → f.name = Path.leaf path

theorem namedByLeaf_ofTypes (types : List (String × Option FieldType)) :
    (ofTypes types).NamedByLeaf := by
  intro path f hf
  obtain ⟨_, -, h⟩ := List.mem_map.1 (Keyed.mem_of_get?_ofList hf)
  cases h
  rfl

/-- What a schema whose fields are named by their paths has at a path is told by its entry. -/
theorem NamedByLeaf.get?_map (hs : s.NamedByLeaf) (path : String) :
    (s.get? path).map (fun f => (f.name, f.type.map FieldType.descriptor)) =
      (s.entry path).map fun type => (Path.leaf path, type) := by
  rw [entry]
  cases hf : s.get? path with
  | none => rfl
  | some f => simp [hs path f hf]

/-- Schemas whose fields are named by their paths are the same if they have the same entries. -/
theorem same_iff_entry (hs : s.NamedByLeaf) (ht : t.NamedByLeaf) :
    s.same t = true ↔ ∀ path, s.entry path = t.entry path := by
  rw [same_iff]
  refine forall_congr' fun path => ?_
  rw [hs.get?_map, ht.get?_map]
  exact (Option.map_injective (Prod.mk_right_injective _)).eq_iff

end Schema

namespace Delta
variable {d d' : Delta} {original edited s t : Schema} {path : String}

/-- The paths that a delta adds, changes or removes. -/
def touched (d : Delta) : List String := d.added.keys ++ d.changed.keys ++ d.removed

theorem not_mem_touched : path ∉ d.touched ↔
    d.added.get? path = none ∧ d.changed.get? path = none ∧ path ∉ d.removed := by
  simp only [touched, List.mem_append, not_or, Keyed.mem_keys, ← Option.isSome_iff_exists,
    Bool.not_eq_true, Option.isSome_eq_false_iff, Option.isNone_iff_eq_none, and_assoc]

theorem isEmpty_iff_touched : d.isEmpty = true ↔ ∀ path, path ∉ d.touched := by
  rw [← List.eq_nil_iff_forall_not_mem]
  simp [isEmpty, touched, Keyed.isEmpty, Keyed.keys, and_assoc]

/-! ## Applying a delta -/

/-- A path that a delta does not touch stays. -/
theorem get?_apply_of_not_mem (h : path ∉ d.touched) (s : Schema) :
    (d.apply s).get? path = s.get? path := by
  obtain ⟨hadded, hchanged, hremoved⟩ := not_mem_touched.1 h
  simp [get?_applied, hadded, hchanged, hremoved]

/-- What a delta leaves at a path that it touches is up to the delta alone. -/
theorem get?_apply_of_mem (h : path ∈ d.touched) (s t : Schema) :
    (d.apply s).get? path = (d.apply t).get? path := by
  rw [get?_applied, get?_applied]
  by_cases hremoved : path ∈ d.removed
  · simp [hremoved]
  cases hchanged : d.changed.get? path with
  | some f => simp
  | none =>
    cases hadded : d.added.get? path with
    | some f => simp
    | none => exact absurd h (not_mem_touched.2 ⟨hadded, hchanged, hremoved⟩)

/-- A delta touches exactly the paths at which what it leaves does not depend on what was there. -/
theorem mem_touched_iff :
    path ∈ d.touched ↔ ∀ s t : Schema, (d.apply s).get? path = (d.apply t).get? path := by
  refine ⟨get?_apply_of_mem, fun h => ?_⟩
  by_contra hno
  -- Untouched, the path would stay away from the empty schema and stay in the other.
  have hboth := h .empty (Keyed.empty.insert path ⟨path, none⟩)
  rw [get?_apply_of_not_mem hno, get?_apply_of_not_mem hno] at hboth
  simp at hboth

theorem get?_apply_congr (h : s.get? path = t.get? path) :
    (d.apply s).get? path = (d.apply t).get? path := by
  by_cases htouched : path ∈ d.touched
  · exact get?_apply_of_mem htouched s t
  · rw [get?_apply_of_not_mem htouched, get?_apply_of_not_mem htouched, h]

/-- Deltas that touch no path in common can be applied in either order. -/
theorem apply_comm (h : d.touched.Disjoint d'.touched) (s : Schema) :
    d'.apply (d.apply s) = d.apply (d'.apply s) := by
  refine Keyed.ext_get? fun path => ?_
  by_cases hd : path ∈ d.touched
  · rw [get?_apply_of_not_mem (h hd)]
    exact get?_apply_of_mem hd s (d'.apply s)
  · rw [get?_apply_of_not_mem hd]
    exact get?_apply_congr (get?_apply_of_not_mem hd s)

/-! ## What leads from one schema to another -/

/-- The paths at which two schemas differ are those that the edit between them touches. -/
theorem mem_touched_between :
    path ∈ (between original edited).touched ↔ edited.entry path ≠ original.entry path := by
  rw [mem_touched_iff]
  simp only [get?_apply]
  constructor
  · intro h hentry
    have hboth := h .empty (Keyed.empty.insert path ⟨path, none⟩)
    simp [hentry] at hboth
  · intro h s t
    rw [if_neg h, if_neg h]

/-- Nothing leads from a schema to another exactly if they have the same paths and types. -/
theorem isEmpty_between :
    (between original edited).isEmpty = true ↔
      ∀ path, edited.entry path = original.entry path := by
  simp [isEmpty_iff_touched, mem_touched_between]

/-- At a touched path stands what the edited schema has there. -/
theorem get?_apply_between (h : path ∈ (between original edited).touched) (s : Schema) :
    ((between original edited).apply s).get? path = edited.get? path := by
  rw [get?_apply, if_neg (mem_touched_between.1 h)]

/-- Fields that are named by their paths stay so through an edit that names its fields so. -/
theorem namedByLeaf_apply (hs : s.NamedByLeaf) (he : edited.NamedByLeaf) :
    ((between original edited).apply s).NamedByLeaf := by
  intro path f hf
  rw [get?_apply] at hf
  split at hf
  · exact hs path f hf
  · exact he path f hf

/-- What leads from one schema to another, applied to the former, gives a schema that is the same
as the latter, and it is empty exactly if the two have the same paths and types.  Two edits of a
schema that touch no path in common take any schema to one schema in either order: the paths that
an edit touches are there as its edited schema has them, and all others as they were. -/
theorem between_lawful (ho : original.NamedByLeaf) (he : edited.NamedByLeaf)
    (edited' latest : Schema) :
    ((between original edited).apply original).same edited = true ∧
    ((between original edited).isEmpty = true ↔
      ∀ path, edited.entry path = original.entry path) ∧
    ((between original edited).touched.Disjoint (between original edited').touched →
      ∃ merged : Schema,
        (between original edited').apply ((between original edited).apply latest) = merged ∧
        (between original edited).apply ((between original edited').apply latest) = merged ∧
        ∀ path, merged.get? path =
          if path ∈ (between original edited).touched then edited.get? path
          else if path ∈ (between original edited').touched then edited'.get? path
          else latest.get? path) := by
  refine ⟨(Schema.same_iff_entry (namedByLeaf_apply ho he) he).2 (entry_apply_self original edited),
    isEmpty_between, fun hdisjoint => ⟨_, apply_comm hdisjoint latest, rfl, fun path => ?_⟩⟩
  split
  · rename_i h
    exact get?_apply_between h _
  · rename_i h
    rw [get?_apply_of_not_mem h]
    split
    · rename_i h'
      exact get?_apply_between h' latest
    · rename_i h'
      exact get?_apply_of_not_mem h' latest

section Sample
open Layout (boxClass sampleClass)

/-- A sample with a label, a rank and tags. -/
def rankedSchema : Schema :=
  .ofTypes [("", some (.document sampleClass)), ("label", some (.scalar .string)),
    ("rank", some (.scalar .int)), ("tags", some (.list (.scalar .string)))]

/-- The label takes any value, a score comes in and the tags are gone. -/
def scoredSchema : Schema :=
  .ofTypes [("", some (.document sampleClass)), ("label", some (.scalar .any)),
    ("rank", some (.scalar .int)), ("score", some (.scalar .float))]

/-- Boxes come in and the rank is gone. -/
def boxedSchema : Schema :=
  .ofTypes [("", some (.document sampleClass)), ("boxes", some (.list (.document boxClass))),
    ("boxes.corner", some (.scalar .float)), ("label", some (.scalar .string)),
    ("tags", some (.list (.scalar .string)))]

/-- The label and the score have other types, the tags are already gone and a note is there. -/
def notedSchema : Schema :=
  .ofTypes [("", some (.document sampleClass)), ("label", some (.scalar .int)), ("note", none),
    ("rank", some (.scalar .int)), ("score", some (.scalar .bool))]

theorem between_lawful_ranked :
    rankedSchema.NamedByLeaf ∧ scoredSchema.NamedByLeaf ∧
    (between rankedSchema scoredSchema).touched.Disjoint
      (between rankedSchema boxedSchema).touched ∧
    ((between rankedSchema scoredSchema).apply rankedSchema).same scoredSchema = true ∧
    ¬ (∀ path, scoredSchema.entry path = rankedSchema.entry path) ∧
    ∃ merged : Schema,
      (between rankedSchema boxedSchema).apply
        ((between rankedSchema scoredSchema).apply notedSchema) = merged ∧
      (between rankedSchema scoredSchema).apply
        ((between rankedSchema boxedSchema).apply notedSchema) = merged ∧
      merged.get? "label" = scoredSchema.get? "label" ∧ merged.get? "rank" = none ∧
      merged.get? "boxes" = boxedSchema.get? "boxes" ∧
      merged.get? "note" = notedSchema.get? "note" := by
  have hranked : rankedSchema.NamedByLeaf := Schema.namedByLeaf_ofTypes _
  have hscored : scoredSchema.NamedByLeaf := Schema.namedByLeaf_ofTypes _
  have hdisjoint : (between rankedSchema scoredSchema).touched.Disjoint
      (between rankedSchema boxedSchema).touched := by
    rw [List.disjoint_left]
    decide +kernel
  obtain ⟨hsame, hempty, hmerged⟩ := between_lawful hranked hscored boxedSchema notedSchema
  obtain ⟨merged, hfirst, hsecond, hget⟩ := hmerged hdisjoint
  refine ⟨hranked, hscored, hdisjoint, hsame, hempty.not.1 (by decide +kernel), merged, hfirst,
    hsecond, ?_, ?_, ?_, ?_⟩
  · rw [hget, if_pos (by decide +kernel)]
  · rw [hget, if_neg (by decide +kernel), if_pos (by decide +kernel)]
    rfl
  · rw [hget, if_neg (by decide +kernel), if_pos (by decide +kernel)]
  · rw [hget, if_neg (by decide +kernel), if_neg (by decide +kernel)]

end Sample

end Delta
end SchemaKeeper
