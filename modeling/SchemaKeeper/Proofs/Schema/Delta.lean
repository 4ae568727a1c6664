import SchemaKeeper.Proofs.Layout.RoundTrip
import SchemaKeeper.Schema.Delta

/-!
# Replaying the edits of a schema

What an edit did, applied to another schema, sets every path that it touched to what it left
there, and leaves every other path as the other schema has it.
-/
namespace SchemaKeeper.Delta
variable {base edited seen : Schema} {path : String}

theorem get?_added : (between base edited).added.get? path =
    (edited.get? path).filter fun _ => isAdded base path :=
  Entries.get?_filter_entry (fun e => isAdded base e.1) edited.ordered path

theorem get?_changed : (between base edited).changed.get? path =
    (edited.get? path).filter fun f => isChanged base path f :=
  Entries.get?_filter_entry (fun e => isChanged base e.1 e.2) edited.ordered path

theorem mem_removed : path ∈ (between base edited).removed ↔
    base.contains path = true ∧ edited.contains path = false := by
  simp [between, Keyed.mem_keys, Keyed.contains_iff]

theorem get?_foldl_erase (paths : List String) (s : Schema) :
    (paths.foldl (fun s path => s.erase path) s).get? path =
      if path ∈ paths then none else s.get? path := by
  induction paths generalizing s with
  | nil => simp
  | cons p paths ih =>
    rw [List.foldl_cons, ih, Keyed.get?_erase]
    by_cases h : p = path
    · simp [h]
    · simp [h, Ne.symm h]

/-- What a delta leaves at a path: removed paths are gone, a changed field takes the place of an
added one, and an added one that of the field that was there. -/
theorem get?_applied (d : Delta) (s : Schema) (path : String) :
    (d.apply s).get? path =
      if path ∈ d.removed then none
      else (d.changed.get? path).or ((d.added.get? path).or (s.get? path)) := by
  rw [apply, get?_foldl_erase, Keyed.get?_union, Keyed.get?_union]

/-- What an applied edit leaves at a path: the edited field where the edit changed the entry, and
elsewhere the field of the other schema. -/
theorem get?_apply (base edited seen : Schema) (path : String) :
    ((between base edited).apply seen).get? path =
      if edited.entry path = base.entry path then seen.get? path else edited.get? path := by
  rw [get?_applied, get?_added, get?_changed]
  simp only [mem_removed]
  unfold Schema.entry isChanged isAdded Keyed.contains
  cases hb : base.get? path with
  | none => cases he : edited.get? path <;> simp
  | some f =>
    cases he : edited.get? path with
    | none => simp
    | some g =>
      by_cases h : Field.sameType f.type g.type = true
      · have hd := Field.sameType_iff.1 h
        simp [Option.filter_some, h, hd]
      · have hd := fun hd => h (Field.sameType_iff.2 hd)
        have hne : ¬ g.type.map FieldType.descriptor = f.type.map FieldType.descriptor :=
          fun hgf => hd hgf.symm
        simp [Option.filter_some, h, hne]

/-- A path that the edit did not touch is as the other schema has it, every other as the edit
left it. -/
theorem entry_apply (base edited seen : Schema) (path : String) :
    ((between base edited).apply seen).entry path =
      if edited.entry path = base.entry path then seen.entry path else edited.entry path := by
  rw [Schema.entry, get?_apply]
  split <;> rfl

/-- An edit applied to the schema that it was made on gives the paths and types that it left. -/
theorem entry_apply_self (base edited : Schema) (path : String) :
    ((between base edited).apply base).entry path = edited.entry path := by
  rw [entry_apply]
  split
  · rename_i h
    exact h.symm
  · rfl

/-- Where the edited schema still has the very field of the earlier one, the field of the other
schema stays. -/
theorem get?_apply_of_eq (h : edited.get? path = base.get? path) :
    ((between base edited).apply seen).get? path = seen.get? path := by
  have hentry : edited.entry path = base.entry path := by rw [Schema.entry, h, Schema.entry]
  rw [get?_apply, if_pos hentry]

/-- An edit after which every entry is as it was changes nothing. -/
theorem apply_of_entry (h : ∀ path, edited.entry path = base.entry path) :
    (between base edited).apply seen = seen :=
  Keyed.ext_get? fun path => by rw [get?_apply, if_pos (h path)]

end SchemaKeeper.Delta
