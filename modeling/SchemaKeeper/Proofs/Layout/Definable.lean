import SchemaKeeper.Proofs.Layout.RoundTrip

/-!
# Schemas that can be laid out

A schema can be laid out and read back if all of its fields have types and all classes that these
name, at any depth, are registered.  Conversely whatever is read back is such a schema.
-/
namespace SchemaKeeper

namespace Shape
variable {α : Type}

/-- What a shape ends in is one of its leaves. -/
theorem mem_leaves_of_nested? : ∀ {s : Shape α} {a : α}, s.nested? = some a → a ∈ s.leaves
  | .list s, _, h => mem_leaves_of_nested? (s := s) h
  | .dict s, _, h => mem_leaves_of_nested? (s := s) h
  | .document _, _, h => by
    injection h with h
    simp [leaves, h]

end Shape

namespace Schema
variable {r : Registry} {s s' : Schema}

/-- Every field of the schema has a type, and every class that a type names is registered. -/
def IsDefinable (r : Registry) (s : Schema) : Prop :=
  ∀ e ∈ s.entries, ∃ t ∈ e.2.type, ∀ name ∈ t.descriptor.leaves, r.contains name = true

instance : Decidable (s.IsDefinable r) :=
  inferInstanceAs (Decidable (∀ e ∈ s.entries, ∃ t ∈ e.2.type,
    ∀ name ∈ t.descriptor.leaves, r.contains name = true))

/-- Every class that a type ends in through lists and dicts is registered. -/
def EndsRegistered (r : Registry) (s : Schema) : Prop :=
  ∀ path t, s.typeAt path = .ok t → ∀ name ∈ t.descriptor.nested?, r.contains name = true

/-- What is declared at the paths decides whether the schema can be laid out. -/
theorem isDefinable_iff : s.IsDefinable r ↔ ∀ path e, s.entry path = some e →
    ∃ d ∈ e, ∀ name ∈ d.leaves, r.contains name = true := by
  constructor
  · intro h path e he
    obtain ⟨f, hf, rfl⟩ := Option.map_eq_some_iff.1 he
    obtain ⟨t, ht, hleaves⟩ := h (path, f) (Keyed.mem_entries_iff.2 hf)
    exact ⟨t.descriptor, Option.map_eq_some_iff.2 ⟨t, ht, rfl⟩, hleaves⟩
  · intro h e he
    have hentry : s.entry e.1 = some (e.2.type.map FieldType.descriptor) := by
      rw [entry, Keyed.mem_entries_iff.1 he]
      rfl
    obtain ⟨d, hd, hleaves⟩ := h e.1 _ hentry
    obtain ⟨t, ht, rfl⟩ := Option.map_eq_some_iff.1 hd
    exact ⟨t, ht, hleaves⟩

theorem isDefinable_congr (h : ∀ path, s.entry path = s'.entry path) :
    s.IsDefinable r ↔ s'.IsDefinable r := by
  rw [isDefinable_iff, isDefinable_iff]
  exact forall_congr' fun path => by rw [h path]

/-- The type of a field of a schema that can be laid out. -/
theorem IsDefinable.leaves (h : s.IsDefinable r) {path : String} {t : FieldType}
    (ht : s.typeAt path = .ok t) : ∀ name ∈ t.descriptor.leaves, r.contains name = true := by
  obtain ⟨f, hf, hft⟩ := typeAt_eq_ok.1 ht
  obtain ⟨t', ht', hleaves⟩ := h (path, f) (Keyed.mem_entries_iff.2 hf)
  rw [Option.mem_def, hft] at ht'
  injection ht' with ht'
  exact ht' ▸ hleaves

theorem IsDefinable.endsRegistered (h : s.IsDefinable r) : s.EndsRegistered r :=
  fun _ _ ht name hname => h.leaves ht name (Shape.mem_leaves_of_nested? hname)

end Schema

namespace Layout
variable {ds : List FieldDefinition} {s s' : Schema} {v : Validators} {r : Registry}

theorem exists_definitions (h : s.IsDefinable r) (ids : Nat → Uuid) (known : Collections)
    (drawn : Nat) : ∃ ds n, define ids known drawn s.entries = .ok (ds, n) :=
  exists_define (fun e he => by
    obtain ⟨t, ht, -⟩ := h e he
    exact ⟨t, ht⟩) drawn

/-- A schema that can be laid out is read back from definitions and validators. -/
theorem exists_schema (h : s.IsDefinable r) (hd : Describes ds s)
    (hapart : (FieldDefinition.collections ds).Apart) {k : DocClass}
    (hroot : s.typeAt "" = .ok (.document k)) (hv : Speak s (FieldDefinition.collections ds) v) :
    ∃ s', schema ds v r = .ok s' := by
  have htypes : ∀ d ∈ ds, ∃ t, d.type.fieldType d.path r = .ok t := by
    intro d hmem
    obtain ⟨t, ht, hdt, -⟩ := hd.sound d hmem
    exact Descriptor.exists_fieldType (hdt ▸ h.leaves ht)
  rw [schema_of_speak hd hapart hroot hv]
  exact exists_recoverFields htypes .empty

/-- What is read back can be laid out. -/
theorem isDefinable_schema (hr : r.Named) (hp : ds.Pairwise fun a b => a.path < b.path)
    (h : schema ds v r = .ok s) : s.IsDefinable r := by
  obtain ⟨hin, hout⟩ := recoverFields_get? h hp
  intro e he
  have hget := Keyed.mem_entries_iff.1 he
  by_cases hpath : ∃ d ∈ ds, d.path = e.1
  · obtain ⟨d, hmem, hd⟩ := hpath
    obtain ⟨found, t, -, ht, hfield⟩ := hin d hmem
    rw [hd, hget] at hfield
    injection hfield with hfield
    refine ⟨t, by rw [hfield]; rfl, ?_⟩
    rw [Descriptor.descriptor_of_fieldType hr ht]
    intro name hname
    obtain ⟨k, hk⟩ := (Shape.leaves_of_resolveWith ht).1 name hname
    exact Keyed.contains_iff.2 ⟨k, Registry.resolve_eq_ok.1 hk⟩
  · rw [hout e.1 fun d hmem hd => hpath ⟨d, hmem, hd⟩] at hget
    cases hget

end Layout
end SchemaKeeper
