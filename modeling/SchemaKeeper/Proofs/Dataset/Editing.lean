import SchemaKeeper.Proofs.Dataset.Edits

/-!
# What edits of a field do

An edit is told path by path.  A field that is added stands at its path.  Below it stand the fields
that its class unfolds into, unless its type was there before: then what stood below stays and only
the rest is filled in.  A field that is removed takes with it what stands below.  No other path
changes, so that adding a field where nothing was and removing it again leaves no trace.
-/
namespace SchemaKeeper

namespace Path
variable {base path q : String}

/-- What lies within a path lies within all bases of the path. -/
theorem isWithin_trans (hp : isWithin base path = true) (hq : isWithin path q = true) :
    isWithin base q = true := by
  by_cases hb : base = ""
  · simp [isWithin, hb]
  · have hbelow : isBelow base path = true := by simpa [isWithin, hb] using hp
    have hne : path ≠ "" := by
      rintro rfl
      simp at hbelow
    have hbelow' : isBelow path q = true := by simpa [isWithin, hne] using hq
    obtain ⟨rest, hrest⟩ := isBelow_iff.1 hbelow
    obtain ⟨rest', hrest'⟩ := isBelow_iff.1 hbelow'
    have hq : isBelow base q = true :=
      isBelow_iff.2 ⟨rest ++ '.' :: rest', by rw [hrest', hrest]; simp⟩
    simp [isWithin, hq]

/-- No path lies below itself. -/
theorem isBelow_self (path : String) : isBelow path path = false := by
  rw [Bool.eq_false_iff]
  intro h
  obtain ⟨rest, hrest⟩ := isBelow_iff.1 h
  have hlength := congrArg List.length hrest
  simp at hlength

end Path

/-! ## Where classes unfold to -/

namespace DocClass
variable {q : String}

mutual

/-- A class unfolds into paths within the base alone. -/
theorem get?_expandInto : ∀ (c : DocClass) {base : String} (s : Schema),
    Path.isWithin base q = false → (expandInto base c s).get? q = s.get? q
  | ⟨_, fields, _⟩, _, s, h => get?_expandFields fields s h

theorem get?_expandFields : ∀ (fields : List (String × Option FieldType)) {base : String}
    (s : Schema), Path.isWithin base q = false → (expandFields base fields s).get? q = s.get? q
  | [], _, _, _ => rfl
  | (name, type) :: rest, base, s, h => by
    have hbelow : Path.isWithin (Path.join base name) q = false := by
      rw [Bool.eq_false_iff] at h ⊢
      exact fun hq => h (Path.isWithin_trans (Path.isWithin_join base name) hq)
    have hne : Path.join base name ≠ q := by
      rintro rfl
      rw [Path.isWithin_join] at h
      cases h
    rw [expandFields, get?_expandFields rest _ h, Keyed.get?_insert, if_neg hne,
      get?_expandType type s hbelow]

theorem get?_expandType : ∀ (type : Option FieldType) {base : String} (s : Schema),
    Path.isWithin base q = false → (expandType base type s).get? q = s.get? q
  | none, _, _, _ => rfl
  | some t, _, s, h => get?_expandShape t s h

theorem get?_expandShape : ∀ (t : FieldType) {base : String} (s : Schema),
    Path.isWithin base q = false → (expandShape base t s).get? q = s.get? q
  | .list t, _, s, h => get?_expandShape t s h
  | .dict t, _, s, h => get?_expandShape t s h
  | .document c, _, s, h => get?_expandInto c s h
  | .scalar _, _, _, _ => rfl
  | .tuple _, _, _, _ => rfl

end

end DocClass

namespace Schema
variable {s : Schema} {path : String} {type : FieldType}

/-- The schema declares the type at the path. -/
def Declares (s : Schema) (path : String) (type : FieldType) : Prop :=
  ∃ t, s.typeAt path = .ok t ∧ t.same type = true

instance : Decidable (s.Declares path type) :=
  match h : s.typeAt path with
  | .ok t => decidable_of_iff (t.same type = true) (by simp [Declares, h])
  | .error _ => isFalse (by simp [Declares, h])

theorem sameType_iff_declares :
    Field.sameType (s.get? path >>= Field.type) (some type) = true ↔ s.Declares path type := by
  unfold Declares typeAt Field.requireType
  cases s.get? path with
  | none => simp [Field.sameType]
  | some f => cases hf : f.type <;> simp [Field.sameType, hf]

end Schema

namespace Dataset
variable {d d' : Dataset} {path q : String} {type : FieldType} {s : Schema}

theorem get?_unfolded (hp : path ≠ "") (hq : Path.isBelow path q = false) :
    (unfolded path type).get? q = none := by
  unfold unfolded
  cases type.nested? with
  | none => rfl
  | some c => exact DocClass.get?_expandInto c .empty (by simp [Path.isWithin, hp, hq])

/-! ## The schema after an edit -/

/-- What stands at a path of a schema once a field is added. -/
theorem get?_withField (hp : path ≠ "") (q : String) :
    (withField s path type).get? q =
      if q = path then some (.ofPath path (some type))
      else if Path.isBelow path q then
        if s.Declares path type ∧ s.contains q = true then s.get? q
        else (unfolded path type).get? q
      else s.get? q := by
  rw [withField, Keyed.get?_insert, Keyed.get?_union]
  by_cases hq : q = path
  · rw [if_pos hq.symm, if_pos hq]
  · rw [if_neg (Ne.symm hq), if_neg hq]
    by_cases hdeclares : s.Declares path type
    · -- The type stays: what is there answers before what the class unfolds into.
      rw [if_pos (Schema.sameType_iff_declares.2 hdeclares)]
      cases hs : s.get? q with
      | some f => simp [Keyed.contains, hs, hdeclares]
      | none =>
        cases hbelow : Path.isBelow path q with
        | true => simp [Keyed.contains, hs]
        | false => simp [get?_unfolded hp hbelow]
    · rw [if_neg (Schema.sameType_iff_declares.not.2 hdeclares), get?_prune]
      cases hbelow : Path.isBelow path q with
      | true => simp [hdeclares]
      | false => simp [get?_unfolded hp hbelow]

/-- What adding a field of a type at a path does. -/
structure AddsField (d : Dataset) (path : String) (type : FieldType) (d' : Dataset) : Prop
    extends d.Edits d' where
  /-- The field has the type. -/
  here : d'.live.get? path = some (.ofPath path (some type))
  /-- Below it stands what stood there, if the type did, and else what the class unfolds into. -/
  below : ∀ q, Path.isBelow path q = true → d'.live.get? q =
    if d.live.Declares path type ∧ d.live.contains q = true then d.live.get? q
    else (unfolded path type).get? q
  /-- Every other path is as it was. -/
  beside : ∀ q, q ≠ path → Path.isBelow path q = false → d'.live.get? q = d.live.get? q

/-- What removing the field at a path does: it takes the field away and every field below it. -/
structure RemovesField (d : Dataset) (path : String) (d' : Dataset) : Prop extends d.Edits d' where
  live : ∀ q, d'.live.get? q =
    if q = path ∨ Path.isBelow path q = true then none else d.live.get? q

theorem adds_of_addField (h : d.addField path type = .ok d') : d.AddsField path type d' := by
  have hedits := addField_edits h
  obtain ⟨⟨⟩, hedit, h⟩ := bind_eq_ok_iff.1 h
  obtain ⟨⟨⟩, -, h⟩ := bind_eq_ok_iff.1 h
  obtain ⟨⟨⟩, -, h⟩ := bind_eq_ok_iff.1 h
  injection h with h
  subst h
  have hp := checkEditable_ok hedit
  refine ⟨hedits, ?_, fun q hq => ?_, fun q hne hq => ?_⟩
  · rw [get?_withField hp, if_pos rfl]
  · have hne : q ≠ path := by
      rintro rfl
      rw [Path.isBelow_self] at hq
      cases hq
    rw [get?_withField hp, if_neg hne, if_pos hq]
  · rw [get?_withField hp, if_neg hne, hq]
    rfl

/-- Whether a dataset can be edited does not hang on earlier edits. -/
theorem checkEditable_edited (h : d'.standing = d.standing.edited) (path : String) :
    d'.checkEditable path = d.checkEditable path := by
  unfold checkEditable
  rw [h]
  cases d.standing <;> rfl

theorem removeField_ok_iff : (∃ d', d.removeField path = .ok d') ↔
    d.checkEditable path = .ok () ∧ d.live.contains path = true := by
  unfold removeField
  cases d.checkEditable path with
  | error e => simp
  | ok u => cases d.live.contains path <;> simp

theorem removes_of_removeField (h : d.removeField path = .ok d') : d.RemovesField path d' := by
  have hedits := removeField_edits h
  obtain ⟨⟨⟩, -, h⟩ := bind_eq_ok_iff.1 h
  split at h
  · cases h
  · injection h with h
    subst h
    refine ⟨hedits, fun q => ?_⟩
    show (prune path (d.live.erase path)).get? q = _
    rw [get?_prune, Keyed.get?_erase]
    by_cases hq : path = q
    · simp [hq]
    · cases Path.isBelow path q <;> simp [hq, Ne.symm hq]

/-- A field that was added can be removed again. -/
theorem exists_removeField (h : d.addField path type = .ok d') :
    ∃ d'', d'.removeField path = .ok d'' := by
  have hadds := adds_of_addField h
  obtain ⟨⟨⟩, hedit, -⟩ := bind_eq_ok_iff.1 h
  refine removeField_ok_iff.2 ⟨?_, Keyed.contains_iff.2 ⟨_, hadds.here⟩⟩
  rw [checkEditable_edited hadds.standing, hedit]

/-- Removing a field takes back what adding it put where nothing was. -/
theorem RemovesField.restores {d'' : Dataset} (hr : d'.RemovesField path d'')
    (ha : d.AddsField path type d') (hpath : d.live.get? path = none)
    (hbelow : ∀ q, Path.isBelow path q = true → d.live.get? q = none) : d''.live = d.live := by
  refine Keyed.ext_get? fun q => ?_
  rw [hr.live]
  split
  · rename_i hq
    rcases hq with rfl | hq
    · exact hpath.symm
    · exact (hbelow q hq).symm
  · rename_i hq
    obtain ⟨hne, hq⟩ := not_or.1 hq
    exact ha.beside q hne (Bool.not_eq_true _ ▸ hq)

/-- An edit that is granted does exactly this.  A field that is added has its type at its path; each
path below has the field that it had, if the type was there before and a field stood there, and else
the one that the class of the type unfolds into, if it does; every other path is as before.  A field
that is removed goes with every path below it, and all else stays.  So a field that is added where
nothing stood, at its path and below, can be removed again, and the schema is what it was. -/
theorem edits_exact (d : Dataset) (path : String) :
    (∀ type d', d.addField path type = .ok d' → d.AddsField path type d') ∧
      (∀ d', d.removeField path = .ok d' → d.RemovesField path d') ∧
      ∀ type d', d.addField path type = .ok d' → d.live.get? path = none →
        (∀ q, Path.isBelow path q = true → d.live.get? q = none) →
          ∃ d'', d'.removeField path = .ok d'' ∧ d''.live = d.live := by
  refine ⟨fun type d' => adds_of_addField, fun d' => removes_of_removeField, ?_⟩
  intro type d' hadd hpath hbelow
  obtain ⟨d'', hremove⟩ := exists_removeField hadd
  exact ⟨d'', hremove,
    (removes_of_removeField hremove).restores (adds_of_addField hadd) hpath hbelow⟩

section Sample
open Layout

/-- A dataset of samples with boxes, to which notes on the boxes were added; another field has a
name that starts like theirs. -/
def sampleDataset : Dataset where
  connection := .plain sampleRegistry .default
  standing := .detached
  live := sampleClass.rootSchema.union <|
    Schema.ofTypes [("boxes.note", some (.scalar .string)), ("boxesx", some (.scalar .int))]

/-- Another type for the boxes drops the notes, the same type keeps them, and a cover that is added
and removed leaves the schema as it was. -/
theorem edits_exact_sample : ∃ retyped again covered uncovered,
    sampleDataset.addField "boxes" (.document boxClass) = .ok retyped ∧
      retyped.live.get? "boxes.note" = none ∧
      retyped.live.get? "boxesx" = sampleDataset.live.get? "boxesx" ∧
      sampleDataset.addField "boxes" (.list (.document boxClass)) = .ok again ∧
      again.live.get? "boxes.note" = sampleDataset.live.get? "boxes.note" ∧
      sampleDataset.addField "cover" (.document boxClass) = .ok covered ∧
      covered.removeField "cover" = .ok uncovered ∧ uncovered.live = sampleDataset.live := by
  obtain ⟨retyped, hretyped⟩ : ∃ d', sampleDataset.addField "boxes" (.document boxClass) = .ok d' :=
    ⟨_, rfl⟩
  obtain ⟨again, hagain⟩ :
      ∃ d', sampleDataset.addField "boxes" (.list (.document boxClass)) = .ok d' := ⟨_, rfl⟩
  obtain ⟨covered, hcovered⟩ : ∃ d', sampleDataset.addField "cover" (.document boxClass) = .ok d' :=
    ⟨_, rfl⟩
  have hboxes := edits_exact sampleDataset "boxes"
  have hdrops := hboxes.1 _ _ hretyped
  have hkeeps := hboxes.1 _ _ hagain
  have hbelow : ∀ q, Path.isBelow "cover" q = true → sampleDataset.live.get? q = none := by
    have hnone : ∀ e ∈ sampleDataset.live.entries, Path.isBelow "cover" e.1 = false := by
      decide +kernel
    intro q hq
    cases h : sampleDataset.live.get? q with
    | none => rfl
    | some f =>
      rw [hnone _ (Keyed.mem_entries_iff.2 h)] at hq
      cases hq
  obtain ⟨uncovered, huncovered, hrestored⟩ :=
    (edits_exact sampleDataset "cover").2.2 _ _ hcovered (by decide +kernel) hbelow
  refine ⟨retyped, again, covered, uncovered, hretyped, ?_, ?_, hagain, ?_, hcovered, huncovered,
    hrestored⟩
  · rw [hdrops.below _ (by decide)]
    decide +kernel
  · exact hdrops.beside _ (by decide) (by decide)
  · rw [hkeeps.below _ (by decide), if_pos (by decide +kernel)]

end Sample

end Dataset
end SchemaKeeper
