import SchemaKeeper.Proofs.Container.Live

/-!
# Two checks of one value

`Value.fits` decides by recursion on the type whether a value is an instance of it.  A record, a
list or a dict decides container by container, and each container asks the schema again with its
path and its level.  The two agree on every value, and what is taken up is the value.
-/
namespace SchemaKeeper

/-- How a check of a value for the field at a path ends: it succeeds exactly if a type is declared
there that passes, and then the plain value of what is held is the value. -/
structure Checks (s : Schema) (path : String) (v : Value) (passes : FieldType → Prop)
    (r : Except Refusal Held) : Prop where
  held_iff : (∃ h, r = .ok h) ↔ ∃ t, s.typeAt path = .ok t ∧ passes t
  plain : ∀ h, r = .ok h → h.plain = v

namespace Held
variable {s : Schema} {path : String} {level : Nat} {D t : FieldType} {v : Value} {h : Held}

/-- What is held of a value has it as its plain value. -/
theorem plain_of_hold (hv : v.isAscending = true) (hh : SchemaKeeper.hold path level t v = .ok h) :
    h.plain = v := by
  obtain ⟨h', hh', hplain⟩ := hold_plain v path level (fits_of_hold v hh) hv
  rw [hh] at hh'
  exact Except.ok.inj hh' ▸ hplain

theorem Sits.isList_iff (hs : Sits path level t h) :
    t.isList = true ↔ ∃ b items, h = .list b items := by
  cases t <;> cases h <;> simp_all [Sits, Shape.isList]

theorem Sits.isDict_iff (hs : Sits path level t h) :
    t.isDict = true ↔ ∃ b entries, h = .dict b entries := by
  cases t <;> cases h <;> simp_all [Sits, Shape.isDict]

/-! ## Containers ask again -/

/-- A container asks every value for the declared type without the layers down to it. -/
theorem binding_hold_eq (hD : s.typeAt path = .ok D) : Binding.hold ⟨path, level⟩ s =
    refuseNull path (SchemaKeeper.hold path (level + 1) (Shape.element^[level + 1] D)) := by
  funext v
  rw [Binding.hold, typeIn_eq hD, refuseNull, ok_bind]

/-- A list is held as its own container takes its items, which asks the schema again for each. -/
theorem hold_list_eq (hD : s.typeAt path = .ok D) (ht : Shape.element^[level] D = .list t)
    (items : List Value) : SchemaKeeper.hold path level (.list t) (.list items) =
      (holdItems (Binding.hold ⟨path, level⟩ s) items).map (.list ⟨path, level⟩) := by
  rw [binding_hold_eq hD, Function.iterate_succ_apply', ht]
  rfl

/-- A dict is held as its own container takes its entries, which asks the schema again for each. -/
theorem hold_dict_eq (hD : s.typeAt path = .ok D) (ht : Shape.element^[level] D = .dict t)
    (entries : List (String × Value)) : SchemaKeeper.hold path level (.dict t) (.dict entries) =
      (holdEntries (Binding.hold ⟨path, level⟩ s) entries).map fun hs =>
        .dict ⟨path, level⟩ (Entries.ofList hs) := by
  rw [binding_hold_eq hD, Function.iterate_succ_apply', ht]
  rfl

/-! ## The checks -/

theorem holdField_checks (hv : v.isAscending = true) :
    Checks s path v (fun t => v.fits t = true) (holdField s path v) where
  held_iff := by
    constructor
    · rintro ⟨h, hh⟩
      obtain ⟨t, ht, hh⟩ := holdField_eq_ok_iff.1 hh
      exact ⟨t, ht, fits_of_hold v hh⟩
    · rintro ⟨t, ht, hfits⟩
      obtain ⟨h, hh⟩ : ∃ h, SchemaKeeper.hold path 0 t v = .ok h := (hold_ok_iff t).2 hfits
      exact ⟨h, holdField_eq_ok_iff.2 ⟨t, ht, hh⟩⟩
  plain h hh := by
    obtain ⟨t, -, hh⟩ := holdField_eq_ok_iff.1 hh
    exact plain_of_hold hv hh

/-- A value that enters a container is checked against what is left of the declared type. -/
theorem binding_hold_checks (hv : v.isAscending = true) (level : Nat) :
    Checks s path v (fun t => v.fits (Shape.element^[level + 1] t) = true)
      (Binding.hold ⟨path, level⟩ s v) where
  held_iff := binding_hold_iff
  plain h hh := by
    obtain ⟨t, -, hh⟩ := Binding.hold_eq_ok_iff.1 hh
    exact plain_of_hold hv hh

/-- A container of one kind is made of a value where the declared type is of this kind. -/
theorem kind_checks {kind : FieldType → Bool} {IsKind : Held → Prop} {r : Except Refusal Held}
    (hv : v.isAscending = true) (hr : ∀ h, r = .ok h ↔ holdField s path v = .ok h ∧ IsKind h)
    (hkind : ∀ {t h}, Sits path 0 t h → (kind t = true ↔ IsKind h)) :
    Checks s path v (fun t => kind t = true ∧ v.fits t = true) r where
  held_iff := by
    constructor
    · rintro ⟨h, hh⟩
      obtain ⟨hh, hk⟩ := (hr h).1 hh
      obtain ⟨t, ht, hh⟩ := holdField_eq_ok_iff.1 hh
      exact ⟨t, ht, (hkind (sits_of_hold t hh)).2 hk, fits_of_hold v hh⟩
    · rintro ⟨t, ht, hk, hfits⟩
      obtain ⟨h, hh⟩ : ∃ h, SchemaKeeper.hold path 0 t v = .ok h := (hold_ok_iff t).2 hfits
      exact ⟨h, (hr h).2 ⟨holdField_eq_ok_iff.2 ⟨t, ht, hh⟩, (hkind (sits_of_hold t hh)).1 hk⟩⟩
  plain h hh := (holdField_checks hv).plain h ((hr h).1 hh).1

end Held

/-! ## Agreement -/

/-- The containers for the field at a path check what enters them against the live schema, each
value on its own. -/
structure AsksAgain (s : Schema) (path : String) : Prop where
  list : ∀ {D t : FieldType} {level : Nat} (items : List Value), s.typeAt path = .ok D →
    Shape.element^[level] D = .list t → hold path level (.list t) (.list items) =
      (holdItems (Binding.hold ⟨path, level⟩ s) items).map (.list ⟨path, level⟩)
  dict : ∀ {D t : FieldType} {level : Nat} (entries : List (String × Value)),
    s.typeAt path = .ok D → Shape.element^[level] D = .dict t →
      hold path level (.dict t) (.dict entries) =
        (holdEntries (Binding.hold ⟨path, level⟩ s) entries).map fun hs =>
          .dict ⟨path, level⟩ (Entries.ofList hs)

/-- Wherever a value enters at a path, the instances are taken up, unchanged, and nothing else. -/
structure TakesInstances (s : Schema) (path : String) (v : Value) : Prop where
  /-- The value of a field must be an instance of the declared type. -/
  field : Checks s path v (fun t => v.fits t = true) (holdField s path v)
  /-- What enters a container must be one of the type that is left below its layers. -/
  entering : ∀ level, Checks s path v (fun t => v.fits (Shape.element^[level + 1] t) = true)
    (Binding.hold ⟨path, level⟩ s v)
  /-- A record takes it for a top-level field. -/
  record : ∀ r : Record, (∃ r', r.set s path v = .ok r') ↔
    Record.isTopLevel path = true ∧ ∃ t, s.typeAt path = .ok t ∧ v.fits t = true
  /-- Its other fields stay. -/
  recorded : ∀ r r' : Record, r.set s path v = .ok r' →
    r'.id = r.id ∧ r'.root = r.root ∧ r'.values = r.values.insert path v
  /-- A list is made where the declared type is one of lists. -/
  list : ∀ (d : Dataset) (items : List Value), d.live = s → v = .list items →
    Checks s path v (fun t => t.isList = true ∧ v.fits t = true) (d.list path items)
  /-- A dict is made where the declared type is one of dicts. -/
  dict : ∀ (d : Dataset) (entries : List (String × Value)), d.live = s →
    v = .dict (Entries.ofList entries) →
      Checks s path v (fun t => t.isDict = true ∧ v.fits t = true) (d.dict path entries)

/-- The two checks of a value agree for every schema and path.  Of the values whose entries are in
order, as a dict keeps them, a field takes exactly the instances of its type, at every depth, and
alters none.  A list or a dict for a path is made only where the type is one of lists or dicts. -/
theorem takes_instances (s : Schema) (path : String) :
    AsksAgain s path ∧ ∀ v : Value, v.isAscending = true → TakesInstances s path v := by
  refine ⟨⟨fun items hD ht => Held.hold_list_eq hD ht items,
    fun entries hD ht => Held.hold_dict_eq hD ht entries⟩, fun v hv => ?_⟩
  have hfield : Checks s path v _ _ := Held.holdField_checks hv
  refine ⟨hfield, Held.binding_hold_checks hv, fun r => ?_, fun r r' hset => ?_, ?_, ?_⟩
  · rw [← hfield.held_iff]
    constructor
    · rintro ⟨r', hset⟩
      obtain ⟨htop, t, h, ht, hh, -⟩ := Record.set_ok hset
      exact ⟨htop, h, holdField_eq_ok_iff.2 ⟨t, Schema.typeAt_eq_ok_iff.2 ht, hh⟩⟩
    · rintro ⟨htop, h, hh⟩
      obtain ⟨t, ht, hh⟩ := holdField_eq_ok_iff.1 hh
      exact ⟨_, Record.set_of_hold htop (Schema.typeAt_eq_ok_iff.1 ht) hh⟩
  · obtain ⟨-, t, h, -, hh, rfl⟩ := Record.set_ok hset
    exact ⟨rfl, rfl, by rw [Record.values_insert, Held.plain_of_hold hv hh]⟩
  · rintro d items rfl rfl
    exact Held.kind_checks hv (fun _ => Dataset.list_eq_ok_iff) Held.Sits.isList_iff
  · rintro d entries rfl rfl
    exact Held.kind_checks hv (fun _ => Dataset.dict_eq_ok_iff) Held.Sits.isDict_iff

section Sample

/-- A grid of integers and notes of any kind. -/
def sampleSheet : Dataset where
  connection := World.sampleConnection
  standing := .detached
  live := .ofTypes [("grid", some (.list (.list (.scalar .int)))), ("notes", some (.scalar .any))]

/-- A row of the grid enters it and an integer does not; a list is taken up for the notes. -/
theorem takes_instances_sample :
    (∃ h, Binding.hold ⟨"grid", 0⟩ sampleSheet.live (.list [.int 1]) = .ok h) ∧
      (¬ ∃ h, Binding.hold ⟨"grid", 0⟩ sampleSheet.live (.int 1) = .ok h) ∧
      ∃ h, holdField sampleSheet.live "notes" (.list [.int 1]) = .ok h := by
  refine ⟨?_, ?_, ?_⟩
  · exact ((takes_instances sampleSheet.live "grid").2 (.list [.int 1]) rfl).entering 0
      |>.held_iff.2 ⟨_, rfl, rfl⟩
  · rintro hh
    obtain ⟨t, ht, hfits⟩ := ((takes_instances sampleSheet.live "grid").2 (.int 1) rfl).entering 0
      |>.held_iff.1 hh
    cases ht
    cases hfits
  · exact ((takes_instances sampleSheet.live "notes").2 (.list [.int 1]) rfl).field.held_iff.2
      ⟨_, rfl, rfl⟩

/-- A list of which the declared type has every list as an instance is not made, since that type is
not one of lists. -/
theorem list_refuses_instance :
    sampleSheet.live.typeAt "notes" = .ok (.scalar .any) ∧
      (Value.list [.int 1]).fits (.scalar .any) = true ∧
      sampleSheet.list "notes" [.int 1] = .error (.mismatch "notes" "list" "list") :=
  ⟨rfl, rfl, rfl⟩

end Sample

end SchemaKeeper
