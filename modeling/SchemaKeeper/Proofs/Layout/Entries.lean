import SchemaKeeper.Proofs.Layout.RoundTrip

/-!
# What a layout depends on

A schema is laid out by its entries alone: by its paths and the descriptors of their types.  Two
schemas with the same entries are described by the same definitions and have the same validators,
and where all collections are known, the definitions that describe a schema are made for it again.
-/
namespace SchemaKeeper

namespace Ascending

/-- A list in strictly ascending order is determined by its items. -/
theorem eq_of_mem_iff {α : Type} (key : α → String) {as bs : List α}
    (ha : as.Pairwise fun a b => key a < key b) (hb : bs.Pairwise fun a b => key a < key b)
    (h : ∀ x, x ∈ as ↔ x ∈ bs) : as = bs := by
  have hne : ∀ {a b : α}, key a < key b → a ≠ b := by
    rintro a b hlt rfl
    exact String.lt_irrefl _ hlt
  have hperm : as.Perm bs := (List.perm_ext_iff_of_nodup (ha.imp hne) (hb.imp hne)).2 h
  exact hperm.eq_of_pairwise (fun a b _ _ hab hba => absurd hba (String.lt_asymm hab)) ha hb

end Ascending

namespace Schema
variable {s s' : Schema} {path : String}

/-- At the same entry stand types of the same descriptor. -/
theorem typeAt_of_entry (h : s'.entry path = s.entry path) {t : FieldType}
    (ht : s.typeAt path = .ok t) :
    ∃ t', s'.typeAt path = .ok t' ∧ t'.descriptor = t.descriptor := by
  obtain ⟨f, hf, hft⟩ := typeAt_eq_ok.1 ht
  have hentry : s'.entry path = some (some t.descriptor) := by rw [h, entry, hf]; simp [hft]
  obtain ⟨f', hf', hft'⟩ := Option.map_eq_some_iff.1 hentry
  obtain ⟨t', ht', hd⟩ := Option.map_eq_some_iff.1 hft'
  exact ⟨t', typeAt_eq_ok.2 ⟨f', hf', ht'⟩, hd⟩

end Schema

/-- Types of the same descriptor end in classes of the same name. -/
theorem FieldType.nested?_name_eq {t t' : FieldType} (h : t'.descriptor = t.descriptor) :
    t'.nested?.map DocClass.name = t.nested?.map DocClass.name := by
  have hnested := congrArg Shape.nested? h
  rwa [FieldType.descriptor, FieldType.descriptor, Shape.nested?_map, Shape.nested?_map] at hnested

namespace Layout
variable {s s' : Schema} {ds : List FieldDefinition} {c known known' : Collections}
  {v v' : Validators} {ids ids' : Nat → Uuid} {drawn drawn' n : Nat}

/-- Where the collections of all definitions are known, the same definitions are made again, and
no identifier is drawn. -/
theorem define_known {es : List (String × Field)} {ds : List FieldDefinition}
    (h : define ids known drawn es = .ok (ds, n))
    (hknown : ∀ d ∈ ds, ∀ name, d.collection = some name → known'.get? d.path = some name) :
    define ids' known' drawn' es = .ok (ds, drawn') := by
  induction es generalizing drawn ds with
  | nil =>
    cases h
    rfl
  | cons e rest ih =>
    obtain ⟨path, field⟩ := e
    rw [define_cons] at h ⊢
    obtain ⟨type, htype, h⟩ := bind_eq_ok_iff.1 h
    obtain ⟨⟨ds', n'⟩, hrest, h⟩ := bind_eq_ok_iff.1 h
    cases h
    obtain ⟨hhead, htail⟩ := List.forall_mem_cons.1 hknown
    have hallot : allot ids' known' drawn' path type =
        ((allot ids known drawn path type).1, drawn') := by
      unfold allot at hhead ⊢
      cases hn : type.nested? with
      | none => rfl
      | some c =>
        simp only [hn] at hhead ⊢
        cases hk : known.get? path <;>
          simp only [hk] at hhead ⊢ <;>
          rw [hhead _ rfl]
    rw [htype, ok_bind, hallot, ih hrest htail]
    rfl

/-- Definitions describe every schema that has the entries of one that they describe. -/
theorem Describes.congr (h : Describes ds s) (he : ∀ path, s'.entry path = s.entry path) :
    Describes ds s' := by
  refine ⟨h.ascending, fun d hd => ?_, fun path f hf => ?_⟩
  · obtain ⟨t, ht, hdt, hc⟩ := h.sound d hd
    obtain ⟨t', ht', hdescriptor⟩ := Schema.typeAt_of_entry (he d.path) ht
    have hnested := FieldType.nested?_name_eq hdescriptor
    refine ⟨t', ht', hdt.trans hdescriptor.symm, hc.trans ?_⟩
    rw [← Option.map_eq_none_iff (f := DocClass.name), ← hnested, Option.map_eq_none_iff]
  · have hentry := he path
    rw [Schema.entry, Schema.entry, hf] at hentry
    obtain ⟨f', hf', -⟩ := Option.map_eq_some_iff.1 hentry.symm
    exact h.complete path f' hf'

/-- Where the collections of definitions are known, they are made again for the schema that they
describe, and no identifier is drawn. -/
theorem Describes.define_eq (h : Describes ds s)
    (hknown : ∀ d ∈ ds, ∀ name, d.collection = some name → known.get? d.path = some name) :
    define ids known drawn s.entries = .ok (ds, drawn) := by
  have htyped : ∀ e ∈ s.entries, ∃ t, e.2.type = some t := by
    intro e he
    have hget := Keyed.mem_entries_iff.1 he
    obtain ⟨d, hd, hp⟩ := h.complete e.1 e.2 hget
    obtain ⟨t, ht, -⟩ := h.sound d hd
    obtain ⟨f, hf, hft⟩ := Schema.typeAt_eq_ok.1 ht
    rw [hp, hget] at hf
    injection hf with hf
    exact ⟨t, hf ▸ hft⟩
  obtain ⟨ds', n, hdefine⟩ : ∃ ds' n, define ids known drawn s.entries = .ok (ds', n) :=
    exists_define htyped drawn
  have h' := describes_of_define hdefine
  -- At each path stands one definition in either list, and both say the same.
  have hsame : ∀ d ∈ ds, ∀ d' ∈ ds', d.path = d'.path → d = d' := by
    intro d hd d' hd' hp
    obtain ⟨t, ht, hdt, hc⟩ := h.sound d hd
    obtain ⟨t', ht', hdt', hc'⟩ := h'.sound d' hd'
    rw [← hp, ht] at ht'
    injection ht' with ht'
    subst ht'
    have hcollection : d.collection = d'.collection := by
      cases hn : d.collection with
      | none => exact (hc'.2 (hc.1 hn)).symm
      | some name =>
        cases hn' : d'.collection with
        | none => rw [hc.2 (hc'.1 hn')] at hn; cases hn
        | some name' =>
          have hin := hknown d hd name hn
          rcases collection_of_define hdefine hd' hn' with hin' | hnone
          · rw [← hp, hin] at hin'
            exact hin'
          · rw [← hp, hin] at hnone
            cases hnone
    cases d
    cases d'
    simp only [FieldDefinition.mk.injEq]
    exact ⟨hp, hdt.trans hdt'.symm, hcollection⟩
  have hcover : ∀ {as bs : List FieldDefinition}, Describes as s → Describes bs s →
      ∀ d ∈ as, ∃ d' ∈ bs, d'.path = d.path := by
    intro as bs ha hb d hd
    obtain ⟨t, ht, -⟩ := ha.sound d hd
    obtain ⟨f, hf, -⟩ := Schema.typeAt_eq_ok.1 ht
    exact hb.complete d.path f hf
  have heq : ds' = ds := by
    refine Ascending.eq_of_mem_iff FieldDefinition.path h'.ascending h.ascending fun d =>
      ⟨fun hd => ?_, fun hd => ?_⟩
    · obtain ⟨d', hd', hp⟩ := hcover h' h d hd
      exact hsame d' hd' d hd hp ▸ hd'
    · obtain ⟨d', hd', hp⟩ := hcover h h' d hd
      exact hsame d hd d' hd' hp.symm ▸ hd'
  subst heq
  exact define_known hdefine hknown

/-- The collections that definitions name are known to them. -/
theorem Describes.define_collections (h : Describes ds s) :
    define ids (FieldDefinition.collections ds) drawn s.entries = .ok (ds, drawn) :=
  h.define_eq fun d hd _ hname => (collections_get?_iff h.ascending).2 ⟨d, hd, rfl, hname⟩

/-! ## Validators -/

/-- At the same entry stand classes of the same name. -/
theorem classAt_of_entry {path : String} (h : s'.entry path = s.entry path) {k : DocClass}
    (hk : classAt s path = .ok k) : ∃ k', classAt s' path = .ok k' ∧ k'.name = k.name := by
  obtain ⟨t, ht, hnest⟩ := classAt_eq_ok.1 hk
  obtain ⟨t', ht', hdescriptor⟩ := Schema.typeAt_of_entry h ht
  have hname := FieldType.nested?_name_eq hdescriptor
  rw [hnest] at hname
  obtain ⟨k', hk', hname⟩ := Option.map_eq_some_iff.1 hname
  exact ⟨k', classAt_eq_ok.2 ⟨t', ht', hk'⟩, hname⟩

theorem titles_of_entry (he : ∀ path, s'.entry path = s.entry path) {es : List (String × String)}
    (h : titles s es v = .ok v') : titles s' es v = .ok v' := by
  induction es generalizing v with
  | nil => exact h
  | cons e es ih =>
    obtain ⟨k, hk, h⟩ := bind_eq_ok_iff.1 h
    obtain ⟨k', hk', hname⟩ := classAt_of_entry (he e.1) hk
    rw [titles, hk', ok_bind, hname]
    exact ih h

/-- Fields are assigned by their paths and the descriptors of their types. -/
theorem assign_of_entries {es es' : List (String × Field)}
    (he : es'.map (fun e => (e.1, e.2.type.map FieldType.descriptor)) =
      es.map fun e => (e.1, e.2.type.map FieldType.descriptor))
    (h : assign c es v = .ok v') : assign c es' v = .ok v' := by
  induction es generalizing es' v with
  | nil =>
    rw [List.map_eq_nil_iff.1 he]
    exact h
  | cons e es ih =>
    obtain ⟨e', es', rfl, hhead, hrest⟩ := List.map_eq_cons_iff.1 he
    obtain ⟨hpath, htype⟩ := Prod.mk.inj hhead
    obtain ⟨path, field⟩ := e
    obtain ⟨path', field'⟩ := e'
    obtain rfl : path' = path := hpath
    rw [assign] at h ⊢
    split at h
    · exact ih hrest h
    · obtain ⟨t, ht, h⟩ := bind_eq_ok_iff.1 h
      have hdescriptor : field'.type.map FieldType.descriptor = some t.descriptor := by
        rw [show field'.type.map FieldType.descriptor = field.type.map FieldType.descriptor from
          htype, Field.requireType_eq_ok.1 ht]
        rfl
      obtain ⟨t', ht', hd⟩ := Option.map_eq_some_iff.1 hdescriptor
      rw [Field.requireType_eq_ok.2 ht', ok_bind]
      split at h
      · exact ih hrest h
      · rw [hd]
        exact ih hrest h

/-- The validators of a schema are those of every schema with the same entries. -/
theorem validators_of_entry (he : ∀ path, s'.entry path = s.entry path)
    (h : validators c s = .ok v) : validators c s' = .ok v := by
  obtain ⟨v₀, htitles, hassign⟩ := bind_eq_ok_iff.1 h
  have hsame : (s'.mapValues fun _ f => f.type.map FieldType.descriptor) =
      s.mapValues fun _ f => f.type.map FieldType.descriptor := by
    refine Keyed.ext_get? fun path => ?_
    have hentry := he path
    rw [Schema.entry, Schema.entry] at hentry
    simpa using hentry
  rw [validators, titles_of_entry he htitles, ok_bind]
  exact assign_of_entries (congrArg Keyed.entries hsame) hassign

end Layout
end SchemaKeeper
