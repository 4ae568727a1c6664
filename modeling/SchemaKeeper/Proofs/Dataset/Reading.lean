import SchemaKeeper.Proofs.Dataset.Effect

/-!
# What is read back

What the catalog has of a dataset is read back as its client holds it.  The schema is the same
wherever the root is a document; the definition and the validators are the same wherever the
tuples of the schema can be counted in a word, since no longer ones are read from a validator.
-/
namespace SchemaKeeper

open Catalog Op Provision

namespace Layout
variable {s : Schema} {v : Validators} {r : Registry} {ds : List FieldDefinition}
  {catalog : Catalog}

theorem Speaks.isTitled {c : Collections} {name : String} {rule : Rule}
    (h : Speaks s c name rule) : rule.IsTitled := by
  obtain ⟨path, k, ps, -, -, hrule⟩ := h.titled
  refine ⟨⟨k.name, ps, hrule⟩, h.ordered, fun e he => ?_⟩
  obtain ⟨p, t, -, -, ht⟩ := h.property e.1 e.2 (Entries.get?_of_mem h.ordered he)
  exact ⟨_, ht⟩

/-- The rule that can be read from the validator of a collection. -/
def ruleAt (catalog : Catalog) (name : String) : Option Rule := do
  let state ← catalog.collections.get? name
  let document ← state.validator
  Rule.ofDocument? document

theorem get?_loadedValidators {c : Collections} {name : String} {rule : Rule} :
    (loadedValidators catalog c).get? name = some rule ↔
      name ∈ c.values ∧ ruleAt catalog name = some rule := by
  have hpairs : ∀ p : String × Rule, (p ∈ c.values.filterMap fun name => do
        let state ← catalog.collections.get? name
        let document ← state.validator
        let rule ← Rule.ofDocument? document
        return (name, rule)) ↔ p.1 ∈ c.values ∧ ruleAt catalog p.1 = some p.2 := by
    rintro ⟨q, x⟩
    simp only [List.mem_filterMap, ruleAt, Option.bind_eq_bind, Option.bind_eq_some_iff,
      Option.pure_def, Option.some.injEq, Prod.mk.injEq]
    constructor
    · rintro ⟨n, hn, state, hstate, document, hdocument, rule, hrule, rfl, rfl⟩
      exact ⟨hn, state, hstate, document, hdocument, hrule⟩
    · rintro ⟨hn, state, hstate, document, hdocument, hrule⟩
      exact ⟨q, hn, state, hstate, document, hdocument, x, hrule, rfl, rfl⟩
  refine (Keyed.get?_ofList_iff fun a ha b hb hab => ?_).trans (hpairs (name, rule))
  have hb' := ((hpairs b).1 hb).2
  rw [← hab, ((hpairs a).1 ha).2] at hb'
  injection hb'

theorem ruleAt_of_installs (hi : catalog.Installs v) {name : String} {rule : Rule}
    (h : v.get? name = some rule) : ruleAt catalog name = Rule.ofDocument? rule.document := by
  obtain ⟨state, hstate, hdocument⟩ := hi name rule h
  simp [ruleAt, hstate, hdocument]

/-- The validators that are read where those of a schema are installed are among these. -/
theorem get?_loaded {c : Collections} (hv : validators c s = .ok v) (hi : catalog.Installs v)
    {name : String} {rule : Rule} (hrule : (loadedValidators catalog c).get? name = some rule) :
    v.get? name = some rule := by
  obtain ⟨hname, hrule⟩ := get?_loadedValidators.1 hrule
  obtain ⟨installed, hinstalled⟩ := exists_validator hv hname
  rw [ruleAt_of_installs hi hinstalled] at hrule
  rw [(validators_speak hv name installed hinstalled).isTitled.eq_of_ofDocument? hrule]
  exact hinstalled

/-- A schema that was laid out is read from its definitions alone, whichever of the validators that
were made for it are at hand. -/
theorem schema_of_among {k : DocClass} {v' : Validators} (hd : Describes ds s)
    (hapart : (FieldDefinition.collections ds).Apart) (hroot : s.typeAt "" = .ok (.document k))
    (hv : validators (FieldDefinition.collections ds) s = .ok v)
    (hamong : ∀ name rule, v'.get? name = some rule → v.get? name = some rule) :
    schema ds v' r = schema ds .empty r :=
  schema_of_speak hd hapart hroot fun name rule hrule =>
    validators_speak hv name rule (hamong name rule hrule)

/-- A schema that was laid out is read back from the store as from the validators that were made
for it. -/
theorem schema_loaded {k : DocClass} (hd : Describes ds s)
    (hapart : (FieldDefinition.collections ds).Apart) (hroot : s.typeAt "" = .ok (.document k))
    (hv : validators (FieldDefinition.collections ds) s = .ok v) (hi : catalog.Installs v) :
    schema ds (loadedValidators catalog (FieldDefinition.collections ds)) r = schema ds v r := by
  rw [schema_of_among hd hapart hroot hv fun _ _ => get?_loaded hv hi,
    schema_of_among hd hapart hroot hv fun _ _ h => h]

/-- The properties of a validator are rules of types whose tuples can be counted in a word, if the
schema that it speaks of has no other types. -/
theorem Speaks.counted {c : Collections} {name : String} {rule : Rule} (h : Speaks s c name rule)
    (hd : Describes ds s) (hcounted : ∀ f ∈ ds, f.type.isCounted = true) :
    ∀ e ∈ rule.properties, ∃ t : Descriptor, t.isCounted = true ∧ e.2 = Rule.ofDescriptor t := by
  intro e he
  obtain ⟨path, t, -, ht, hrule⟩ := h.property e.1 e.2 (Entries.get?_of_mem h.ordered he)
  obtain ⟨f, hf, -⟩ := Schema.typeAt_eq_ok.1 ht
  obtain ⟨d, hmem, hpath⟩ := hd.complete path f hf
  obtain ⟨t', ht', htype, -⟩ := hd.sound d hmem
  rw [hpath, ht] at ht'
  injection ht' with ht'
  exact ⟨t.descriptor, by rw [ht', ← htype]; exact hcounted d hmem, hrule⟩

/-- The validators that are read where those of a schema are installed are these, if each of them is
read from its document. -/
theorem loaded_eq {c : Collections} (hv : validators c s = .ok v) (hi : catalog.Installs v)
    (hread : ∀ name rule, v.get? name = some rule → Rule.ofDocument? rule.document = some rule) :
    loadedValidators catalog c = v := by
  refine Keyed.ext_get? fun name => ?_
  cases hrule : v.get? name with
  | none =>
    cases hloaded : (loadedValidators catalog c).get? name with
    | none => rfl
    | some rule =>
      have hin := get?_loaded hv hi hloaded
      rw [hrule] at hin
      cases hin
  | some rule =>
    obtain ⟨path, k, ps, hpath, -⟩ := (validators_speak hv name rule hrule).titled
    refine get?_loadedValidators.2 ⟨Keyed.mem_values.2 ⟨path, hpath⟩, ?_⟩
    exact (ruleAt_of_installs hi hrule).trans (hread name rule hrule)

end Layout

/-- Names that were made for the paths of one dataset keep these apart. -/
theorem Supply.Fits.apart {s : Supply} {l : Ledger} {definitions : String} {c : Collections}
    {id : Uuid} (h : s.Fits definitions)
    (hc : ∀ path name, c.get? path = some name → l.Ascribes s.ids s.drawn name id path) :
    c.Apart := fun p q name hp hq => (h.ascribes_unique (hc p name hp) (hc q name hq)).2

/-- The definition has a document with a collection at its root. -/
def Definition.IsRooted (d : Definition) : Prop :=
  ∃ f ∈ d.fields, f.path = "" ∧ (∃ name, f.type = .document name) ∧ f.collection ≠ none

namespace Dataset
variable {guarded : Prop} {c : Connection} {l : Ledger} {s : Supply} {catalog : Catalog}
  {d : Dataset} {held : Holding}

/-- A stored definition is read with the validators that are there. -/
theorem readFrom_stored {definition : Definition} (hk : catalog.Keeps) (hw : definition.Writable)
    (hd : catalog.documentAt c.definitions definition.key = some definition.document) :
    readFrom c (.byId definition.id) catalog = ofDefinition c catalog definition := by
  unfold readFrom
  rw [show DatasetKey.field (.byId definition.id) = "_id" from rfl, findOne_id hk,
    show DatasetKey.text (.byId definition.id) = definition.key from rfl, hd]
  simp only
  rw [Definition.ofDocument_document hw, ok_bind]

/-- A schema that a definition with a root describes has a document at its root. -/
theorem root_of_isRooted {definition : Definition} (hr : definition.IsRooted) {schema : Schema}
    (hd : Layout.Describes definition.fields schema) :
    ∃ k, schema.typeAt "" = .ok (.document k) := by
  obtain ⟨f, hf, hp, ⟨name, hname⟩, -⟩ := hr
  obtain ⟨t, htype, hdescriptor, -⟩ := hd.sound f hf
  rw [hp] at htype
  rw [hname] at hdescriptor
  cases t <;> simp_all [FieldType.descriptor, Shape.map]

/-- A schema that a guarded definition describes has a document at its root. -/
theorem root_of_describes {definition : Definition} (ht : definition.Traced guarded l s)
    (hg : guarded) {schema : Schema} (hd : Layout.Describes definition.fields schema) :
    ∃ k, schema.typeAt "" = .ok (.document k) := root_of_isRooted (ht.root hg) hd

/-- The live schema of a dataset that the catalog has is read from it. -/
theorem Persists.read_live (h : Persists catalog d held) (hk : catalog.Keeps)
    (ht : held.definition.Traced guarded l s) (hg : guarded) (hf : s.Fits d.connection.definitions) :
    (readFrom d.connection (.byId held.definition.id) catalog).map Dataset.live = .ok d.live := by
  obtain ⟨schema, hdescribes, hvalidators⟩ := h.described
  obtain ⟨k, hroot⟩ := root_of_describes ht hg hdescribes
  rw [readFrom_stored hk ht.writable h.document]
  have hloaded := Layout.schema_loaded (r := d.connection.classes) hdescribes
    (hf.apart ht.live) hroot hvalidators h.installed
  unfold ofDefinition
  show (Layout.schema _ (loadedValidators _ (FieldDefinition.collections _)) _ >>= _).map _ = _
  rw [hloaded, h.live]
  rfl

/-- A dataset that the catalog has is read just as its client holds it. -/
theorem Persists.read (h : Persists catalog d held) (hw : held.definition.Writable)
    (hcounted : ∀ f ∈ held.definition.fields, f.type.isCounted = true)
    (hclasses : c.classes = d.connection.classes) {key : DatasetKey}
    (hfound : catalog.findOne c.definitions key.field (.string key.text) =
      some held.definition.document) :
    readFrom c key catalog = .ok { d with connection := c } := by
  obtain ⟨schema, hdescribes, hvalidators⟩ := h.described
  have hspeak := Layout.validators_speak hvalidators
  have hloaded : loadedValidators catalog held.definition.collections = held.validators :=
    Layout.loaded_eq hvalidators h.installed fun name rule hrule =>
      (hspeak name rule hrule).isTitled.ofDocument?_document
        ((hspeak name rule hrule).counted hdescribes hcounted)
  unfold readFrom
  rw [hfound]
  simp only
  rw [Definition.ofDocument_document hw, ok_bind, ofDefinition, hloaded, hclasses, h.live, ok_bind,
    h.standing]
  rfl

end Dataset
end SchemaKeeper
