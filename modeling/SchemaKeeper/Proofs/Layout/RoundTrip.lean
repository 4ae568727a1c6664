import SchemaKeeper.Proofs.Layout.Validators
import SchemaKeeper.Proofs.Schema.Types

/-!
# Reading a schema back

Validators that speak of the schema that the definitions describe never contradict them, so every
part of the validators gives the schema that the definitions give on their own, and this schema
has the paths and types of the one that was laid out.
-/
namespace SchemaKeeper

namespace Field

theorem sameType_iff {a b : Option FieldType} :
    sameType a b = true ↔ a.map FieldType.descriptor = b.map FieldType.descriptor := by
  cases a <;> cases b <;> simp [sameType, FieldType.same_iff]

end Field

namespace Schema

/-- What is declared at a path: nothing, a field without type, or a field with the descriptor of
its type. -/
def entry (s : Schema) (path : String) : Option (Option Descriptor) :=
  (s.get? path).map fun f => f.type.map FieldType.descriptor

theorem sameEntries_iff {a b : List (String × Field)} :
    sameEntries a b = true ↔
      a.map (fun e => (e.1, e.2.name, e.2.type.map FieldType.descriptor)) =
        b.map (fun e => (e.1, e.2.name, e.2.type.map FieldType.descriptor)) := by
  induction a generalizing b with
  | nil => cases b <;> simp [sameEntries]
  | cons e a ih =>
    cases b with
    | nil => simp [sameEntries]
    | cons e' b => simp [sameEntries, ih, Field.same, Field.sameType_iff, and_assoc]

/-- Schemas are the same if they have the same names and types at every path. -/
theorem same_iff {s t : Schema} : s.same t = true ↔
    ∀ path, (s.get? path).map (fun f => (f.name, f.type.map FieldType.descriptor)) =
      (t.get? path).map (fun f => (f.name, f.type.map FieldType.descriptor)) := by
  have hmap : ∀ u : Schema,
      (u.mapValues fun _ f => (f.name, f.type.map FieldType.descriptor)).entries =
        u.entries.map fun e => (e.1, e.2.name, e.2.type.map FieldType.descriptor) := fun _ => rfl
  unfold same
  rw [sameEntries_iff, ← hmap, ← hmap]
  constructor
  · intro h path
    have hg := congrArg (fun es => Entries.get? es path) h
    simpa [Keyed.get?, Keyed.mapValues, Entries.get?_mapValues] using hg
  · intro h
    refine congrArg Keyed.entries (Keyed.ext_get? fun path => ?_)
    simpa using h path

end Schema

namespace Layout
variable {ds : List FieldDefinition} {s : Schema} {c : Collections} {v : Validators}
  {r : Registry}

/-- Validators do not contradict a definition: they are silent about it or say its type. -/
def Agrees (c : Collections) (v : Validators) (d : FieldDefinition) : Prop :=
  asked c v d = .ok none ∨ asked c v d = .ok (some d.type)

/-- A definition whose path has a home is not contradicted by validators that speak of the
schema. -/
theorem agrees_of_home (hd : Describes ds s) (hapart : (FieldDefinition.collections ds).Apart)
    (hv : Speak s (FieldDefinition.collections ds) v) {d : FieldDefinition} (hmem : d ∈ ds)
    {name key : String} (hh : (FieldDefinition.collections ds).home? d.path = some (name, key)) :
    Agrees (FieldDefinition.collections ds) v d := by
  obtain ⟨t, ht, hdt, -⟩ := hd.sound d hmem
  unfold Agrees asked
  rw [hh]
  cases hr : v.get? name with
  | none => exact .inl (by simp [hr])
  | some rule =>
    cases hx : Entries.get? rule.properties key with
    | none => exact .inl (by simp [hr, hx])
    | some x =>
      -- The path that put the property there has the same home, so it is the path asked about.
      obtain ⟨p, t', hp, ht', hxt⟩ := (hv name rule hr).property key x hx
      have hpd : p = d.path := Collections.home?_injective hapart hp hh
      subst hpd
      rw [ht] at ht'
      injection ht' with ht'
      subst ht' hxt
      refine .inr ?_
      simp [hr, hx, Rule.descriptor_ofDescriptor, hdt, Except.map]

/-- A definition of the schema of which the validators speak is not contradicted. -/
theorem agrees_of_speak (hd : Describes ds s)
    (hapart : (FieldDefinition.collections ds).Apart) {k : DocClass}
    (hroot : s.typeAt "" = .ok (.document k)) (hv : Speak s (FieldDefinition.collections ds) v)
    {d : FieldDefinition} (hmem : d ∈ ds) : Agrees (FieldDefinition.collections ds) v d := by
  cases hh : (FieldDefinition.collections ds).home? d.path with
  | some home => exact agrees_of_home hd hapart hv hmem hh
  | none =>
    have hp : d.path = "" := by
      by_contra hne
      obtain ⟨name, key, h⟩ := Collections.exists_home? (hd.root_collection hroot) hne
      rw [hh] at h
      cases h
    obtain ⟨t, ht, hdt, -⟩ := hd.sound d hmem
    rw [hp, hroot] at ht
    injection ht with ht
    subst ht
    unfold Agrees asked
    rw [hh]
    cases hn : d.collection with
    | none => exact .inl rfl
    | some name =>
      cases hr : v.get? name with
      | none => exact .inl (by simp [hr])
      | some rule =>
        obtain ⟨p, k', ps, hp', hk', hrule⟩ := (hv name rule hr).titled
        have hpr : p = "" := hapart p "" name hp'
          ((collections_get?_iff hd.ascending).2 ⟨d, hmem, hp, hn⟩)
        subst hpr
        simp only [classAt, hroot, ok_bind, Shape.nested?, pure_eq_ok] at hk'
        injection hk' with hk'
        subst hk' hrule
        refine .inr ?_
        simp [hr, Rule.collection, hdt, FieldType.descriptor, Shape.map]

theorem asked_empty (c : Collections) (d : FieldDefinition) : asked c .empty d = .ok none := by
  unfold asked
  split
  · simp
  · cases d.collection <;> simp

/-- Without validators a definition speaks for itself. -/
theorem recoverFields_empty_cons (d : FieldDefinition) (ds : List FieldDefinition) (s : Schema) :
    (recoverFields c .empty r (d :: ds) s).2 = (do
      let t ← d.type.fieldType d.path r
      (recoverFields c .empty r ds (s.insert d.path (.ofPath d.path (some t)))).2) := by
  rw [recoverFields, asked_empty]
  simp only [Option.getD_none]
  cases d.type.fieldType d.path r <;> rfl

/-- Validators that contradict no definition change nothing about what the definitions say. -/
theorem recoverFields_of_agrees (h : ∀ d ∈ ds, Agrees c v d) (s : Schema) :
    (recoverFields c v r ds s).2 = (recoverFields c .empty r ds s).2 := by
  induction ds generalizing s with
  | nil => rfl
  | cons d ds ih =>
    obtain ⟨hd, hds⟩ := List.forall_mem_cons.1 h
    rw [recoverFields_empty_cons, recoverFields]
    rcases hd with hd | hd <;> simp only [hd, Option.getD_none, Option.getD_some]
    all_goals
      cases d.type.fieldType d.path r with
      | error e => rfl
      | ok t => exact ih hds _

/-- The schema that is read has at the path of each definition the type that the validators or
the definition itself say there, and elsewhere what it had before. -/
theorem recoverFields_get? {s s' : Schema} (h : (recoverFields c v r ds s).2 = .ok s')
    (hp : ds.Pairwise fun a b => a.path < b.path) :
    (∀ d ∈ ds, ∃ found t, asked c v d = .ok found ∧
      (found.getD d.type).fieldType d.path r = .ok t ∧
      s'.get? d.path = some (.ofPath d.path (some t))) ∧
    ∀ path, (∀ d ∈ ds, d.path ≠ path) → s'.get? path = s.get? path := by
  induction ds generalizing s with
  | nil =>
    injection h with h
    exact ⟨by simp, fun _ _ => by rw [h]⟩
  | cons d ds ih =>
    obtain ⟨hlt, hds⟩ := List.pairwise_cons.1 hp
    rw [recoverFields] at h
    split at h
    · cases h
    · rename_i found hasked
      simp only at h
      split at h
      · cases h
      · rename_i t ht
        obtain ⟨hin, hout⟩ := ih h hds
        refine ⟨List.forall_mem_cons.2 ⟨⟨found, t, hasked, ht, ?_⟩, hin⟩, fun path hpath => ?_⟩
        · rw [hout d.path fun e he => (Entries.key_ne_of_lt (hlt e he)).symm, Keyed.get?_insert]
          simp
        · obtain ⟨hd, hrest⟩ := List.forall_mem_cons.1 hpath
          rw [hout path hrest, Keyed.get?_insert, if_neg hd]

/-- Where the definitions have no collection, no documents stand in the schema that is read. -/
theorem nested?_of_schema (hd : Describes ds s) (hapart : (FieldDefinition.collections ds).Apart)
    (hv : Speak s (FieldDefinition.collections ds) v) {s' : Schema} (h : schema ds v r = .ok s')
    {path : String} (hnone : (FieldDefinition.collections ds).get? path = none) {t : FieldType}
    (ht : s'.typeAt path = .ok t) : t.nested? = none := by
  obtain ⟨hin, hout⟩ := recoverFields_get? h hd.ascending
  obtain ⟨f, hf, hft⟩ := Schema.typeAt_eq_ok.1 ht
  obtain ⟨d, hmem, rfl⟩ : ∃ d ∈ ds, d.path = path := by
    by_contra hno
    rw [hout path fun d hmem hp => hno ⟨d, hmem, hp⟩] at hf
    cases hf
  have hcollection : d.collection = none := by
    cases hc : d.collection with
    | none => rfl
    | some name =>
      rw [(collections_get?_iff hd.ascending).2 ⟨d, hmem, rfl, hc⟩] at hnone
      cases hnone
  have hagrees : Agrees (FieldDefinition.collections ds) v d := by
    cases hh : (FieldDefinition.collections ds).home? d.path with
    | some home => exact agrees_of_home hd hapart hv hmem hh
    | none => exact .inl (by simp [asked, hh, hcollection])
  obtain ⟨found, t', hasked, ht', hget⟩ := hin d hmem
  have htype : found.getD d.type = d.type := by
    rcases hagrees with h | h <;> rw [hasked] at h <;> injection h with h <;> subst h <;> rfl
  rw [hget] at hf
  injection hf with hf
  subst hf
  injection hft with hft
  subst hft
  -- The type is read from a descriptor that does not end in the name of a class.
  obtain ⟨t₀, -, hdt, hnest⟩ := hd.sound d hmem
  cases hn : t'.nested? with
  | none => rfl
  | some k =>
    obtain ⟨name, hname, -⟩ := Shape.nested?_of_resolveWith ht' hn
    rw [htype, hdt, FieldType.descriptor, Shape.nested?_map, hnest.1 hcollection] at hname
    cases hname

/-- A root definition of a document type is read as a document type, whatever the validators
say. -/
theorem typeAt_root_of_schema (h : schema ds v r = .ok s)
    (hp : ds.Pairwise fun a b => a.path < b.path) {d : FieldDefinition} (hmem : d ∈ ds)
    (hroot : d.path = "") {name : String} (hd : d.type = .document name) :
    ∃ k, s.typeAt "" = .ok (.document k) := by
  obtain ⟨found, t, hasked, ht, hget⟩ := (recoverFields_get? h hp).1 d hmem
  have hdocument : ∃ title, found.getD d.type = .document title := by
    rw [asked, hroot, Collections.home?_root] at hasked
    injection hasked with hasked
    cases found with
    | none => exact ⟨name, hd⟩
    | some x =>
      simp only [Option.bind_eq_bind, Option.bind_eq_some_iff] at hasked
      obtain ⟨_, -, _, -, title, -, hx⟩ := hasked
      injection hx with hx
      exact ⟨title, hx.symm⟩
  obtain ⟨title, htitle⟩ := hdocument
  rw [htitle] at ht
  obtain ⟨k, -, hk⟩ := bind_eq_ok_iff.1 ht
  injection hk with hk
  rw [hroot] at hget
  exact ⟨k, Schema.typeAt_eq_ok.2 ⟨_, hget, by rw [← hk]; rfl⟩⟩

theorem exists_recoverFields (h : ∀ d ∈ ds, ∃ t, d.type.fieldType d.path r = .ok t) (s : Schema) :
    ∃ s', (recoverFields c .empty r ds s).2 = .ok s' := by
  induction ds generalizing s with
  | nil => exact ⟨s, rfl⟩
  | cons d ds ih =>
    obtain ⟨⟨t, ht⟩, hds⟩ := List.forall_mem_cons.1 h
    obtain ⟨s', hs'⟩ := ih hds (s.insert d.path (.ofPath d.path (some t)))
    exact ⟨s', by rw [recoverFields_empty_cons, ht, ok_bind, hs']⟩

/-- Validators that speak of a schema give what its definitions give on their own. -/
theorem schema_of_speak (hd : Describes ds s)
    (hapart : (FieldDefinition.collections ds).Apart) {k : DocClass}
    (hroot : s.typeAt "" = .ok (.document k))
    (hv : Speak s (FieldDefinition.collections ds) v) : schema ds v r = schema ds .empty r :=
  recoverFields_of_agrees (fun _ hmem => agrees_of_speak hd hapart hroot hv hmem) .empty

/-- What the definitions of a schema give on their own has its paths and types; its fields are
named by their paths. -/
theorem get?_schema (hr : r.Named) (hd : Describes ds s) {s' : Schema}
    (h : schema ds .empty r = .ok s') (path : String) :
    (s'.get? path).map (fun f => (f.name, f.type.map FieldType.descriptor)) =
      (s.get? path).map fun f => (Path.leaf path, f.type.map FieldType.descriptor) := by
  obtain ⟨hin, hout⟩ := recoverFields_get? h hd.ascending
  by_cases hp : ∃ d ∈ ds, d.path = path
  · obtain ⟨d, hmem, rfl⟩ := hp
    obtain ⟨t, ht, hdt, -⟩ := hd.sound d hmem
    obtain ⟨f, hf, hft⟩ := Schema.typeAt_eq_ok.1 ht
    obtain ⟨found, t', hasked, ht', hget⟩ := hin d hmem
    rw [asked_empty] at hasked
    injection hasked with hasked
    subst hasked
    rw [hget, hf]
    simp [Field.ofPath, hft, Descriptor.descriptor_of_fieldType hr ht', hdt]
  · rw [hout path fun d hmem hdp => hp ⟨d, hmem, hdp⟩]
    cases hf : s.get? path with
    | none => rfl
    | some f => exact absurd (hd.complete path f hf) hp

theorem entry_schema (hr : r.Named) (hd : Describes ds s) {s' : Schema}
    (h : schema ds .empty r = .ok s') (path : String) : s'.entry path = s.entry path := by
  have hget := congrArg (Option.map Prod.snd) (get?_schema hr hd h path)
  simpa [Schema.entry, Option.map_map, Function.comp_def] using hget

/-! ## Schemas that can be laid out and read back -/

/-- A schema of documents whose fields are typed, named by their paths, and of types all of whose
classes are registered. -/
structure Complete (r : Registry) (s : Schema) : Prop where
  root : ∃ k, s.typeAt "" = .ok (.document k)
  field : ∀ path f, s.get? path = some f → f.name = Path.leaf path ∧
    ∃ t, f.type = some t ∧ ∀ name ∈ t.descriptor.leaves, r.contains name = true

theorem complete_of_entries {k : DocClass} (hroot : s.typeAt "" = .ok (.document k))
    (h : ∀ e ∈ s.entries, e.2.name = Path.leaf e.1 ∧
      ∃ t ∈ e.2.type, ∀ name ∈ t.descriptor.leaves, r.contains name = true) : Complete r s :=
  ⟨⟨k, hroot⟩, fun path f hf => h (path, f) (Keyed.mem_entries_iff.2 hf)⟩

/-- The collections that definitions name beyond the known ones are named by no other path. -/
def FreshlyNamed (known : Collections) (ds : List FieldDefinition) : Prop :=
  ∀ d ∈ ds, known.get? d.path = none → ∀ name, d.collection = some name →
    name ∉ known.values ∧ ∀ e ∈ ds, e.collection = some name → e.path = d.path

instance {known : Collections} {ds : List FieldDefinition} : Decidable (FreshlyNamed known ds) :=
  inferInstanceAs (Decidable (∀ d ∈ ds, known.get? d.path = none → ∀ name ∈ d.collection,
    name ∉ known.values ∧ ∀ e ∈ ds, e.collection = some name → e.path = d.path))

/-- A definition has the collection that is known for its path, if one is. -/
theorem collection_of_define {ids : Nat → Uuid} {known : Collections} {drawn n : Nat}
    (h : define ids known drawn s.entries = .ok (ds, n)) {d : FieldDefinition} (hd : d ∈ ds)
    {name : String} (hn : d.collection = some name) :
    known.get? d.path = some name ∨ known.get? d.path = none := by
  obtain ⟨-, owner, hall⟩ := define_ok h
  obtain ⟨e, -, hp, t, -, -, ⟨-, hc⟩ | ⟨c, name', -, hc, hk | ⟨hk, -⟩⟩⟩ :=
    exists_of_mem_right hall hd
  · rw [hn] at hc
    cases hc
  · rw [hn] at hc
    injection hc with hc
    exact .inl (by rw [hp, hk, hc])
  · exact .inr (by rw [hp, hk])

theorem apart_of_freshlyNamed {ids : Nat → Uuid} {known : Collections} {drawn n : Nat}
    (hknown : known.Apart) (h : define ids known drawn s.entries = .ok (ds, n))
    (hf : FreshlyNamed known ds) : (FieldDefinition.collections ds).Apart := by
  have hd := describes_of_define h
  intro p q name hp hq
  obtain ⟨d, hdm, rfl, hdn⟩ := (collections_get?_iff hd.ascending).1 hp
  obtain ⟨e, hem, rfl, hen⟩ := (collections_get?_iff hd.ascending).1 hq
  rcases collection_of_define h hdm hdn with hdk | hdk
  · rcases collection_of_define h hem hen with hek | hek
    · exact hknown _ _ name hdk hek
    · exact (hf e hem hek name hen).2 d hdm hdn
  · exact ((hf d hdm hdk name hdn).2 e hem hen).symm

/-- A complete schema laid out over collections apart from each other is read back as it was,
whichever of its validators are still there. -/
theorem schema_roundTrip {ids : Nat → Uuid} {known : Collections} (hr : r.Named)
    (hs : Complete r s) (hknown : known.Apart) (drawn : Nat) :
    ∃ ds n, define ids known drawn s.entries = .ok (ds, n) ∧
      (FreshlyNamed known ds →
        ∃ v, validators (FieldDefinition.collections ds) s = .ok v ∧
          ∀ v' : Validators, (∀ name rule, v'.get? name = some rule → v.get? name = some rule) →
            ∃ s', schema ds v' r = .ok s' ∧ s'.same s = true) := by
  obtain ⟨k, hroot⟩ := hs.root
  have hdefine : ∃ ds n, define ids known drawn s.entries = .ok (ds, n) :=
    exists_define (fun e he => by
      obtain ⟨-, t, ht, -⟩ := hs.field e.1 e.2 (Keyed.mem_entries_iff.1 he)
      exact ⟨t, ht⟩) drawn
  obtain ⟨ds, n, h⟩ := hdefine
  have hd := describes_of_define h
  refine ⟨ds, n, h, fun hf => ?_⟩
  obtain ⟨v, hv⟩ := exists_validators hd
  refine ⟨v, hv, fun v' hsub => ?_⟩
  have hspeak : Speak s (FieldDefinition.collections ds) v' :=
    fun name rule hrule => validators_speak hv name rule (hsub name rule hrule)
  have htypes : ∀ d ∈ ds, ∃ t, d.type.fieldType d.path r = .ok t := by
    intro d hmem
    obtain ⟨t, ht, hdt, -⟩ := hd.sound d hmem
    obtain ⟨f, hf, hft⟩ := Schema.typeAt_eq_ok.1 ht
    obtain ⟨-, t', hft', hleaves⟩ := hs.field _ f hf
    rw [hft] at hft'
    injection hft' with hft'
    subst hft'
    exact Descriptor.exists_fieldType (hdt ▸ hleaves)
  obtain ⟨s', hs'⟩ := exists_recoverFields (c := FieldDefinition.collections ds) htypes .empty
  refine ⟨s', ?_, Schema.same_iff.2 fun path => ?_⟩
  · rw [schema_of_speak hd (apart_of_freshlyNamed hknown h hf) hroot hspeak]
    exact hs'
  · rw [get?_schema hr hd hs' path]
    cases hf : s.get? path with
    | none => rfl
    | some f => simp [(hs.field path f hf).1]

section Sample

/-- A box with a corner. -/
def boxClass : DocClass := .ofFields "Box" [("corner", some (.scalar .float))] []

/-- A sample with boxes and with a pair of a score and a box. -/
def sampleClass : DocClass :=
  .ofFields "Sample" [("boxes", some (.list (.document boxClass))),
    ("best", some (.tuple [.scalar .float, .document boxClass]))] []

def sampleRegistry : Registry := Registry.register sampleClass .empty

/-- The root already has its collection, the boxes get a new one. -/
def sampleKnown : Collections := Keyed.ofList [("", "sample.known")]

theorem schema_roundTrip_sample :
    ∃ ds n v, define Uuid.ofNat sampleKnown 0 sampleClass.rootSchema.entries = .ok (ds, n) ∧
      validators (FieldDefinition.collections ds) sampleClass.rootSchema = .ok v ∧
      (∃ s', schema ds v sampleRegistry = .ok s' ∧ s'.same sampleClass.rootSchema = true) ∧
      ∃ s', schema ds .empty sampleRegistry = .ok s' ∧
        s'.same sampleClass.rootSchema = true := by
  have hs : Complete sampleRegistry sampleClass.rootSchema :=
    complete_of_entries (k := sampleClass) rfl (by decide +kernel)
  have hknown : sampleKnown.Apart := by
    intro p q name hp hq
    have hp' := Keyed.mem_entries_iff.2 hp
    have hq' := Keyed.mem_entries_iff.2 hq
    simp_all [sampleKnown, Keyed.ofList, Entries.ofList, Entries.insert]
  obtain ⟨ds, n, h, hread⟩ := @schema_roundTrip sampleClass.rootSchema sampleRegistry Uuid.ofNat
    sampleKnown (Registry.named_register sampleClass Registry.named_empty) hs hknown 0
  have hf : FreshlyNamed sampleKnown ds := by
    have hcheck : (define Uuid.ofNat sampleKnown 0 sampleClass.rootSchema.entries).toOption.all
        (fun x => decide (FreshlyNamed sampleKnown x.1)) = true := by decide +kernel
    simpa [h, Except.toOption] using hcheck
  obtain ⟨v, hv, hsub⟩ := hread hf
  exact ⟨ds, n, v, h, hv, hsub v fun _ _ hrule => hrule, hsub .empty fun _ _ hrule => by cases hrule⟩

end Sample

end Layout
end SchemaKeeper
