import SchemaKeeper.Proofs.Dataset.Edits
import SchemaKeeper.Proofs.Dataset.Load
import SchemaKeeper.Proofs.Schema.Delta

/-!
# The classes that come in

A schema names classes at the ends of its types, and the connection of a dataset knows registered
ones.  What is read from a store is of registered classes, and a commit and an edit bring in none
but those of the schemas that they start from.
-/
namespace SchemaKeeper

open Op

/-! ## Classes, registries and schemas -/

/-- The class that the type ends in, if it ends in one, has the property. -/
def FieldType.EndsIn (p : DocClass → Prop) (t : FieldType) : Prop := ∀ k ∈ t.nested?, p k

/-- All registered classes have the property. -/
def Registry.All (p : DocClass → Prop) (r : Registry) : Prop := ∀ e ∈ r.entries, p e.2

/-- All classes that types of the schema end in have the property. -/
def Schema.All (p : DocClass → Prop) (s : Schema) : Prop :=
  ∀ e ∈ s.entries, ∀ t ∈ e.2.type, FieldType.EndsIn p t

variable {p : DocClass → Prop}

theorem Registry.All.fieldType {r : Registry} (h : r.All p) {d : Descriptor} {path : String}
    {t : FieldType} (ht : d.fieldType path r = .ok t) : t.EndsIn p := by
  intro k hk
  obtain ⟨name, -, hname⟩ := Shape.nested?_of_resolveWith ht hk
  exact h (name, k) (Keyed.mem_entries_iff.2 (Registry.resolve_eq_ok.1 hname))

namespace Schema
variable {s s' : Schema}

theorem all_iff : s.All p ↔
    ∀ path f t, s.get? path = some f → f.type = some t → t.EndsIn p :=
  ⟨fun h path _ t hf ht => h (path, _) (Keyed.mem_entries_iff.2 hf) t ht,
    fun h e he t ht => h e.1 e.2 t (Keyed.mem_entries_iff.1 he) ht⟩

theorem all_empty : All p .empty := fun _ he => absurd he List.not_mem_nil

theorem All.of_get? (h : s.All p)
    (hs : ∀ path f, s'.get? path = some f → s.get? path = some f) : s'.All p :=
  all_iff.2 fun path f t hf => all_iff.1 h path f t (hs path f hf)

theorem All.insert (h : s.All p) {path : String} {f : Field}
    (hf : ∀ t ∈ f.type, FieldType.EndsIn p t) : All p (s.insert path f) := by
  refine all_iff.2 fun q g t hg ht => ?_
  rw [Keyed.get?_insert] at hg
  split at hg
  · injection hg with hg
    exact hf t (hg ▸ ht)
  · exact all_iff.1 h q g t hg ht

theorem All.union (h : s.All p) (h' : s'.All p) : All p (s.union s') := by
  refine all_iff.2 fun q f t hf ht => ?_
  rw [Keyed.get?_union] at hf
  rcases Option.or_eq_some_iff.1 hf with hf | ⟨-, hf⟩
  · exact all_iff.1 h' q f t hf ht
  · exact all_iff.1 h q f t hf ht

/-- An edit brings in no classes but those of the edited schema. -/
theorem All.apply {base edited seen : Schema} (hs : seen.All p) (he : edited.All p) :
    ((Delta.between base edited).apply seen).All p := by
  refine all_iff.2 fun path f t hf ht => ?_
  rw [Delta.get?_apply] at hf
  split at hf
  · exact all_iff.1 hs path f t hf ht
  · exact all_iff.1 he path f t hf ht

/-- What a schema asks for at a path a class asks for that is in the schema. -/
theorem All.indexesAt (h : s.All p) {path : String} {i : Index}
    (hi : i ∈ Provision.indexesAt s path) : ∃ k, p k ∧ i ∈ k.indexes := by
  unfold Provision.indexesAt at hi
  split at hi
  · rename_i k hk
    obtain ⟨t, ht, hk⟩ := Option.bind_eq_some_iff.1 hk
    obtain ⟨f, hf, ht⟩ := Option.bind_eq_some_iff.1 ht
    exact ⟨k, all_iff.1 h path f t hf ht k hk, hi⟩
  · cases hi

end Schema

/-- The classes of a schema that is read back are registered ones. -/
theorem Layout.all_recoverFields {r : Registry} (hr : r.All p) {c : Collections}
    {v : Validators} {ds : List FieldDefinition} {s s' : Schema} (hs : s.All p)
    (h : (recoverFields c v r ds s).2 = .ok s') : s'.All p := by
  induction ds generalizing s with
  | nil =>
    injection h with h
    exact h ▸ hs
  | cons d ds ih =>
    rw [recoverFields] at h
    split at h
    · cases h
    · simp only at h
      split at h
      · cases h
      · rename_i t ht
        refine ih (hs.insert fun t' ht' => ?_) h
        injection ht' with ht'
        exact ht' ▸ hr.fieldType ht

theorem Layout.all_schema {r : Registry} (hr : r.All p) {ds : List FieldDefinition}
    {v : Validators} {s : Schema} (h : schema ds v r = .ok s) : s.All p :=
  all_recoverFields hr Schema.all_empty h

/-! ## Datasets -/

namespace Dataset
variable {q : Connection → Prop} {c : Connection} {ws ws' : Workspace} {d d' : Dataset}

/-- What a dataset brings to its operations: its connection is as one property says, and the classes
of its live schema are as another does. -/
structure Uses (q : Connection → Prop) (p : DocClass → Prop) (d : Dataset) : Prop where
  connection : q d.connection
  live : d.live.All p

theorem readFrom_uses {key : DatasetKey} {catalog : Catalog} (hp : ∀ c, q c → c.classes.All p)
    (hq : q c) (h : readFrom c key catalog = .ok d) : d.Uses q p := by
  obtain ⟨_, _, _, -, -, hlive, rfl⟩ := readFrom_ok h
  exact ⟨hq, Layout.all_schema (hp _ hq) hlive⟩

theorem createFrom_uses {name : String} {s : Schema} {mediaType : Option MediaType}
    {persistent : Bool} (hp : ∀ c, q c → c.classes.All p) (hq : q c)
    (h : createFrom c name s mediaType persistent ws = .ok d ws') : d.Uses q p := by
  obtain ⟨-, ws₁, ws₂, hran⟩ := createFrom_ok h
  obtain ⟨_, _, _, _, _, _, -, -, -, -, -, -, -, hlive, hc, -⟩ := build_ok rfl hran.work
  exact ⟨hc.symm ▸ hq, Layout.all_schema (hp _ hq) hlive⟩

theorem Uses.commit (hd : d.Uses q p) (hp : ∀ c, q c → c.classes.All p)
    (h : d.commit ws = .ok d' ws') : d'.Uses q p := by
  obtain ⟨held, held', live, -, rfl, ws₁, ws₂, hran⟩ := commit_ok h
  obtain ⟨_, _, _, _, _, _, _, -, -, -, -, hlive, -⟩ := merge_ok rfl hran.work
  exact ⟨hd.connection, Layout.all_schema (hp _ hd.connection) hlive⟩

theorem Uses.stamped (hd : d.Uses q p) (now : Moment) : (d.stamped now).Uses q p := by
  unfold Dataset.stamped
  split
  · exact ⟨hd.connection, hd.live⟩
  · exact hd

theorem load_uses {key : DatasetKey} (hquiet : c.Quiet) (ht : ws.transaction = none)
    (hp : ∀ c, q c → c.classes.All p) (hq : q c) (h : load c key ws = .ok d ws') : d.Uses q p := by
  obtain ⟨d₀, ws₁, ws₂, i, hfrom, -, -, -, hcommit, -⟩ := load_ok hquiet ht h
  exact ((readFrom_uses hp hq hfrom).stamped _).commit hp hcommit

theorem Uses.delete (hd : d.Uses q p) (h : d.delete ws = .ok d' ws') : d'.Uses q p := by
  obtain ⟨held, -, rfl, -⟩ := delete_ok h
  exact ⟨hd.connection, hd.live⟩

/-- A field brings into a schema what it brings into an empty one. -/
theorem all_withField {s : Schema} {path : String} {type : FieldType} (hs : s.All p)
    (hf : (withField .empty path type).All p) : (withField s path type).All p := by
  refine Schema.all_iff.2 fun q f t hget ht => ?_
  rcases get?_of_withField hget with ⟨rfl, rfl⟩ | hkept | ⟨hq, hunfolded⟩
  · exact Schema.all_iff.1 hf path _ t (by rw [withField, Keyed.get?_insert, if_pos rfl]) ht
  · exact Schema.all_iff.1 hs q f t hkept ht
  · refine Schema.all_iff.1 hf q f t ?_ ht
    have hnone : ∀ b : Bool, (if b then (.empty : Schema) else prune path .empty).get? q = none :=
      fun b => by cases b <;> simp [prune]
    rw [withField, Keyed.get?_insert, if_neg hq, Keyed.get?_union, hnone, hunfolded]
    rfl

theorem Uses.addField {path : String} {type : FieldType} (hd : d.Uses q p)
    (hf : (withField .empty path type).All p) (h : d.addField path type = .ok d') :
    d'.Uses q p := by
  obtain ⟨⟨⟩, -, h⟩ := bind_eq_ok_iff.1 h
  obtain ⟨⟨⟩, -, h⟩ := bind_eq_ok_iff.1 h
  obtain ⟨⟨⟩, -, h⟩ := bind_eq_ok_iff.1 h
  injection h with h
  subst h
  exact ⟨hd.connection, all_withField hd.live hf⟩

theorem Uses.removeField {path : String} (hd : d.Uses q p) (h : d.removeField path = .ok d') :
    d'.Uses q p := by
  obtain ⟨⟨⟩, -, h⟩ := bind_eq_ok_iff.1 h
  split at h
  · cases h
  · injection h with h
    subst h
    exact ⟨hd.connection, hd.live.of_get? fun _ _ => get?_of_removed⟩

end Dataset
end SchemaKeeper
