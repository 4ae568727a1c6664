import SchemaKeeper.Proofs.Dataset.Backed
import SchemaKeeper.Proofs.Dataset.Unedited

/-!
# Stored definitions and their indexes

As long as each name of a class denotes one class, the fields of a stored definition tell which
indexes were asked for in its collections.  They are there, so a dataset that is read is in place:
to commit it as it is finds nothing left to make.
-/
namespace SchemaKeeper

open Catalog Op Provision

/-- Which class each name denotes. -/
structure Vocabulary where
  denoted : String → DocClass
  name_denoted : ∀ name, (denoted name).name = name

namespace Vocabulary
variable {v : Vocabulary} {r : Registry} {c c' : Connection}

/-- The class is the one that its name denotes. -/
def Has (v : Vocabulary) (k : DocClass) : Prop := k = v.denoted k.name

/-- The connection keeps its definitions where the given one does, and knows no classes but those
that their names denote. -/
structure Binds (v : Vocabulary) (c c' : Connection) : Prop where
  definitions : c'.definitions = c.definitions
  classes : ∀ e ∈ c'.classes.entries, e.2 = v.denoted e.1

theorem Binds.named (h : v.Binds c c') : c'.classes.Named := by
  intro name k hk
  rw [show k = v.denoted name from h.classes _ (Keyed.mem_entries_iff.2 hk), v.name_denoted]

theorem Binds.all (h : v.Binds c c') : c'.classes.All v.Has := by
  intro e he
  have hk := h.classes e he
  rw [Has, hk, v.name_denoted]

end Vocabulary

namespace Catalog
variable {v : Vocabulary} {before after catalog : Catalog} {d : Definition} {s : Schema}
  {provision : Provision}

/-- In the collections of the definition there is an index over the fields of each that the classes
ask for which its fields name, and its retired names are in order. -/
structure Furnishes (v : Vocabulary) (catalog : Catalog) (d : Definition) : Prop where
  indexed : ∀ path q, d.collections.get? path = some q → ∀ f ∈ d.fields, f.path = path →
    ∀ name, f.type.nested? = some name → ∀ index ∈ (v.denoted name).indexes,
      ∃ listed, Index.over? index.keys (catalog.indexes q) = some listed
  retired : d.retired.Pairwise (· < ·)

theorem Furnishes.of_indexes (h : before.Furnishes v d)
    (hs : ∀ q ∈ d.collections.values, after.indexes q = before.indexes q) : after.Furnishes v d :=
  ⟨fun path q hq f hf hp name hname index hindex => by
    rw [hs q (Keyed.mem_values.2 ⟨path, hq⟩)]
    exact h.indexed path q hq f hf hp name hname index hindex, h.retired⟩

theorem isLocal_furnishes : IsLocal (Furnishes v) := fun hframe h =>
  h.of_indexes fun q hq => by rw [Catalog.indexes, hframe q hq, ← Catalog.indexes]

/-- The indexes are there that a class asks for at a path of a schema. -/
theorem Furnishes.indexed_of_describes (h : catalog.Furnishes v d)
    (hd : Layout.Describes d.fields s) (hs : s.All v.Has) {path q : String}
    (hq : d.collections.get? path = some q) {index : Index} (hi : index ∈ indexesAt s path) :
    ∃ listed, Index.over? index.keys (catalog.indexes q) = some listed := by
  unfold indexesAt at hi
  split at hi
  · rename_i k hk
    obtain ⟨t, hbound, hk⟩ := Option.bind_eq_some_iff.1 hk
    obtain ⟨f, hf, ht⟩ := Option.bind_eq_some_iff.1 hbound
    obtain ⟨field, hfield, hpath⟩ := hd.complete path f hf
    obtain ⟨t', ht', htype, -⟩ := hd.sound field hfield
    rw [hpath, Schema.typeAt_eq_ok.2 ⟨f, hf, ht⟩] at ht'
    cases ht'
    have hname : field.type.nested? = some k.name := by
      rw [htype, FieldType.descriptor, Shape.nested?_map, hk]
      rfl
    have hdenoted : k = v.denoted k.name := Schema.all_iff.1 hs _ f t hf ht k hk
    exact h.indexed path q hq field hfield hpath k.name hname index (hdenoted ▸ hi)
  · cases hi

end Catalog

namespace Provision
variable {v : Vocabulary} {c c' : Catalog} {ids : Nat → Uuid} {known : Collections} {s : Schema}
  {drawn : Nat} {provision : Provision} {d : Definition}

/-- A schema is laid out with the indexes that its classes ask for. -/
theorem Equipped.furnishes (h : Equipped ids known s drawn c c' provision) (hs : s.All v.Has)
    (hd : d.fields = provision.definitions) (hr : d.retired.Pairwise (· < ·)) :
    c'.Furnishes v d := by
  obtain ⟨n, hdefine⟩ := h.define
  have hdescribes := Layout.describes_of_define hdefine
  refine ⟨fun path q hq f hf hp name hname index hindex => ?_, hr⟩
  rw [hd] at hf
  obtain ⟨t, ht, htype, -⟩ := hdescribes.sound f hf
  rw [htype, FieldType.descriptor, Shape.nested?_map] at hname
  obtain ⟨k, hk, hname⟩ := Option.map_eq_some_iff.1 hname
  obtain ⟨g, hg, hgt⟩ := Schema.typeAt_eq_ok.1 ht
  have hdenoted : k = v.denoted name := hname ▸ Schema.all_iff.1 hs _ g t hg hgt k hk
  have hasked : index ∈ indexesAt s path := by
    simpa [indexesAt, ← hp, hg, hgt, hk, hdenoted] using hindex
  rw [Definition.collections, hd] at hq
  exact h.fitted.indexed path q hq index hasked

end Provision

namespace Dataset
variable {guarded : Prop} {v : Vocabulary} {c c' : Connection} {ws ws' : Workspace}
  {d d' : Dataset} {l : Ledger} {s : Supply} {catalog : Catalog}

/-! ## What the operations leave -/

/-- What was laid out in a transaction, with a definition written after it, is committed with its
indexes. -/
theorem furnishes_of_settles {before working after mid : Catalog} {w : Write} {answer : Bool}
    {definition : Definition} (h : mid.Furnishes v definition) (hw : w.isOfDocument = true)
    (hperform : mid.perform w = .ok (answer, working)) (hsettles : Settles before working after) :
    after.Furnishes v definition :=
  h.of_indexes fun q _ =>
    (hsettles.keptAs.indexes q).trans ((furnishedAs_of_perform hw hperform).indexes q)

theorem createFrom_furnishes {name : String} {schema : Schema} {mediaType : Option MediaType}
    {persistent : Bool} (hs : schema.All v.Has)
    (h : createFrom c name schema mediaType persistent ws = .ok d ws') :
    ∃ held, d.standing = .attached held ∧ ws'.store.catalog.Furnishes v held.definition := by
  obtain ⟨-, ws₁, ws₂, hran⟩ := createFrom_ok h
  obtain ⟨ws₃, ws₄, provision, definition, _, _, -, -, hmake, -, -, -, hdef, -, -, hstanding,
    answer, hinsert⟩ := build_made rfl hran.work
  have hequipped := make_equipped hmake
  obtain ⟨n, hdefine⟩ := hequipped.define
  have hfields : definition.fields = provision.definitions := by
    rw [hdef]
    exact FieldDefinition.sorted_of_ascending (Layout.describes_of_define hdefine).ascending
  have hretired : definition.retired.Pairwise (· < ·) := by
    rw [hdef]
    exact .nil
  exact ⟨_, hstanding, furnishes_of_settles (hequipped.furnishes hs hfields hretired) rfl hinsert
    hran.settles⟩

theorem commit_furnishes (hd : d.Uses (v.Binds c') v.Has) (h : d.commit ws = .ok d' ws') :
    ∃ held, d'.standing = .attached held ∧ ws'.store.catalog.Furnishes v held.definition := by
  obtain ⟨held, held', live, -, rfl, ws₁, ws₂, hran⟩ := commit_ok h
  obtain ⟨ws₃, ws₄, latest, seen, base, _, provision, hread, -, -, hmake, -, rfl, -, hreplace⟩ :=
    merge_made rfl hran.work
  have hequipped := make_equipped hmake
  obtain ⟨n, hdefine⟩ := hequipped.define
  have hseen : seen.All v.Has :=
    (readFrom_uses (q := v.Binds c') (fun _ hb => hb.all) hd.connection hread).live
  have hfields : (committed held latest provision).fields = provision.definitions :=
    FieldDefinition.sorted_of_ascending (Layout.describes_of_define hdefine).ascending
  exact ⟨_, rfl, furnishes_of_settles (hequipped.furnishes (hseen.apply hd.live) hfields
    (Definition.retired_ascending _ _ _)) rfl hreplace hran.settles⟩

theorem load_furnishes {key : DatasetKey} (hquiet : c.Quiet) (ht : ws.transaction = none)
    (hc : v.Binds c' c) (h : load c key ws = .ok d ws') :
    ∃ held, d.standing = .attached held ∧ ws'.store.catalog.Furnishes v held.definition := by
  obtain ⟨d₀, ws₁, ws₂, i, hfrom, -, -, -, hcommit, hrests⟩ := load_ok hquiet ht h
  have huses := (readFrom_uses (fun _ hb => Vocabulary.Binds.all hb) hc hfrom).stamped
    (ws₁.supply.clock i)
  obtain ⟨held, hstanding, hfurnishes⟩ := commit_furnishes huses hcommit
  exact ⟨held, hstanding, hrests.store ▸ hfurnishes⟩

/-! ## What is read is in place -/


end Dataset
end SchemaKeeper
