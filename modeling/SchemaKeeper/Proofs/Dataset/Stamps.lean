import SchemaKeeper.Proofs.Dataset.Furnished
import SchemaKeeper.Proofs.Dataset.Saved

/-!
# What a load and an idle commit leave in the store

A load commits what it read, so where the stored definition is in place it puts the time of loading
into the definition and leaves all else.  A commit of what is stored leaves the very catalog.
-/
namespace SchemaKeeper

open Catalog Op Provision

namespace Catalog
variable {c : Connection} {d : Definition} {before working after catalog next : Catalog}

/-- To put in place of a document what is there changes nothing. -/
theorem eq_of_replace_self {name id : String} {document : Json} {upsert answer : Bool}
    (h : catalog.perform (.replaceOne name id document upsert) = .ok (answer, next))
    (hdocument : catalog.documentAt name id = some document) : next = catalog := by
  obtain ⟨-, state, hstate, ⟨-, -, -, rfl⟩ | ⟨-, -, rfl⟩⟩ := replaceOne_ok h
  · have hin : state.documents.get? id = some document := by
      rwa [documentAt, hstate] at hdocument
    rw [Keyed.insert_of_get? hin, setCollection, Keyed.insert_of_get? hstate]
  · rfl

end Catalog

namespace Dataset
variable {guarded : Prop} {v : Vocabulary} {c c' : Connection} {ws ws' : Workspace} {d : Dataset}
  {l : Ledger} {s : Supply} {catalog : Catalog} {definition latest : Definition} {h : Holding}
  {seen base : Schema} {rules loaded : Validators}

/-! ## In place -/

/-- What a stored definition says is read from it with whichever of its validators. -/
theorem schema_of_backs (hf : s.Fits c.definitions) (hb : catalog.Backs definition)
    (ht : definition.Traced guarded l s) (hroot : definition.IsRooted) (r : Registry) :
    Layout.schema definition.fields (loadedValidators catalog definition.collections) r =
      Layout.schema definition.fields .empty r := by
  obtain ⟨schema, rules, hdescribes, hvalidators, hinstalls⟩ := hb
  obtain ⟨k, hk⟩ := root_of_isRooted hroot hdescribes
  exact Layout.schema_of_among hdescribes (hf.apart ht.live) hk hvalidators fun _ _ =>
    Layout.get?_loaded hvalidators hinstalls

/-- A stored definition is in place with the schema that it says. -/
theorem exists_inPlace (hf : s.Fits c.definitions) (hb : catalog.Backs definition)
    (hfurnishes : catalog.Furnishes v definition) (ht : definition.Traced guarded l s)
    (hexist : ∀ name ∈ definition.collections.values, catalog.collections.contains name = true)
    (hroot : definition.IsRooted) (hc : v.Binds c c')
    (hseen : Layout.schema definition.fields .empty c'.classes = .ok seen) :
    ∃ rules, InPlace c'.classes catalog definition seen rules := by
  obtain ⟨schema, rules, hdescribes, hvalidators, hinstalls⟩ := hb
  obtain ⟨k, hk⟩ := root_of_isRooted hroot hdescribes
  have hentry := Layout.entry_schema hc.named hdescribes hseen
  have hdescribes' := hdescribes.congr hentry
  have hclasses : seen.All v.Has := Layout.all_schema hc.all hseen
  refine ⟨rules, hdescribes', Layout.validators_of_entry hentry hvalidators, ⟨hexist,
    fun path q hq index hindex => hfurnishes.indexed_of_describes hdescribes' hclasses hq hindex,
    fun q rule hrule => ?_⟩, ?_, hfurnishes.retired, ht.apart⟩
  · obtain ⟨state, hstate, hvalidator⟩ := hinstalls q rule hrule
    rw [Catalog.validator?, hstate]
    exact hvalidator
  · exact (Layout.schema_of_among hdescribes (hf.apart ht.live) hk hvalidators
      fun _ _ hrule => hrule).trans hseen

/-- A stored definition gives way to one with its identifier and name. -/
theorem exists_replaceStored (hs : catalog.Stocked guarded c l s)
    (hregisters : catalog.Registers c.definitions)
    (hdocument : catalog.documentAt c.definitions latest.key = some latest.document)
    (hkey : definition.key = latest.key) (hname : definition.name = latest.name) :
    ∃ next, catalog.perform (.replaceOne c.definitions definition.key definition.document false) =
      .ok (true, next) := by
  rw [← hkey] at hdocument
  refine hregisters.exists_replaceOne hdocument fun key other hother hget => ?_
  refine hs.named _ _ _ _ hother hdocument ?_
  rw [hget, Definition.get?_document_name, hname]

/-! ## Loads -/

/-- A commit without edits of what is stored as it is held leaves the catalog. -/
theorem exists_commit_idle (hheld : d.standing.holding? = some h)
    (hread : readFrom d.connection (.byId h.definition.id) ws.store.catalog =
      .ok ⟨d.connection, .attached ⟨h.definition, loaded⟩, seen⟩)
    (hbase : Layout.schema h.definition.fields h.validators d.connection.classes = .ok base)
    (hsame : ∀ path, d.live.entry path = base.entry path)
    (hplace : InPlace d.connection.classes ws.store.catalog h.definition seen rules)
    (hdocument : ws.store.catalog.documentAt d.connection.definitions h.definition.key =
      some h.definition.document)
    (hreplace : ∃ next, ws.store.catalog.perform (.replaceOne d.connection.definitions
      h.definition.key h.definition.document false) = .ok (true, next))
    (hfinite : ws.store.catalog.IsFinite) :
    ∃ d' ws', commit d ws = .ok d' ws' ∧ ws'.store.catalog = ws.store.catalog := by
  obtain ⟨next, hnext⟩ := hreplace
  have hself : h.definition = { h.definition with lastLoadedAt := h.definition.lastLoadedAt } := rfl
  obtain ⟨ws', hcommit, -, -, hstore⟩ := commit_unedited hheld hread hbase hsame hplace hself hnext
  refine ⟨_, ws', hcommit, ?_⟩
  rw [hstore, eq_of_replace_self hnext hdocument]
  show (ws.store.advance ws.store.catalog).catalog = _
  rw [Store.advance, if_pos (same_self hfinite)]

end Dataset
end SchemaKeeper
