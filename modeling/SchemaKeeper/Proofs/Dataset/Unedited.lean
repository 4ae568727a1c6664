import SchemaKeeper.Proofs.Dataset.Committable
import SchemaKeeper.Proofs.Dataset.Equipment

/-!
# Commits without edits

To commit a live schema without edits lays out what is laid out already.  Where everything that the
schema asks for is there, the commit goes through and writes nothing but the definition that the
client holds, in the place of the stored one.
-/
namespace SchemaKeeper

open Catalog Op Provision

namespace Definition
variable {d : Definition} {names : List String} {live : Collections}

theorem retired_ascending (d : Definition) (names : List String) (live : Collections) :
    (d.retire names live).retired.Pairwise (· < ·) :=
  List.Pairwise.filter _ (List.pairwise_map.2 (Keyed.ordered _))

/-- Where no name goes out of use, the names that are retired stay the same. -/
theorem retire_self (hascending : d.retired.Pairwise (· < ·))
    (hapart : ∀ name ∈ d.retired, name ∉ live.values)
    (hnames : ∀ name ∈ names, name ∈ live.values) :
    d.retire names live = d := by
  have hretired : (d.retire names live).retired = d.retired := by
    refine Ascending.eq_of_mem_iff (fun name : String => name) (retired_ascending d names live)
      hascending fun name => ?_
    rw [mem_retire]
    constructor
    · rintro ⟨hin | hin, hout⟩
      · exact hin
      · exact absurd (hnames name hin) hout
    · exact fun hin => ⟨.inl hin, hapart name hin⟩
  calc d.retire names live = { d with retired := (d.retire names live).retired } := rfl
    _ = d := by rw [hretired]

end Definition

namespace Dataset
variable {c : Connection} {ws : Workspace} {t : Transaction} {d : Dataset} {h : Holding}
  {latest : Definition} {edited base seen : Schema} {v v' : Validators} {now : Moment}

/-- A stored definition is in place: what is read from it, the schema, is laid out with everything
that it asks for. -/
structure InPlace (r : Registry) (catalog : Catalog) (d : Definition) (s : Schema)
    (v : Validators) : Prop where
  describes : Layout.Describes d.fields s
  validators : Layout.validators d.collections s = .ok v
  fitted : Fitted s ⟨d.fields, v⟩ catalog
  live : Layout.schema d.fields v r = .ok s
  retired : d.retired.Pairwise (· < ·)
  apart : ∀ name ∈ d.retired, name ∉ d.collections.values

/-- What is laid out as the stored definition says is committed as the client holds it. -/
theorem committed_self {r : Registry} {catalog : Catalog}
    (hplace : InPlace r catalog latest seen v')
    (hheld : h.definition = { latest with lastLoadedAt := now }) :
    committed h latest ⟨latest.fields, v'⟩ = h.definition := by
  have hknown : ∀ name ∈ (h.definition.collections.union latest.collections).values,
      name ∈ (FieldDefinition.collections latest.fields).values := by
    intro name hname
    obtain ⟨path, hpath⟩ := Keyed.mem_values.1 hname
    rw [hheld, Keyed.get?_union] at hpath
    refine Keyed.mem_values.2 ⟨path, ?_⟩
    rcases Option.or_eq_some_iff.1 hpath with hpath | ⟨-, hpath⟩ <;> exact hpath
  have hretired : { h.definition with retired := latest.retired } = h.definition := by
    rw [hheld]
  have hself : h.definition.retire (h.definition.collections.union latest.collections).values
      (FieldDefinition.collections latest.fields) = h.definition := by
    refine Definition.retire_self ?_ ?_ hknown <;> rw [hheld]
    · exact hplace.retired
    · exact hplace.apart
  have hsorted := FieldDefinition.sorted_of_ascending hplace.describes.ascending
  rw [committed, hretired]
  show (h.definition.retire _ (FieldDefinition.collections latest.fields)).setFields _ = _
  rw [hself, Definition.setFields, hsorted, hheld]

/-- In a transaction the work of a commit without edits writes the definition alone. -/
theorem merge_unedited {next : Catalog} (ht : ws.transaction = some t)
    (hread : readFrom c (.byId h.definition.id) ws.visible = .ok ⟨c, .attached ⟨latest, v⟩, seen⟩)
    (hbase : Layout.schema h.definition.fields h.validators c.classes = .ok base)
    (hsame : ∀ path, edited.entry path = base.entry path)
    (hplace : InPlace c.classes ws.visible latest seen v')
    (hheld : h.definition = { latest with lastLoadedAt := now })
    (hreplace : ws.visible.perform (.replaceOne c.definitions h.definition.key
      h.definition.document false) = .ok (true, next)) :
    ∃ ws', merge c h edited ws = .ok (⟨h.definition, v'⟩, seen) ws' ∧
      ws'.transaction = some { t with working := next } ∧ ws.supply.Later ws'.supply := by
  obtain ⟨ws₁, h₁⟩ := (observes_read c _).of_ok hread
  have hr₁ := ((observes_read c _).ok h₁).2
  obtain ⟨ws₂, h₂⟩ : ∃ ws₂, recover h.definition.fields h.validators c.classes ws₁ =
      .ok base ws₂ := (observes_recover _ _ _).of_ok hbase
  have hr₂ := hr₁.trans ((observes_recover _ _ _).ok h₂).2
  let delta := Delta.between base edited
  obtain ⟨ws₃, h₃⟩ : ∃ ws₃, (Op.note .trace .mergeComputed [("dataset", h.definition.name),
      ("added", toString delta.added.size), ("changed", toString delta.changed.size),
      ("removed", toString delta.removed.length)] : Op Refusal Unit) ws₂ = .ok () ws₃ :=
    (observes_note _ _ _).of_ok rfl
  have hr₃ := hr₂.trans ((observes_note _ _ _).ok h₃).2
  -- The schema is the one that is read, and its collections are known.
  have hknown : ∀ f ∈ latest.fields, ∀ name, f.collection = some name →
      (h.definition.collections.union latest.collections).get? f.path = some name := by
    intro f hf name hname
    have hin : latest.collections.get? f.path = some name :=
      (Layout.collections_get?_iff hplace.describes.ascending).2 ⟨f, hf, rfl, hname⟩
    rw [Keyed.get?_union, hin]
    rfl
  have hmake : NotesOnly (make seen (h.definition.collections.union latest.collections))
      ⟨latest.fields, v'⟩ ws₃ := by
    refine make_silent (hr₃.visible.symm ▸ hplace.fitted) (hplace.describes.define_eq hknown)
      hplace.validators fun hclosed => ?_
    rw [hr₃.transaction.trans ht] at hclosed
    cases hclosed
  obtain ⟨lines, h₄⟩ := hmake
  obtain ⟨ws₅, h₅⟩ : ∃ ws₅, recover latest.fields v' c.classes
      { ws₃ with journal := ws₃.journal ++ lines } = .ok seen ws₅ :=
    (observes_recover _ _ _).of_ok hplace.live
  have hr₅ := ((observes_recover _ _ _).ok h₅).2
  have ht₅ : ws₅.transaction = some t := hr₅.transaction.trans (hr₃.transaction.trans ht)
  have hperform : t.perform (.replaceOne c.definitions h.definition.key h.definition.document
      false) = .ok (true, { t with working := next }) := by
    have hvisible : ws.visible = t.working := by rw [Workspace.visible, ht]
    rw [hvisible] at hreplace
    rw [Transaction.perform, hreplace]
    rfl
  have h₆ : (Op.write (.replaceOne c.definitions h.definition.key h.definition.document false) :
      Op Refusal Bool) ws₅ =
        .ok true { ws₅ with transaction := some { t with working := next } } := by
    rw [write_within ht₅, hperform]
  refine ⟨{ ws₅ with transaction := some { t with working := next } }, ?_, rfl,
    hr₃.supply.trans hr₅.supply⟩
  have hcommitted := committed_self hplace hheld
  refine bind_eq_ok.2 ⟨_, ws₁, h₁, bind_eq_ok.2 ⟨base, ws₂, h₂, bind_eq_ok.2 ⟨(), ws₃, h₃, ?_⟩⟩⟩
  rw [Delta.apply_of_entry hsame]
  refine bind_eq_ok.2 ⟨_, _, h₄, bind_eq_ok.2 ⟨seen, ws₅, h₅, ?_⟩⟩
  show (Op.write (.replaceOne c.definitions (committed h latest _).key
    (committed h latest _).document false) >>= _ : Op Refusal _) ws₅ = _
  rw [hcommitted]
  exact bind_eq_ok.2 ⟨true, _, h₆, by
    show (pure (⟨committed h latest _, v'⟩, seen) : Op Refusal (Holding × Schema)) _ = _
    rw [hcommitted]
    rfl⟩

/-- A commit without edits goes through and writes the definition alone. -/
theorem commit_unedited {next : Catalog} (hheld : d.standing.holding? = some h)
    (hread : readFrom d.connection (.byId h.definition.id) ws.store.catalog =
      .ok ⟨d.connection, .attached ⟨latest, v⟩, seen⟩)
    (hbase : Layout.schema h.definition.fields h.validators d.connection.classes = .ok base)
    (hsame : ∀ path, d.live.entry path = base.entry path)
    (hplace : InPlace d.connection.classes ws.store.catalog latest seen v')
    (hdefinition : h.definition = { latest with lastLoadedAt := now })
    (hreplace : ws.store.catalog.perform (.replaceOne d.connection.definitions h.definition.key
      h.definition.document false) = .ok (true, next)) :
    ∃ ws', commit d ws = .ok { d with standing := .attached ⟨h.definition, v'⟩, live := seen } ws' ∧
      ws'.transaction = none ∧ ws.supply.Later ws'.supply ∧
      ws'.store = (ws.store.advance next).count { Counters.zero with committed := 1 } := by
  have hlift : (Op.lift d.holding : Op Refusal Holding) ws = .ok h ws :=
    lift_eq_ok.2 ⟨holding_eq_ok.2 hheld, rfl⟩
  obtain ⟨scope, ws₁, hscope, hr₁⟩ :=
    rests_openScope (ε := Refusal) "SCHEMA_COMMIT" [("dataset", h.definition.name)] ws
  have hvisible : ws₁.opened.visible = ws.store.catalog := congrArg Store.catalog hr₁.store
  rw [← hvisible] at hread hplace hreplace
  obtain ⟨ws₂, hwork, ht₂, hlater₂⟩ :=
    merge_unedited rfl hread hbase hsame hplace hdefinition hreplace
  obtain ⟨ws₃, hrun, ht₃, hsupply₃, hstore₃⟩ := exists_inTransaction (contained_merge _ _ _) hwork
    ht₂ rfl
  have hattempt : (Op.attempt (Op.inTransaction (merge d.connection h d.live)) :
      Op Refusal (Except Refusal _)) ws₁ = .ok (.ok (⟨h.definition, v'⟩, seen)) ws₃ := by
    rw [attempt_eq, hrun]
  obtain ⟨ws₄, hnote⟩ : ∃ ws₄, (Op.note .info .schemaCommitted [("dataset", h.definition.name),
      ("fields", toString h.definition.fields.length)] : Op Refusal Unit) ws₃ = .ok () ws₄ :=
    (observes_note _ _ _).of_ok rfl
  have hr₄ := ((observes_note _ _ _).ok hnote).2
  obtain ⟨⟨⟩, ws₅, hcomplete, hr₅⟩ := rests_complete (ε := Refusal) scope [] ws₄
  have hr := hr₄.trans hr₅
  refine ⟨ws₅, ?_, hr.transaction.trans ht₃, ?_, ?_⟩
  · exact bind_eq_ok.2 ⟨h, ws, hlift, bind_eq_ok.2 ⟨scope, ws₁, hscope, bind_eq_ok.2 ⟨_, ws₃,
      hattempt, bind_eq_ok.2 ⟨(), ws₄, hnote, bind_eq_ok.2 ⟨(), ws₅, hcomplete, rfl⟩⟩⟩⟩⟩
  · exact (Workspace.Rests.supply hr₁).trans (hlater₂.trans (hsupply₃ ▸ hr.supply))
  · rw [hr.store, hstore₃, hr₁.store]
    rfl

end Dataset
end SchemaKeeper
