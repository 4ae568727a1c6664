import SchemaKeeper.Proofs.Record.Loaded
import SchemaKeeper.Proofs.Session.Backed
import SchemaKeeper.Proofs.Session.Records

/-!
# Saving what was loaded

A loaded record has only fields that the live schema has, at its root.  In the documents inside it
every stored field comes back, and a field that the schema has dropped, or has retyped, keeps the
record from being saved again.
-/
namespace SchemaKeeper

open Catalog Op

namespace Op

/-- What is gathered by asking one after the other. -/
theorem mem_of_mapM_lift {α β : Type} {ask : α → Except Refusal β} {as : List α} {bs : List β}
    {ws ws' : Workspace}
    (h : (as.mapM fun a => (Op.lift (ask a) : Op Refusal β)) ws = .ok bs ws') :
    ∀ b ∈ bs, ∃ a ∈ as, ask a = .ok b := by
  induction as generalizing bs ws with
  | nil =>
    cases h
    nofun
  | cons a as ih =>
    rw [List.mapM_cons] at h
    obtain ⟨b, ws₁, hlift, h⟩ := bind_eq_ok.1 h
    obtain ⟨rest, ws₂, hrest, h⟩ := bind_eq_ok.1 h
    cases h
    refine List.forall_mem_cons.2 ⟨⟨a, List.mem_cons_self, (lift_eq_ok.1 hlift).1⟩, ?_⟩
    intro b' hb'
    obtain ⟨a', ha', hask⟩ := ih hrest b' hb'
    exact ⟨a', List.mem_cons_of_mem _ ha', hask⟩

end Op

namespace Dataset
variable {d : Dataset} {ws : Workspace} {r : Record}

/-- The record is one that is loaded, by its identifier or with all others. -/
def Loads (d : Dataset) (ws : Workspace) (r : Record) : Prop :=
  (∃ id ws', d.loadRecord id ws = .ok (some r) ws') ∨
    ∃ rs ws', d.loadRecords ws = .ok rs ws' ∧ r ∈ rs

/-- A loaded record was read from a document through the live schema. -/
theorem Loads.exists_document (h : d.Loads ws r) : ∃ held root document,
    d.standing.holding? = some held ∧ held.definition.collections.contains "" = true ∧
      Record.ofDocument ws.visible d.live held.definition.collections root document = .ok r := by
  rcases h with ⟨id, ws', h⟩ | ⟨rs, ws', h, hr⟩
  · obtain ⟨-, held, root, name, hheld, -, hname, h⟩ := loadRecord_ok h
    split at h
    · cases h
    · rename_i document _
      obtain ⟨r', hr', hread⟩ := h
      cases hr'
      exact ⟨held, root, document, hheld, Keyed.contains_iff.2 ⟨name, hname⟩, hread⟩
  · obtain ⟨held, root, name, hheld, -, hname, h⟩ := exists_root_of_loading h
    obtain ⟨catalog, ws₁, hcatalog, h₁⟩ := bind_eq_ok.1 h
    cases hcatalog
    obtain ⟨documents, ws₂, -, h₂⟩ := bind_eq_ok.1 h₁
    obtain ⟨document, -, hread⟩ := mem_of_mapM_lift h₂ r hr
    exact ⟨held, root, document, hheld, Keyed.contains_iff.2 ⟨name, hname⟩, hread⟩

end Dataset

namespace World
variable {c : Connection} {w₀ : World} {deeds : List Deed} {d : Dataset} {held : Holding}
  {stored : Definition} {r : Record}

/-- Of a record that was loaded into a dataset held in step whose live schema is the persisted one,
every field is an instance of the live schema.  It can be saved again, where no class that was
brought in asks for a unique index, just if each member of its own document and of the documents
inside it is one that the live schema admits there. -/
theorem save_loaded_iff (hb : w₀.Blank) (ho : ∀ e ∈ deeds, e.Over c)
    (hplain : ∀ e ∈ deeds, e.IsPlain) (hf : (w₀.play deeds).workspace.supply.Fits c.definitions)
    (hstep : InStep c (w₀.play deeds) d held stored)
    (hlive : Layout.Describes stored.fields d.live) (hr : d.Loads (w₀.play deeds).workspace r) :
    r.Fits d.live ∧
      ((∃ ws, d.saveRecord r (w₀.play deeds).workspace = .ok () ws) ↔
        ∀ p ∈ r.written, ∀ key j, p.document.get? key = some j →
          d.live.admits held.definition.collections p.path key j = true) := by
  obtain ⟨schema, hdescribes, hscreens⟩ := hstep.screens hb ho hf
  have hscreens := hscreens.alike (hdescribes.alike hlive)
  obtain ⟨held', root, document, hheld, hseat, hread⟩ := hr.exists_document
  rw [hstep.holding] at hheld
  injection hheld with hheld
  subst hheld
  have hfetched := Record.fetched_ofDocument hread
  refine ⟨hfetched.fits, fun ⟨ws, hop⟩ p hp => ?_, fun hmembers => ?_⟩
  · exact (Dataset.admitted_of_saveRecord hstep.holding hscreens hop p hp).members
  · refine Dataset.exists_saveRecord hstep.holding hscreens (hstep.plain hb ho hf hplain) ?_
    exact fun p hp => (hfetched.admitted_iff hseat hp).2 (hmembers p hp)

section Sample
open Layout

/-- A client saves a sample with two boxes. -/
def savingDeeds : List Deed :=
  [.create 0 "d" sampleClass.rootSchema none false, .save 0 sampleRecord].map
    (.act sampleConnection)

theorem save_loaded_iff_sample :
    ∃ x held r ws, (sampleWorld.play savingDeeds).clients 0 = some x ∧
      x.dataset.standing.holding? = some held ∧
      x.dataset.Loads (sampleWorld.play savingDeeds).workspace r ∧
      r.Fits x.dataset.live ∧
      x.dataset.saveRecord r (sampleWorld.play savingDeeds).workspace = .ok () ws ∧
      ∀ p ∈ r.written, ∀ key j, p.document.get? key = some j →
        x.dataset.live.admits held.definition.collections p.path key j = true := by
  have hcheck : ((sampleWorld.play savingDeeds).clients 0).any (fun x =>
      x.dataset.standing.holding?.any fun held =>
        (sampleConnection.stored? (sampleWorld.play savingDeeds).workspace.store.catalog
          held.definition.id).any fun stored =>
        (given? (x.dataset.loadRecord sampleRecord.id
          (sampleWorld.play savingDeeds).workspace)).any fun g => g.1.any fun r =>
          decide (held.definition.fields = stored.fields ∧
            (∀ f ∈ stored.fields, f.type.isCounted = true) ∧
            Describes stored.fields x.dataset.live ∧
            (given? (x.dataset.saveRecord r
              (sampleWorld.play savingDeeds).workspace)).isSome = true)) = true := by
    decide +kernel
  obtain ⟨x, hx, hcheck⟩ := (Option.any_eq_true _ _).1 hcheck
  obtain ⟨held, hheld, hcheck⟩ := (Option.any_eq_true _ _).1 hcheck
  obtain ⟨stored, hstored, hcheck⟩ := (Option.any_eq_true _ _).1 hcheck
  obtain ⟨g, hg, hcheck⟩ := (Option.any_eq_true _ _).1 hcheck
  obtain ⟨r, hr, hcheck⟩ := (Option.any_eq_true _ _).1 hcheck
  obtain ⟨hsame, hcounted, hlive, hsaved⟩ := of_decide_eq_true hcheck
  obtain ⟨back, hback⟩ := Option.isSome_iff_exists.1 hsaved
  have hload := given?_eq_some hg
  rw [hr] at hload
  have hover : ∀ e ∈ savingDeeds, e.Over sampleConnection :=
    over_acts (Connection.quiet_plain _ _) _
  have hplain : ∀ e ∈ savingDeeds, e.IsPlain := by
    have hclasses : sampleConnection.classes.IsPlain := by decide +kernel
    have hsample : sampleClass.rootSchema.IsPlain := by decide +kernel
    exact List.forall_mem_cons.2 ⟨⟨hclasses, hsample⟩, List.forall_mem_singleton.2 hclasses⟩
  have hf : (sampleWorld.play savingDeeds).workspace.supply.Fits
      sampleConnection.definitions := .of_isFit (by decide) (by decide +kernel)
  obtain ⟨hfits, hiff⟩ := save_loaded_iff ⟨rfl, rfl, fun _ => rfl⟩ hover hplain hf
    ⟨hheld, hstored, congrArg FieldDefinition.collections hsame, hcounted⟩ hlive
    (.inl ⟨_, _, hload⟩)
  have hsave := given?_eq_some hback
  exact ⟨x, held, r, back.2, hx, hheld, .inl ⟨_, _, hload⟩, hfits, hsave, hiff.1 ⟨_, hsave⟩⟩

/-- Then the field of the boxes is dropped. -/
def droppingDeeds : List Deed :=
  savingDeeds ++ [.removeField 0 "boxes.corner", .commit 0].map (.act sampleConnection)

/-- A loaded record cannot always be saved again: the boxes of the sample come back with the field
that was dropped, and their validator does not know it any more. -/
theorem save_loaded_refused :
    ∃ x held stored r e ws ws', (sampleWorld.play droppingDeeds).clients 0 = some x ∧
      InStep sampleConnection (sampleWorld.play droppingDeeds) x.dataset held stored ∧
      Describes stored.fields x.dataset.live ∧
      x.dataset.loadRecord sampleRecord.id
        (sampleWorld.play droppingDeeds).workspace = .ok (some r) ws ∧
      x.dataset.saveRecord r (sampleWorld.play droppingDeeds).workspace =
        .error e ws' := by
  have hcheck : ((sampleWorld.play droppingDeeds).clients 0).any (fun x =>
      x.dataset.standing.holding?.any fun held =>
        (sampleConnection.stored? (sampleWorld.play droppingDeeds).workspace.store.catalog
          held.definition.id).any fun stored =>
        (given? (x.dataset.loadRecord sampleRecord.id
          (sampleWorld.play droppingDeeds).workspace)).any fun g => g.1.any fun r =>
          decide (held.definition.fields = stored.fields ∧
            (∀ f ∈ stored.fields, f.type.isCounted = true) ∧
            Describes stored.fields x.dataset.live ∧
            (given? (x.dataset.saveRecord r
              (sampleWorld.play droppingDeeds).workspace)).isNone = true)) = true := by
    decide +kernel
  obtain ⟨x, hx, hcheck⟩ := (Option.any_eq_true _ _).1 hcheck
  obtain ⟨held, hheld, hcheck⟩ := (Option.any_eq_true _ _).1 hcheck
  obtain ⟨stored, hstored, hcheck⟩ := (Option.any_eq_true _ _).1 hcheck
  obtain ⟨g, hg, hcheck⟩ := (Option.any_eq_true _ _).1 hcheck
  obtain ⟨r, hr, hcheck⟩ := (Option.any_eq_true _ _).1 hcheck
  obtain ⟨hsame, hcounted, hlive, hrefused⟩ := of_decide_eq_true hcheck
  have hload := given?_eq_some hg
  rw [hr] at hload
  obtain ⟨e, ws', hop⟩ := given?_eq_none (Option.isNone_iff_eq_none.1 hrefused)
  exact ⟨x, held, stored, r, e, g.2, ws', hx,
    ⟨hheld, hstored, congrArg FieldDefinition.collections hsame, hcounted⟩, hlive, hload, hop⟩

end Sample

end World
end SchemaKeeper
