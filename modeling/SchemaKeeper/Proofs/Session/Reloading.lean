import SchemaKeeper.Proofs.Record.Reread
import SchemaKeeper.Proofs.Session.Backed
import SchemaKeeper.Proofs.Session.Records

/-!
# Loading what was saved

The store checks what is saved against the persisted definition, and what is loaded is read with
the live schema.  As long as these two agree about the types of paths, what was saved can be
loaded.
-/
namespace SchemaKeeper

open Catalog Op

namespace Dataset
variable {d : Dataset} {ws ws' later : Workspace} {held : Holding}
  {schema : Schema} {ds : List FieldDefinition} {r : Record} {k : DocClass}

/-- A record that was saved is loaded as long as nothing else is written, if the live schema gives
no path another type than the schema that let the record through. -/
theorem loadRecord_of_saved (hkeeps : ws.store.catalog.Keeps)
    (hheld : d.standing.holding? = some held) (hapart : held.definition.collections.Apart)
    (hscreens : ws.store.catalog.Screens held.definition.collections schema)
    (hd : Layout.Describes ds schema) (hs : d.live.KeepsTypes ds) (hk : rootClass d.live = .ok k)
    (hr : r.Formed) (hf : r.FitsKnown d.live) (hg : r.IsGenuine d.live)
    (h : d.saveRecord r ws = .ok () ws') (hlater : later.visible = ws'.visible) :
    ∃ loaded, d.loadRecord r.id later = .ok (some loaded) later ∧ loaded.id = r.id := by
  have hadmitted := admitted_of_saveRecord hheld hscreens h
  obtain ⟨root, stored, hroot, hstored, hjson, hcovers⟩ :=
    exists_saved hkeeps hheld hapart hr h hlater
  have hreadable := Record.readable_of_admitted hd hs hr hg hadmitted hcovers
  obtain ⟨loaded, hread, hid⟩ := hreadable.exists_ofDocument k hr hf
    (Record.legible_of_written hd hs hf hadmitted) hjson
  exact ⟨loaded, loadRecord_eq (collections_eq_ok.2 ⟨held, hheld, rfl⟩) hk hroot hstored hread, hid⟩

end Dataset

namespace World
variable {c : Connection} {w₀ : World} {deeds : List Deed} {d : Dataset} {held : Holding}
  {stored : Definition} {r : Record} {k : DocClass} {ws later : Workspace}

/-- What was saved into a dataset held in step can be loaded with the same identifier, until
something else is written.  The live schema has a document at its root and gives no path another
type than the persisted definition; each value of a field that it knows is an instance of the type
of this field; and no field of a document inside the record holds a dict where a document is
declared. -/
theorem load_readable (hb : w₀.Blank) (ho : ∀ e ∈ deeds, e.Over c)
    (hstep : InStep c (w₀.play deeds) d held stored) (hs : d.live.KeepsTypes stored.fields)
    (hroot : Dataset.rootClass d.live = .ok k) (hformed : r.Formed) (hfits : r.FitsKnown d.live)
    (hgenuine : r.IsGenuine d.live)
    (hop : d.saveRecord r (w₀.play deeds).workspace = .ok () ws)
    (hf : ws.supply.Fits c.definitions) (hlater : later.visible = ws.visible) :
    ∃ loaded, d.loadRecord r.id later = .ok (some loaded) later ∧ loaded.id = r.id := by
  obtain ⟨_, _, _, _, hran⟩ := Dataset.saveRecord_ok hop
  have hf : (w₀.play deeds).workspace.supply.Fits c.definitions := hf.of_later hran.supply_later
  obtain ⟨schema, hdescribes, hscreens⟩ := hstep.screens hb ho hf
  exact Dataset.loadRecord_of_saved (keeps_play hb ho hf) hstep.holding (hstep.apart hb ho hf)
    hscreens hdescribes hs hroot hformed hfits hgenuine hop hlater

section Sample
open Layout

theorem load_readable_sample :
    ∃ x ws loaded, (sampleWorld.play twoDatasets).clients 0 = some x ∧
      x.dataset.saveRecord sampleRecord (sampleWorld.play twoDatasets).workspace = .ok () ws ∧
      x.dataset.loadRecord sampleRecord.id ws = .ok (some loaded) ws ∧
      loaded.id = sampleRecord.id := by
  have hcheck : ((sampleWorld.play twoDatasets).granted? 0 fun d => d.saveRecord sampleRecord).any
      (fun g => g.1.dataset.standing.holding?.any fun held =>
        (sampleConnection.stored? (sampleWorld.play twoDatasets).workspace.store.catalog
          held.definition.id).any fun stored => decide (
            held.definition.fields = stored.fields ∧
            (∀ f ∈ stored.fields, f.type.isCounted = true) ∧
            g.1.dataset.live.KeepsTypes stored.fields ∧
            (Dataset.rootClass g.1.dataset.live).toOption.isSome = true ∧
            sampleRecord.FitsKnown g.1.dataset.live ∧ sampleRecord.IsGenuine g.1.dataset.live ∧
            g.2.2.supply.isFit = true)) = true := by
    decide +kernel
  obtain ⟨g, hg, hcheck⟩ := (Option.any_eq_true _ _).1 hcheck
  obtain ⟨held, hheld, hcheck⟩ := (Option.any_eq_true _ _).1 hcheck
  obtain ⟨stored, hstored, hcheck⟩ := (Option.any_eq_true _ _).1 hcheck
  obtain ⟨hsame, hcounted, hkeeps, hclass, hfits, hgenuine, hfit⟩ := of_decide_eq_true hcheck
  obtain ⟨hx, hop⟩ := granted?_eq_some hg
  have hover : ∀ e ∈ twoDatasets, e.Over sampleConnection :=
    over_acts (Connection.quiet_plain _ _) _
  have hformed : sampleRecord.Formed := ⟨by decide +kernel, by decide +kernel⟩
  cases hk : Dataset.rootClass g.1.dataset.live with
  | error e =>
    rw [hk] at hclass
    cases hclass
  | ok k =>
    obtain ⟨loaded, hload, hid⟩ := load_readable ⟨rfl, rfl, fun _ => rfl⟩ hover
      ⟨hheld, hstored, congrArg FieldDefinition.collections hsame, hcounted⟩ hkeeps hk hformed
      hfits hgenuine hop (.of_isFit (by decide) hfit) rfl
    exact ⟨g.1, g.2.2, loaded, hx, hop, hload, hid⟩

/-- A client gives a field of the boxes another type and does not commit it. -/
def retypingDeeds : List Deed :=
  [.create 0 "d" sampleClass.rootSchema none false, .removeField 0 "boxes.corner",
    .addField 0 "boxes.corner" (.scalar .string)].map (.act sampleConnection)

/-- What was saved cannot always be loaded: the store lets a number through as the persisted
definition says, and the client that has declared a text there since cannot read it. -/
theorem load_refuses_retyped :
    ∃ x ws e ws', (sampleWorld.play retypingDeeds).clients 0 = some x ∧
      (sampleRecord.Formed ∧ sampleRecord.Fits x.dataset.live) ∧
      x.dataset.saveRecord sampleRecord (sampleWorld.play retypingDeeds).workspace = .ok () ws ∧
      x.dataset.loadRecord sampleRecord.id ws = .error e ws' := by
  have hcheck : ((sampleWorld.play retypingDeeds).granted? 0 fun d =>
      d.saveRecord sampleRecord).any (fun g => decide (
        (∀ e ∈ sampleRecord.values.entries,
          (g.1.dataset.live.declares? e.1).any (fun t => Value.fits t e.2) = true) ∧
        (given? (g.1.dataset.loadRecord sampleRecord.id g.2.2)).isNone = true)) = true := by
    decide +kernel
  obtain ⟨g, hg, hcheck⟩ := (Option.any_eq_true _ _).1 hcheck
  obtain ⟨hfits, hrefused⟩ := of_decide_eq_true hcheck
  obtain ⟨hx, hop⟩ := granted?_eq_some hg
  obtain ⟨e, ws', hload⟩ := given?_eq_none (Option.isNone_iff_eq_none.1 hrefused)
  exact ⟨g.1, g.2.2, e, ws', hx, ⟨⟨by decide +kernel, by decide +kernel⟩, hfits⟩, hop, hload⟩

end Sample

end World
end SchemaKeeper
