import SchemaKeeper.Proofs.Record.Writable
import SchemaKeeper.Proofs.Session.Backed
import SchemaKeeper.Proofs.Session.Deletion
import SchemaKeeper.Proofs.Session.Records

/-!
# Which records a session accepts

The values of a record are checked when they are set, and the store checks what is written of them.
For a client in step whose live schema is the persisted one both checks agree: a record of which
every value fits is saved.
-/
namespace SchemaKeeper

open Catalog Op

namespace World
variable {c : Connection} {w₀ : World} {deeds : List Deed} {d : Dataset} {held : Holding}
  {stored : Definition} {r : Record} {k : DocClass}

/-- A record whose values are instances of the live schema, and writable, is saved into a dataset
that is held in step and whose live schema is the persisted one, if no class that was brought in
asks for a unique index. -/
theorem save_accepts (hb : w₀.Blank) (ho : ∀ e ∈ deeds, e.Over c)
    (hplain : ∀ e ∈ deeds, e.IsPlain) (hf : (w₀.play deeds).workspace.supply.Fits c.definitions)
    (hstep : InStep c (w₀.play deeds) d held stored)
    (hlive : Layout.Describes stored.fields d.live) (hroot : Dataset.rootClass d.live = .ok k)
    (hid : ∀ e ∈ d.live.entries, Path.leaf e.1 ≠ "_id") (hformed : r.Formed)
    (hfits : r.Fits d.live) (hwritable : r.IsWritable d.live) :
    ∃ ws, d.saveRecord r (w₀.play deeds).workspace = .ok () ws := by
  obtain ⟨schema, hdescribes, hscreens⟩ := hstep.screens hb ho hf
  have hplain := hstep.plain hb ho hf hplain
  obtain ⟨root, hseat⟩ := hlive.root_collection (Dataset.rootClass_eq_ok.1 hroot)
  have hcollections : FieldDefinition.collections stored.fields = held.definition.collections :=
    hstep.collections.symm
  rw [hcollections] at hseat
  have hseated : d.live.IsSeated held.definition.collections := by
    refine ⟨fun path t ht hn => hcollections ▸ hlive.seat ht hn, fun path hleaf => ?_⟩
    cases hget : d.live.get? path with
    | none => rfl
    | some f => exact absurd hleaf (hid (path, f) (Keyed.mem_entries_iff.2 hget))
  exact Dataset.exists_saveRecord hstep.holding (hscreens.alike (hdescribes.alike hlive)) hplain
    (hwritable.admitted hformed hfits hseated hseat)

section Sample
open Layout

theorem save_accepts_sample :
    ∃ x ws, (sampleWorld.play twoDatasets).clients 0 = some x ∧
      sampleRecord.Fits x.dataset.live ∧
      x.dataset.saveRecord sampleRecord (sampleWorld.play twoDatasets).workspace = .ok () ws := by
  have hcheck : ((sampleWorld.play twoDatasets).clients 0).any (fun x =>
      x.dataset.standing.holding?.any fun held =>
        (sampleConnection.stored? (sampleWorld.play twoDatasets).workspace.store.catalog
          held.definition.id).any fun stored => decide (
            held.definition.fields = stored.fields ∧
            (∀ f ∈ stored.fields, f.type.isCounted = true) ∧
            Describes stored.fields x.dataset.live ∧
            (Dataset.rootClass x.dataset.live).toOption.isSome = true ∧
            (∀ e ∈ x.dataset.live.entries, Path.leaf e.1 ≠ "_id") ∧
            (∀ e ∈ sampleRecord.values.entries,
              (x.dataset.live.declares? e.1).any (fun t => Value.fits t e.2) = true) ∧
            ∀ e ∈ sampleRecord.values.entries, ∀ t ∈ x.dataset.live.declares? e.1,
              e.2.isWritable x.dataset.live e.1 t = true)) = true := by
    decide +kernel
  obtain ⟨x, hx, hcheck⟩ := (Option.any_eq_true _ _).1 hcheck
  obtain ⟨held, hheld, hcheck⟩ := (Option.any_eq_true _ _).1 hcheck
  obtain ⟨stored, hstored, hcheck⟩ := (Option.any_eq_true _ _).1 hcheck
  obtain ⟨hsame, hcounted, hlive, hclass, hid, hfits, hwritable⟩ := of_decide_eq_true hcheck
  have hover : ∀ e ∈ twoDatasets, e.Over sampleConnection :=
    over_acts (Connection.quiet_plain _ _) _
  have hplain : ∀ e ∈ twoDatasets, e.IsPlain := by
    have hclasses : sampleConnection.classes.IsPlain := by decide +kernel
    have hsample : sampleClass.rootSchema.IsPlain := by decide +kernel
    have hbox : boxClass.rootSchema.IsPlain := by decide +kernel
    exact List.forall_mem_cons.2 ⟨⟨hclasses, hsample⟩,
      List.forall_mem_singleton.2 ⟨hclasses, hbox⟩⟩
  have hformed : sampleRecord.Formed := ⟨by decide +kernel, by decide +kernel⟩
  have hf : (sampleWorld.play twoDatasets).workspace.supply.Fits sampleConnection.definitions :=
    .of_isFit (by decide) (by decide +kernel)
  cases hk : Dataset.rootClass x.dataset.live with
  | error e =>
    rw [hk] at hclass
    cases hclass
  | ok k =>
    obtain ⟨ws, hop⟩ := save_accepts ⟨rfl, rfl, fun _ => rfl⟩ hover hplain hf
      ⟨hheld, hstored, congrArg FieldDefinition.collections hsame, hcounted⟩ hlive hk hid hformed
      hfits hwritable
    exact ⟨x, ws, hx, hfits, hop⟩

/-- A client adds the field that another one has already committed. -/
def anewActs : List Act := staleActs ++ [.addField 0 "cover" (.document boxClass)]

/-- A sample with a cover. -/
def coveredRecord : Record :=
  ⟨Uuid.ofNat 1000, sampleClass, .ofList [("cover", .value (.document (Uuid.ofNat 1001) "Box"
    [("corner", .float (.ofInt 1))]))]⟩

/-- A live schema that is the persisted one is not enough for a record to be saved: the client that
has added a field anew that another one had committed writes into the collections of the definition
that it has seen, and there is none for the field. -/
theorem save_refuses_unseen :
    ∃ x held stored e ws, (sampleWorld.run sampleConnection anewActs).clients 0 = some x ∧
      x.dataset.standing.holding? = some held ∧
      sampleConnection.stored? (sampleWorld.run sampleConnection anewActs).workspace.store.catalog
        held.definition.id = some stored ∧
      Describes stored.fields x.dataset.live ∧
      (∀ e ∈ x.dataset.live.entries, Path.leaf e.1 ≠ "_id") ∧
      (coveredRecord.Formed ∧ coveredRecord.Fits x.dataset.live ∧
        coveredRecord.IsWritable x.dataset.live) ∧
      x.dataset.saveRecord coveredRecord
        (sampleWorld.run sampleConnection anewActs).workspace = .error e ws := by
  have hcheck : ((sampleWorld.run sampleConnection anewActs).clients 0).any (fun x =>
      x.dataset.standing.holding?.any fun held =>
        (sampleConnection.stored? (sampleWorld.run sampleConnection anewActs).workspace.store.catalog
          held.definition.id).any fun stored => decide (
            Describes stored.fields x.dataset.live ∧
            (∀ e ∈ x.dataset.live.entries, Path.leaf e.1 ≠ "_id") ∧
            (∀ e ∈ coveredRecord.values.entries,
              (x.dataset.live.declares? e.1).any (fun t => Value.fits t e.2) = true) ∧
            (∀ e ∈ coveredRecord.values.entries, ∀ t ∈ x.dataset.live.declares? e.1,
              e.2.isWritable x.dataset.live e.1 t = true) ∧
            (given? (x.dataset.saveRecord coveredRecord
              (sampleWorld.run sampleConnection anewActs).workspace)).isNone = true)) = true := by
    decide +kernel
  obtain ⟨x, hx, hcheck⟩ := (Option.any_eq_true _ _).1 hcheck
  obtain ⟨held, hheld, hcheck⟩ := (Option.any_eq_true _ _).1 hcheck
  obtain ⟨stored, hstored, hcheck⟩ := (Option.any_eq_true _ _).1 hcheck
  obtain ⟨hlive, hid, hfits, hwritable, hrefused⟩ := of_decide_eq_true hcheck
  obtain ⟨e, ws, hop⟩ := given?_eq_none (Option.isNone_iff_eq_none.1 hrefused)
  exact ⟨x, held, stored, e, ws, hx, hheld, hstored, hlive, hid,
    ⟨⟨by decide +kernel, by decide +kernel⟩, hfits, hwritable⟩, hop⟩

end Sample

end World
end SchemaKeeper
