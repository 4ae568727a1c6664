import SchemaKeeper.Proofs.Record.Mirrored
import SchemaKeeper.Proofs.Session.Backed
import SchemaKeeper.Proofs.Session.Records

/-!
# The classes of documents inside a record

A document inside a record is stored under its identifier, in the collection of its path, and its
class is not stored.  A loaded record has each document at its position again, of the class that the
live schema has at its path.
-/
namespace SchemaKeeper

open Catalog Op

namespace Dataset
variable {d : Dataset} {ws ws' later later' : Workspace} {held : Holding}
  {ds : List FieldDefinition} {r : Record}

/-- The documents inside a record that was let through are settled in a catalog where they stand. -/
theorem housed_of_admitted {catalog : Catalog} {s : Schema} (hd : Layout.Describes ds s)
    (hr : r.Formed) (ha : ∀ p ∈ r.written, p.Admitted s (FieldDefinition.collections ds))
    (hstands : Record.Stands catalog (FieldDefinition.collections ds) r.documents) :
    Record.Housed catalog s (FieldDefinition.collections ds) r.documents := by
  refine ⟨hstands, fun _ _ _ _ => Value.fieldsDocuments_subset, fun _ _ _ _ hmem =>
    Record.suited_of_mem_documents hd hd.keepsTypes hr ha hmem, fun _ _ _ _ hmem => ?_⟩
  obtain ⟨name, hname⟩ :=
    (ha _ (List.mem_append_left _ (Record.mem_parts.2 ⟨_, hmem, rfl⟩))).seat
  exact hd.classAt_ok hname

/-- A record that was saved is mirrored by what is loaded, if the documents inside it with one path
and one identifier have the same stored form. -/
theorem loadRecord_mirrors (hkeeps : ws.store.catalog.Keeps)
    (hheld : d.standing.holding? = some held)
    (hcollections : held.definition.collections = FieldDefinition.collections ds)
    (hapart : held.definition.collections.Apart)
    (hscreens : ws.store.catalog.Screens held.definition.collections d.live)
    (hlive : Layout.Describes ds d.live) (hr : r.Formed) (hu : r.Unambiguous)
    (h : d.saveRecord r ws = .ok () ws') (hlater : later.visible = ws'.visible)
    {answer : Option Record} (hload : d.loadRecord r.id later = .ok answer later') :
    ∃ loaded, answer = some loaded ∧ Value.Mirrors d.live "" r.whole loaded.whole := by
  have hadmitted := admitted_of_saveRecord hheld hscreens h
  obtain ⟨root, stored, hroot, hstored, hjson, hcovers⟩ :=
    exists_saved hkeeps hheld hapart hr h hlater
  obtain ⟨-, held', k, root', hheld', hk, hroot', hanswer⟩ := loadRecord_ok hload
  obtain rfl : held' = held := Option.some.inj (hheld'.symm.trans hheld)
  obtain rfl : root' = root := Option.some.inj (hroot'.symm.trans hroot)
  rw [hstored] at hanswer
  obtain ⟨loaded, hloaded, hread⟩ := hanswer
  rw [hcollections] at hadmitted hcovers hread
  have hhoused := housed_of_admitted hlive hr hadmitted (hcovers.stands hu)
  have hclass : Layout.classAt d.live "" = .ok k :=
    Layout.classAt_eq_ok.2 ⟨.document k, rootClass_eq_ok.1 hk, rfl⟩
  exact ⟨loaded, hloaded, hhoused.mirrors_ofDocument hr
    (Record.suited_root hlive hlive.keepsTypes hadmitted) hclass hjson hread⟩

end Dataset

namespace World
variable {c : Connection} {w₀ : World} {deeds : List Deed} {d : Dataset} {held : Holding}
  {stored : Definition} {r : Record} {ws later later' : Workspace}

/-- What was saved into a dataset held in step whose live schema is the persisted one, once it is
loaded again before something else is written, has every document of the record at its position: a
document of the same identifier, and of the class that the live schema has at its path.  The
documents of the record that have one path and one identifier must have the same stored form. -/
theorem load_mirrors (hb : w₀.Blank) (ho : ∀ e ∈ deeds, e.Over c)
    (hstep : InStep c (w₀.play deeds) d held stored)
    (hlive : Layout.Describes stored.fields d.live) (hformed : r.Formed) (hu : r.Unambiguous)
    (hop : d.saveRecord r (w₀.play deeds).workspace = .ok () ws)
    (hf : ws.supply.Fits c.definitions) (hlater : later.visible = ws.visible)
    {answer : Option Record} (hload : d.loadRecord r.id later = .ok answer later') :
    ∃ loaded, answer = some loaded ∧ ∀ position id className fields,
      r.whole.inside? position = some (.document id className fields) →
        ∃ k fields', Layout.classAt d.live (Value.pathOf "" position) = .ok k ∧
          loaded.whole.inside? position = some (.document id k.name fields') := by
  obtain ⟨_, _, _, _, hran⟩ := Dataset.saveRecord_ok hop
  have hf : (w₀.play deeds).workspace.supply.Fits c.definitions := hf.of_later hran.supply_later
  obtain ⟨schema, hdescribes, hscreens⟩ := hstep.screens hb ho hf
  exact Dataset.loadRecord_mirrors (keeps_play hb ho hf) hstep.holding hstep.collections
    (hstep.apart hb ho hf) (hscreens.alike (hdescribes.alike hlive)) hlive hformed hu hop hlater
    hload

section Sample
open Layout

/-- A client has a dataset of samples whose boxes have lids, which are boxes as well. -/
def lidDeeds : List Deed :=
  [.create 0 "d" sampleClass.rootSchema none false, .addField 0 "boxes.lid" (.document boxClass),
    .commit 0].map (.act sampleConnection)

/-- A box with a lid of some class. -/
def lidded (lid : Nat) (className : String) : Value :=
  .document (Uuid.ofNat 1001) "Box"
    [("corner", .float (.ofInt 1)), ("lid", .document (Uuid.ofNat lid) className [])]

/-- A sample with boxes. -/
def boxedRecord (boxes : List Value) : Record :=
  ⟨Uuid.ofNat 1000, sampleClass, .ofList [("boxes", .list ⟨"boxes", 0⟩ (boxes.map .value))]⟩

/-- Where the lid of a box is. -/
def lidOf (box : Nat) : List Value.Way := [.field "boxes", .item box, .field "lid"]

/-- The client saves a record and loads it again. -/
def reloads (r : Record) (d : Dataset) : Op Refusal (Option Record) := do
  d.saveRecord r
  d.loadRecord r.id

/-- What a client needs to be in step with the store, and to have the persisted schema. -/
def inStep? (w : World) (x : Client) : Bool :=
  x.dataset.standing.holding?.any fun held =>
    (sampleConnection.stored? w.workspace.store.catalog held.definition.id).any fun stored =>
      decide (held.definition.fields = stored.fields ∧
        (∀ f ∈ stored.fields, f.type.isCounted = true) ∧ Describes stored.fields x.dataset.live)

theorem exists_inStep {w : World} {x : Client} (h : inStep? w x = true) :
    ∃ held stored, InStep sampleConnection w x.dataset held stored ∧
      Describes stored.fields x.dataset.live := by
  obtain ⟨held, hheld, h⟩ := (Option.any_eq_true _ _).1 h
  obtain ⟨stored, hstored, h⟩ := (Option.any_eq_true _ _).1 h
  obtain ⟨hsame, hcounted, hlive⟩ := of_decide_eq_true h
  exact ⟨held, stored, ⟨hheld, hstored, congrArg FieldDefinition.collections hsame, hcounted⟩,
    hlive⟩

/-- What the client loads of a record of instances passes a test. -/
def reloads? (w : World) (x : Client) (r : Record) (p : Record → Bool) : Bool :=
  decide (∀ e ∈ r.values.entries,
    (x.dataset.live.declares? e.1).any (fun t => Value.fits t e.2) = true) &&
  (given? (reloads r x.dataset w.workspace)).any fun g => g.1.any p

theorem exists_reloads {w : World} {x : Client} {r : Record} {p : Record → Bool}
    (h : reloads? w x r p = true) : r.Fits x.dataset.live ∧
      ∃ loaded ws, reloads r x.dataset w.workspace = .ok (some loaded) ws ∧ p loaded = true := by
  obtain ⟨hfits, h⟩ := Bool.and_eq_true_iff.1 h
  obtain ⟨g, hg, h⟩ := (Option.any_eq_true _ _).1 h
  obtain ⟨loaded, hloaded, hp⟩ := (Option.any_eq_true _ _).1 h
  have hg := given?_eq_some hg
  rw [hloaded] at hg
  have hfits : ∀ e ∈ r.values.entries,
      (x.dataset.live.declares? e.1).any (fun t => Value.fits t e.2) = true :=
    of_decide_eq_true hfits
  exact ⟨hfits, loaded, g.2, hg, hp⟩

theorem load_mirrors_sample :
    ∃ x ws ws' loaded, (sampleWorld.play lidDeeds).clients 0 = some x ∧
      x.dataset.saveRecord (boxedRecord [lidded 1002 "Box"]) (sampleWorld.play lidDeeds).workspace =
        .ok () ws ∧
      x.dataset.loadRecord (Uuid.ofNat 1000) ws = .ok (some loaded) ws' ∧
      ∃ k fields, classAt x.dataset.live "boxes.lid" = .ok k ∧
        loaded.whole.inside? (lidOf 0) = some (.document (Uuid.ofNat 1002) k.name fields) := by
  have hcheck : ((sampleWorld.play lidDeeds).granted? 0 fun d =>
      d.saveRecord (boxedRecord [lidded 1002 "Box"])).any (fun g =>
        inStep? (sampleWorld.play lidDeeds) g.1 && g.2.2.supply.isFit &&
          (given? (g.1.dataset.loadRecord (Uuid.ofNat 1000) g.2.2)).isSome) = true := by
    decide +kernel
  obtain ⟨g, hg, hcheck⟩ := (Option.any_eq_true _ _).1 hcheck
  obtain ⟨hcheck, hload⟩ := Bool.and_eq_true_iff.1 hcheck
  obtain ⟨hin, hfit⟩ := Bool.and_eq_true_iff.1 hcheck
  obtain ⟨hx, hop⟩ := granted?_eq_some hg
  obtain ⟨held, stored, hstep, hlive⟩ := exists_inStep hin
  obtain ⟨back, hback⟩ := Option.isSome_iff_exists.1 hload
  have hload := given?_eq_some hback
  obtain ⟨loaded, hloaded, hmirrors⟩ := load_mirrors ⟨rfl, rfl, fun _ => rfl⟩
    (over_acts (Connection.quiet_plain _ _) _) hstep hlive ⟨by decide +kernel, by decide +kernel⟩
    (by decide +kernel) hop (.of_isFit (by decide) hfit) rfl hload
  rw [hloaded] at hload
  exact ⟨g.1, g.2.2, back.2, loaded, hx, hop, hload, hmirrors (lidOf 0) _ _ _ rfl⟩

/-- A loaded record does not always have the documents that were saved.  A lid that is no box,
inside a box that is one, comes back as a box; and of two boxes with one identifier but different
lids, both come back with the lid of the one that was written last. -/
theorem load_changes_documents :
    ∃ x held stored, (sampleWorld.play lidDeeds).clients 0 = some x ∧
      InStep sampleConnection (sampleWorld.play lidDeeds) x.dataset held stored ∧
      Describes stored.fields x.dataset.live ∧
      (∃ r loaded ws, r.Formed ∧ r.Fits x.dataset.live ∧ r.Unambiguous ∧
        reloads r x.dataset (sampleWorld.play lidDeeds).workspace = .ok (some loaded) ws ∧
        (r.whole.inside? (lidOf 0)).bind Value.className? = some "Shelf" ∧
        (loaded.whole.inside? (lidOf 0)).bind Value.className? = some "Box") ∧
      ∃ r loaded ws, r.Formed ∧ r.Fits x.dataset.live ∧
        reloads r x.dataset (sampleWorld.play lidDeeds).workspace = .ok (some loaded) ws ∧
        (r.whole.inside? (lidOf 1)).bind Value.documentId? = some (Uuid.ofNat 1003) ∧
        (loaded.whole.inside? (lidOf 1)).bind Value.documentId? = some (Uuid.ofNat 1002) := by
  have hcheck : ((sampleWorld.play lidDeeds).clients 0).any (fun x =>
      inStep? (sampleWorld.play lidDeeds) x &&
      reloads? (sampleWorld.play lidDeeds) x (boxedRecord [lidded 1002 "Shelf"])
        (fun loaded => (loaded.whole.inside? (lidOf 0)).bind Value.className? == some "Box") &&
      reloads? (sampleWorld.play lidDeeds) x (boxedRecord [lidded 1002 "Box", lidded 1003 "Box"])
        fun loaded => (loaded.whole.inside? (lidOf 1)).bind Value.documentId? ==
          some (Uuid.ofNat 1002)) = true := by
    decide +kernel
  obtain ⟨x, hx, hcheck⟩ := (Option.any_eq_true _ _).1 hcheck
  obtain ⟨hcheck, htwice⟩ := Bool.and_eq_true_iff.1 hcheck
  obtain ⟨hin, hshelf⟩ := Bool.and_eq_true_iff.1 hcheck
  obtain ⟨held, stored, hstep, hlive⟩ := exists_inStep hin
  obtain ⟨hfits, loaded, ws, hloads, hclass⟩ := exists_reloads hshelf
  obtain ⟨hfits', loaded', ws', hloads', hid⟩ := exists_reloads htwice
  refine ⟨x, held, stored, hx, hstep, hlive, ⟨_, loaded, ws, ⟨?_, ?_⟩, hfits, ?_, hloads, ?_,
    eq_of_beq hclass⟩, _, loaded', ws', ⟨?_, ?_⟩, hfits', hloads', ?_, eq_of_beq hid⟩
  all_goals decide +kernel

end Sample

end World
end SchemaKeeper
