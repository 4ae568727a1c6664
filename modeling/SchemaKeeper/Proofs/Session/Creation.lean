import SchemaKeeper.Proofs.Dataset.Creatable
import SchemaKeeper.Proofs.Session.Naming

/-!
# Creations go through

Whatever clients have done to a store, in transactions that may have overlapped, a creation has all
that it needs there: it is refused for its schema or for its name, and for nothing else.
-/
namespace SchemaKeeper

open Catalog Op

namespace Traffic
variable {c : Connection} {w₀ : Traffic} {moves : List Move} {name : String} {s : Schema}
  {mediaType : Option MediaType} {persistent : Bool}

/-- In whatever way the transactions of clients overlapped, a creation succeeds exactly if the root
is a document, the name is not listed, all fields have types and all classes in these are
registered.  What is created has the paths and the types of the schema, and its fields are named by
the last segments of their paths. -/
theorem run_creatable_iff (hb : w₀.Blank) (ho : ∀ m ∈ moves, m.Over c.definitions)
    (hr : c.classes.Named)
    (hf : (after (Dataset.createFrom c name s mediaType persistent)
      (w₀.run moves).world.workspace).supply.Fits c.definitions) :
    ((∃ d ws', Dataset.createFrom c name s mediaType persistent
        (w₀.run moves).world.workspace = .ok d ws') ↔
      (∃ k, s.typeAt "" = .ok (.document k)) ∧
        name ∉ (w₀.run moves).world.workspace.store.catalog.listed c.definitions ∧
        s.IsDefinable c.classes) ∧
    ∀ d ws', Dataset.createFrom c name s mediaType persistent
        (w₀.run moves).world.workspace = .ok d ws' →
      ∀ path, (d.live.get? path).map (fun f => (f.name, f.type.map FieldType.descriptor)) =
        (s.get? path).map fun f => (Path.leaf path, f.type.map FieldType.descriptor) := by
  have hcommits : ∀ d ws', Dataset.createFrom c name s mediaType persistent
      (w₀.run moves).world.workspace = .ok d ws' → ws'.supply.Fits c.definitions :=
    fun d ws' hop => after_of_ok hop ▸ hf
  have hclosed : (w₀.run moves).world.workspace.transaction = none :=
    (run_closed hb.world.transaction).1
  obtain ⟨l, horderly⟩ := run_orderly ho
    (orderly_of_blank hb fun k => (w₀.world.workspace.supply.ids k, ""))
    (hf.of_later (Dataset.createFrom_later mediaType persistent hclosed))
  refine ⟨⟨fun ⟨d, ws', hop⟩ => ?_, fun ⟨⟨k, hroot⟩, hname, hdefinable⟩ => ?_⟩,
    fun d ws' hop => (Dataset.createFrom_mirrors hr (hcommits d ws' hop) hop).2.2.2⟩
  · obtain ⟨hroot, hfree, hdefinable, -⟩ :=
      Dataset.createFrom_mirrors hr (hcommits d ws' hop) hop
    refine ⟨hroot, fun hin => ?_, hdefinable⟩
    obtain ⟨d, hat, rfl⟩ := horderly.catalog.mem_listed.1 hin
    exact hfree _ _ hat d.get?_document_name
  · refine Dataset.exists_createFrom hclosed horderly.catalog hroot hdefinable
      (fun key document hdoc hsame => hname ?_) hf
    obtain ⟨d, rfl, -⟩ := horderly.catalog.recorded key document hdoc
    exact horderly.catalog.mem_listed.2
      ⟨d, horderly.catalog.key_eq hdoc ▸ hdoc, Definition.name_eq hsame⟩

section Sample
open Layout World

/-- After two clients have overlapped a further dataset can be created, but not under the name that
is listed. -/
theorem run_creatable_iff_overlapping :
    (∃ d ws', Dataset.createFrom sampleConnection "e" sampleClass.rootSchema none false
      (sampleTraffic.run overlappingMoves).world.workspace = .ok d ws') ∧
    ¬ ∃ d ws', Dataset.createFrom sampleConnection "d" sampleClass.rootSchema none false
      (sampleTraffic.run overlappingMoves).world.workspace = .ok d ws' := by
  have hover : ∀ m ∈ overlappingMoves, m.Over sampleConnection.definitions := by
    simp [overlappingMoves, Move.Over, Task.Over]
  have hblank : sampleTraffic.Blank := ⟨⟨rfl, rfl, fun _ => rfl⟩, fun _ => rfl⟩
  have hnamed : sampleConnection.classes.Named := Registry.named_register _ Registry.named_empty
  have hroot : ∃ k, sampleClass.rootSchema.typeAt "" = .ok (.document k) := ⟨_, rfl⟩
  have hcheck : (sampleTraffic.run overlappingMoves).world.workspace.store.catalog.listed
        sampleConnection.definitions = ["d"] ∧
      ∀ name ∈ ["d", "e"], (after (Dataset.createFrom sampleConnection name sampleClass.rootSchema
        none false) (sampleTraffic.run overlappingMoves).world.workspace).supply.isFit = true := by
    decide +kernel
  obtain ⟨hlisted, hfit⟩ := hcheck
  have hcreatable := fun name hn => (run_creatable_iff hblank hover hnamed
    (.of_isFit (by decide) (hfit name hn))).1
  refine ⟨(hcreatable "e" (by simp)).2 ⟨hroot, by simp [hlisted], by decide⟩, fun hd => ?_⟩
  exact ((hcreatable "d" (by simp)).1 hd).2.1 (by simp [hlisted])

end Sample

end Traffic
end SchemaKeeper
