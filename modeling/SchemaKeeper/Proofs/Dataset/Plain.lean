import SchemaKeeper.Proofs.Dataset.Acceptance
import SchemaKeeper.Proofs.Dataset.Writes

/-!
# Where no index is unique

A class may ask for unique indexes.  Where none of the classes that are brought in does, only the
collection of definitions ever has one.
-/
namespace SchemaKeeper

open Catalog

/-! ## Classes, registries, schemas and datasets -/

/-- The class asks for no unique index. -/
def DocClass.IsPlain (k : DocClass) : Prop := ∀ i ∈ k.indexes, i.unique = false

/-- The class that the type ends in, if it ends in one, asks for no unique index. -/
def FieldType.IsPlain (t : FieldType) : Prop := ∀ k ∈ t.nested?, k.IsPlain

/-- No registered class asks for a unique index. -/
def Registry.IsPlain (r : Registry) : Prop := ∀ e ∈ r.entries, e.2.IsPlain

/-- No class in the schema asks for a unique index. -/
def Schema.IsPlain (s : Schema) : Prop := ∀ e ∈ s.entries, ∀ t ∈ e.2.type, FieldType.IsPlain t

instance : DecidablePred DocClass.IsPlain := fun k =>
  inferInstanceAs (Decidable (∀ i ∈ k.indexes, i.unique = false))

instance : DecidablePred FieldType.IsPlain := fun t =>
  inferInstanceAs (Decidable (∀ k ∈ t.nested?, k.IsPlain))

instance : DecidablePred Registry.IsPlain := fun r =>
  inferInstanceAs (Decidable (∀ e ∈ r.entries, e.2.IsPlain))

instance : DecidablePred Schema.IsPlain := fun s =>
  inferInstanceAs (Decidable (∀ e ∈ s.entries, ∀ t ∈ e.2.type, FieldType.IsPlain t))

/-- What a schema asks for at a path is not unique. -/
theorem Schema.IsPlain.indexesAt_not_unique {s : Schema} (h : s.IsPlain) (path : String) :
    ∀ i ∈ Provision.indexesAt s path, i.unique = false := by
  intro i hi
  obtain ⟨k, hk, hasked⟩ := Schema.All.indexesAt (p := DocClass.IsPlain) h hi
  exact hk i hasked

/-- What a dataset brings to its operations asks for no unique index. -/
structure Dataset.IsPlain (d : Dataset) : Prop where
  classes : d.connection.classes.IsPlain
  live : d.live.IsPlain

/-! ## Catalogs -/

/-- The write makes no unique index but on the collection of the definitions. -/
def Write.IsPlain (definitions : String) : Write → Prop
  | .createIndex name index => name ≠ definitions → index.unique = false
  | _ => True

theorem Write.Usual.isPlain {definitions : String} {q : Json → Prop} {w : Write}
    (h : w.Usual definitions DocClass.IsPlain q) : w.IsPlain definitions := by
  cases h with
  | nameIndex => exact fun hne => absurd rfl hne
  | classIndex name asks asked => exact fun _ => asks _ asked
  | _ => trivial

namespace Catalog
variable {definitions : String} {catalog next : Catalog}

/-- No collection beside that of the definitions has a unique index. -/
def PlainBeside (definitions : String) (catalog : Catalog) : Prop :=
  ∀ name state, name ≠ definitions → catalog.collections.get? name = some state → state.IsPlain

theorem PlainBeside.congr (h : catalog.PlainBeside definitions)
    (hc : next.collections = catalog.collections) : next.PlainBeside definitions := by
  intro name state hn hs
  exact h name state hn (hc ▸ hs)

theorem PlainBeside.perform {w : Write} (hw : w.IsPlain definitions) {answer : Bool}
    (hc : catalog.PlainBeside definitions) (h : catalog.perform w = .ok (answer, next)) :
    next.PlainBeside definitions := by
  intro name state hn hs
  obtain hs | ⟨rfl, hmakes⟩ := kept_or_made h hs
  · exact hc name state hn hs
  cases hmakes with
  | createCollection => exact fun i hi => absurd hi List.not_mem_nil
  | createIndex found =>
    exact List.forall_mem_append.2 ⟨hc _ _ hn found, List.forall_mem_singleton.2 (hw hn)⟩
  | setValidator found | insertOne found | replaceOne found | deleteOne found =>
    have hplain := hc _ _ hn found
    exact hplain

theorem keptBy_plainBeside {q : Json → Prop} :
    KeptBy (Write.Usual definitions DocClass.IsPlain q) (PlainBeside definitions) :=
  ⟨fun hw h hp => hp.perform hw.isPlain h, fun hc hp => hp.congr hc⟩

end Catalog

end SchemaKeeper
