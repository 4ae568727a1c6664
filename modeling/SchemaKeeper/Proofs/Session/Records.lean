import SchemaKeeper.Proofs.Dataset.Saved
import SchemaKeeper.Proofs.Session.Sound

/-!
# Records in a session

Whatever the clients of a session did before, a canonical record that a client saves is loaded again
by this client, until something else is written.  What is stored of a record does not say its class:
the record comes back with the class that the live schema has at its root.
-/
namespace SchemaKeeper

open Op

namespace World
variable {c : Connection} {w₀ : World} {deeds : List Deed} {i : Nat} {x : Client} {r : Record}
  {ws later : Workspace}

/-- A canonical record whose values are instances of the live schema, once it was saved, is loaded
with the same identifier and equal values.  It is then of the class that the live schema has at its
root, whatever its class was before; where the schema has none there, loading is refused. -/
theorem load_saved (hb : w₀.Blank) (ho : ∀ e ∈ deeds, e.Over c)
    (hx : (w₀.play deeds).clients i = some x) (hformed : r.Formed) (hfits : r.Fits x.dataset.live)
    (hcanonical : r.Canonical x.dataset.live)
    (hop : x.dataset.saveRecord r (w₀.play deeds).workspace = .ok () ws)
    (hf : ws.supply.Fits c.definitions) (hlater : later.visible = ws.visible) :
    match Dataset.rootClass x.dataset.live with
    | .ok k => ∃ loaded, x.dataset.loadRecord r.id later = .ok (some loaded) later ∧
      loaded.id = r.id ∧ loaded.root = k ∧ (loaded.values == r.values) = true
    | .error e => x.dataset.loadRecord r.id later = .error e later := by
  obtain ⟨held, hheld, _, _, hran⟩ := Dataset.saveRecord_ok hop
  have hblank : Steady False c (fun k => (w₀.workspace.supply.ids k, "")) w₀ :=
    steady_of_blank hb _
  obtain ⟨l, -, hsteady, -⟩ :=
    play_carries ho False.elim hblank (hf.of_later hran.supply_later)
  have htraced := ((hsteady.holds i x hx held hheld).traced).mono hran.supply_later fun _ _ => rfl
  cases hk : Dataset.rootClass x.dataset.live with
  | ok k =>
    exact Dataset.loadRecord_saved hsteady.stocked.keeps hheld htraced hf hk hformed hfits
      hcanonical hop hlater
  | error e =>
    exact Dataset.loadRecord_of_rootClass_error (Dataset.collections_eq_ok.2 ⟨held, hheld, rfl⟩)
      hk r.id

section Sample
open Layout

/-- A client has a dataset of samples, another one a dataset of boxes. -/
def twoDatasets : List Deed :=
  [.create 0 "d" sampleClass.rootSchema none false,
    .create 1 "e" boxClass.rootSchema none false].map (.act sampleConnection)

/-- A sample with two boxes. -/
def sampleRecord : Record :=
  ⟨Uuid.ofNat 1000, sampleClass, .ofList [("boxes", .list ⟨"boxes", 0⟩
    [.value (.document (Uuid.ofNat 1001) "Box" [("corner", .float (.ofInt 1))]),
      .value (.document (Uuid.ofNat 1002) "Box" [("corner", .float (.ofInt 2))])])]⟩

theorem load_saved_sample :
    ∃ x ws loaded, (sampleWorld.play twoDatasets).clients 0 = some x ∧
      x.dataset.saveRecord sampleRecord (sampleWorld.play twoDatasets).workspace = .ok () ws ∧
      x.dataset.loadRecord sampleRecord.id ws = .ok (some loaded) ws ∧
      loaded.id = sampleRecord.id ∧ loaded.root.name = sampleRecord.root.name ∧
      (loaded.values == sampleRecord.values) = true := by
  have hcheck : ((sampleWorld.play twoDatasets).granted? 0 fun d => d.saveRecord sampleRecord).any
      (fun g => decide (
        (∀ e ∈ sampleRecord.values.entries,
          (g.1.dataset.live.declares? e.1).any (fun t => Value.fits t e.2) = true) ∧
        Value.fieldsCanonical g.1.dataset.live "" sampleRecord.values.entries = true ∧
        g.2.2.supply.isFit = true ∧
        (Dataset.rootClass g.1.dataset.live).toOption.map DocClass.name =
          some sampleRecord.root.name)) = true := by
    decide +kernel
  obtain ⟨g, hg, hcheck⟩ := (Option.any_eq_true _ _).1 hcheck
  obtain ⟨hfits, hfields, hfit, hclass⟩ := of_decide_eq_true hcheck
  obtain ⟨hx, hop⟩ := granted?_eq_some hg
  have hover : ∀ e ∈ twoDatasets, e.Over sampleConnection :=
    over_acts (Connection.quiet_plain _ _) _
  have hformed : sampleRecord.Formed := ⟨by decide +kernel, by decide +kernel⟩
  have hconsistent : ∀ a ∈ sampleRecord.documents, ∀ b ∈ sampleRecord.documents, a.1 = b.1 →
      a.2.documentId? = b.2.documentId? → a.2.same b.2 = true := by decide +kernel
  have hload := load_saved (r := sampleRecord) ⟨rfl, rfl, fun _ => rfl⟩ hover hx hformed hfits
    ⟨hfields, hconsistent⟩ hop (.of_isFit (by decide) hfit) rfl
  cases hk : Dataset.rootClass g.1.dataset.live with
  | error e =>
    rw [hk] at hclass
    cases hclass
  | ok k =>
    rw [hk] at hclass hload
    obtain ⟨loaded, hloaded, hid, rfl, hvalues⟩ := hload
    injection hclass with hclass
    exact ⟨g.1, g.2.2, loaded, hx, hop, hloaded, hid, hclass, hvalues⟩

/-- A client saves a record that another one has just made. -/
def savesNew (x maker : Dataset) : Op Refusal Record := do
  let r ← maker.newRecord
  x.saveRecord r
  return r

/-- A record without values is canonical at every schema. -/
theorem canonical_of_isEmpty (h : r.values.entries.isEmpty = true) (s : Schema) :
    r.Formed ∧ r.Fits s ∧ r.Canonical s := by
  have hnil : r.values.entries = [] := List.isEmpty_iff.1 h
  have hnone : ∀ e, e ∉ r.values.entries := by
    intro e he
    rw [hnil] at he
    cases he
  have hdocuments : r.documents = [] := by
    rw [Record.documents, hnil]
    rfl
  refine ⟨⟨fun e he => absurd he (hnone e), ?_⟩, fun e he => absurd he (hnone e), ?_, ?_⟩
  · rw [hnil]
    rfl
  · rw [hnil]
    rfl
  · intro a ha
    rw [hdocuments] at ha
    cases ha

/-- Loading does not always give back what was saved.  A record that the client of the boxes made is
loaded as a sample by the client of the samples; and when this client has taken everything out of
its live schema, it can still save a record of its own but not load it. -/
theorem load_not_inverse :
    ∃ x y, (sampleWorld.play twoDatasets).clients 0 = some x ∧
      (sampleWorld.play twoDatasets).clients 1 = some y ∧
      (∃ r ws loaded ws',
        savesNew x.dataset y.dataset (sampleWorld.play twoDatasets).workspace = .ok r ws ∧
        (r.Formed ∧ r.Fits x.dataset.live ∧ r.Canonical x.dataset.live) ∧
        x.dataset.loadRecord r.id ws = .ok (some loaded) ws' ∧ loaded.root.name ≠ r.root.name) ∧
      ∃ bare, bare = { x.dataset with live := .empty } ∧ ∃ r ws e ws',
        savesNew bare x.dataset (sampleWorld.play twoDatasets).workspace = .ok r ws ∧
        (r.Formed ∧ r.Fits bare.live ∧ r.Canonical bare.live) ∧
        bare.loadRecord r.id ws = .error e ws' := by
  have hcheck : ((sampleWorld.play twoDatasets).clients 0).any (fun x =>
      ((sampleWorld.play twoDatasets).clients 1).any fun y =>
        ((given? (savesNew x.dataset y.dataset (sampleWorld.play twoDatasets).workspace)).any
          fun g => g.1.values.entries.isEmpty &&
            (given? (x.dataset.loadRecord g.1.id g.2)).any fun back =>
              back.1.any fun loaded => loaded.root.name != g.1.root.name) &&
        (given? (savesNew { x.dataset with live := .empty } x.dataset
            (sampleWorld.play twoDatasets).workspace)).any
          fun g => g.1.values.entries.isEmpty &&
            (given? (Dataset.loadRecord { x.dataset with live := .empty } g.1.id g.2)).isNone)
      = true := by
    decide +kernel
  obtain ⟨x, hx, hcheck⟩ := (Option.any_eq_true _ _).1 hcheck
  obtain ⟨y, hy, hcheck⟩ := (Option.any_eq_true _ _).1 hcheck
  obtain ⟨hclass, hbare⟩ := Bool.and_eq_true_iff.1 hcheck
  refine ⟨x, y, hx, hy, ?_, { x.dataset with live := .empty }, rfl, ?_⟩
  · obtain ⟨g, hg, hclass⟩ := (Option.any_eq_true _ _).1 hclass
    obtain ⟨hempty, hclass⟩ := Bool.and_eq_true_iff.1 hclass
    obtain ⟨back, hback, hclass⟩ := (Option.any_eq_true _ _).1 hclass
    obtain ⟨loaded, hloaded, hclass⟩ := (Option.any_eq_true _ _).1 hclass
    have hload := given?_eq_some hback
    rw [hloaded] at hload
    exact ⟨g.1, g.2, loaded, back.2, given?_eq_some hg, canonical_of_isEmpty hempty _, hload,
      bne_iff_ne.1 hclass⟩
  · obtain ⟨g, hg, hbare⟩ := (Option.any_eq_true _ _).1 hbare
    obtain ⟨hempty, hbare⟩ := Bool.and_eq_true_iff.1 hbare
    obtain ⟨e, ws', hrefused⟩ := given?_eq_none (Option.isNone_iff_eq_none.1 hbare)
    exact ⟨g.1, g.2, e, ws', given?_eq_some hg, canonical_of_isEmpty hempty _, hrefused⟩

end Sample

end World
end SchemaKeeper
