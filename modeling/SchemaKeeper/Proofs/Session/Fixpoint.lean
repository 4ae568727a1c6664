import SchemaKeeper.Proofs.Dataset.Resaved
import SchemaKeeper.Proofs.Session.Records
import SchemaKeeper.Proofs.Session.Ways

/-!
# Loading and saving come to rest

The first load of a record may change its values: integers become floating-point numbers, lists
become tuples, fields that the schema has dropped are left out.  The second load changes nothing any
more, whatever the clients did to the store and to the schema before.
-/
namespace SchemaKeeper

open Catalog Op

/-- What is saved of a record is an object with ascending members. -/
theorem Deed.saves_ordered (e : Deed) : e.Saves IsOrdered := by
  unfold Saves
  split
  · rename_i r
    have hwritten := Dataset.settled_written r
    exact ⟨fun part hpart => hwritten part (List.mem_append_left _ hpart),
      hwritten ⟨"", r.id, r.document⟩ (by simp [Record.written])⟩
  · trivial

namespace World
variable {c : Connection} {w₀ : World} {deeds : List Deed} {i : Nat} {x : Client} {held : Holding}
  {id : Uuid} {r : Record} {ws₁ ws₂ : Workspace}

theorem filedBeside_play (hb : w₀.Blank) (ho : ∀ e ∈ deeds, e.Over c) :
    (w₀.play deeds).workspace.store.catalog.FiledBeside c.definitions :=
  play_keeps keptBy_filedBeside ho (fun e _ => e.saves_ordered) hb fun _ _ _ hs =>
    absurd hs hb.get?_ne_some

theorem isFinite_play (hb : w₀.Blank) (ho : ∀ e ∈ deeds, e.Over c) :
    (w₀.play deeds).workspace.store.catalog.IsFinite :=
  play_keeps keptBy_isFinite ho (fun e _ => e.saves_finite) hb fun _ _ hs =>
    absurd hs hb.get?_ne_some

/-- Whatever the clients of a session did: a record that a client loaded, with all its moments in
years from 0 to 9999, is loaded again as the very record that it was once it was saved, and to save
it once more succeeds and leaves the very catalog. -/
theorem load_save_fixpoint (hb : w₀.Blank) (ho : ∀ e ∈ deeds, e.Over c)
    (hf : (w₀.play deeds).workspace.supply.Fits c.definitions)
    (hx : (w₀.play deeds).clients i = some x)
    (hload : x.dataset.loadRecord id (w₀.play deeds).workspace = .ok (some r) ws₁)
    (hdated : Value.entriesDated r.values.entries = true)
    (hsave : x.dataset.saveRecord r ws₁ = .ok () ws₂) :
    r.id = id ∧ x.dataset.loadRecord id ws₂ = .ok (some r) ws₂ ∧
      ∃ ws₃, x.dataset.saveRecord r ws₂ = .ok () ws₃ ∧
        ws₃.store.catalog = ws₂.store.catalog := by
  obtain ⟨-, held, -, -, hheld, -⟩ := Dataset.loadRecord_ok hload
  obtain ⟨l, hsteady⟩ := exists_steady_play hb ho hf
  have htraced := (hsteady.holds i x hx held hheld).traced
  have hkeeps := hsteady.stocked.keeps
  have hfiled : Record.Filed (w₀.play deeds).workspace.store.catalog
      held.definition.collections :=
    (filedBeside_play hb ho).filed hkeeps fun path name hname =>
      hf.ne_definitions (htraced.live path name hname)
  exact Dataset.saved_again hsteady.closed hkeeps (isFinite_play hb ho) hheld
    (hf.apart htraced.live) hfiled hload hdated hsave

section Sample
open Layout

/-- A sample with two boxes, whose corners are integers. -/
def integralRecord : Record :=
  ⟨Uuid.ofNat 1000, sampleClass, .ofList [("boxes", .list ⟨"boxes", 0⟩
    [.value (.document (Uuid.ofNat 1001) "Box" [("corner", .int 1)]),
      .value (.document (Uuid.ofNat 1002) "Box" [("corner", .int 2)])])]⟩

/-- A client saves a sample with integral corners. -/
def integralDeeds : List Deed :=
  [.create 0 "d" sampleClass.rootSchema none false, .save 0 integralRecord].map
    (.act sampleConnection)

/-- The corners come back as floating-point numbers, and stay so. -/
theorem load_save_fixpoint_integral :
    ∃ x r ws₁ ws₂ ws₃, (sampleWorld.play integralDeeds).clients 0 = some x ∧
      x.dataset.loadRecord integralRecord.id (sampleWorld.play integralDeeds).workspace =
        .ok (some r) ws₁ ∧
      (r.values == integralRecord.values) = false ∧
      Value.entriesDated r.values.entries = true ∧
      x.dataset.saveRecord r ws₁ = .ok () ws₂ ∧
      x.dataset.loadRecord integralRecord.id ws₂ = .ok (some r) ws₂ ∧
      x.dataset.saveRecord r ws₂ = .ok () ws₃ ∧ ws₃.store.catalog = ws₂.store.catalog := by
  have hcheck : ((sampleWorld.play integralDeeds).clients 0).any (fun x =>
      (given? (x.dataset.loadRecord integralRecord.id
        (sampleWorld.play integralDeeds).workspace)).any fun g => g.1.any fun r =>
          !(r.values == integralRecord.values) && Value.entriesDated r.values.entries &&
            (given? (x.dataset.saveRecord r g.2)).isSome) = true := by
    decide +kernel
  obtain ⟨x, hx, hcheck⟩ := (Option.any_eq_true _ _).1 hcheck
  obtain ⟨g, hg, hcheck⟩ := (Option.any_eq_true _ _).1 hcheck
  obtain ⟨r, hr, hcheck⟩ := (Option.any_eq_true _ _).1 hcheck
  obtain ⟨hboth, hsaved⟩ := Bool.and_eq_true_iff.1 hcheck
  obtain ⟨hother, hdated⟩ := Bool.and_eq_true_iff.1 hboth
  obtain ⟨back, hback⟩ := Option.isSome_iff_exists.1 hsaved
  have hload := given?_eq_some hg
  rw [hr] at hload
  have hover : ∀ e ∈ integralDeeds, e.Over sampleConnection :=
    over_acts (Connection.quiet_plain _ _) _
  have hf : (sampleWorld.play integralDeeds).workspace.supply.Fits
      sampleConnection.definitions := .of_isFit (by decide) (by decide +kernel)
  have hsave := given?_eq_some hback
  obtain ⟨-, hagain, ws₃, hlast, hcatalog⟩ :=
    load_save_fixpoint ⟨rfl, rfl, fun _ => rfl⟩ hover hf hx hload hdated hsave
  exact ⟨x, r, g.2, back.2, ws₃, hx, hload, by simpa using hother, hdated, hsave, hagain, hlast,
    hcatalog⟩

end Sample

end World
end SchemaKeeper
