import SchemaKeeper.Dataset.Records
import SchemaKeeper.Proofs.Dataset.Removal

/-!
# What saving a record does

A record is saved in one transaction, which writes into the collections of its dataset alone.
-/
namespace SchemaKeeper

open Catalog Op

namespace Catalog

theorem Fills.refl (p : String → Prop) (c : Catalog) : Fills p c c :=
  ⟨fun _ => rfl, fun _ _ => rfl, fun _ h => h⟩

theorem Fills.trans {p : String → Prop} {a b c : Catalog} (h : Fills p a b) (h' : Fills p b c) :
    Fills p a c :=
  ⟨fun q => (h'.contains q).trans (h.contains q),
    fun q hq => (h'.frame q hq).trans (h.frame q hq), fun v hv => h'.installs v (h.installs v hv)⟩

theorem fills_replaceOne {p : String → Prop} {a b : Catalog} {name id : String} {document : Json}
    {upsert answer : Bool} (hp : p name)
    (h : a.perform (.replaceOne name id document upsert) = .ok (answer, b)) : Fills p a b := by
  obtain ⟨-, state, hs, ⟨-, -, -, rfl⟩ | ⟨-, -, rfl⟩⟩ := replaceOne_ok h
  · refine ⟨fun q => ?_, fun q hq => ?_, fun v hv => hv.setDocuments hs _⟩
    · unfold Keyed.contains
      rw [get?_setCollection]
      split
      · rename_i hq
        rw [← hq, hs]
        rfl
      · rfl
    · have hne : name ≠ q := fun h => hq (h ▸ hp)
      rw [get?_setCollection, if_neg hne]
  · exact .refl p _

end Catalog

namespace Dataset
variable {c : Connection} {ws ws' : Workspace} {t : Transaction} {cs : Collections}

theorem collectionFor_eq_ok {path name : String} :
    Record.collectionFor cs path = .ok name ↔ cs.get? path = some name := by
  unfold Record.collectionFor
  cases cs.get? path <;> simp

/-- A document is written to the collection of a path. -/
theorem writePart_ok {path id : String} {document : Json} {name : String} {answer : Bool}
    (ht : ws.transaction = some t) (hn : cs.get? path = some name)
    (h : (Op.write (.replaceOne name id document true) : Op Refusal Bool) ws = .ok answer ws') :
    ws.Stays ws' ∧ Fills (· ∈ cs.values) ws.visible ws'.visible := by
  obtain ⟨hp, hs, -⟩ := write_ok ht h
  exact ⟨hs, fills_replaceOne (Keyed.mem_values.2 ⟨path, hn⟩) hp⟩

/-- The first document is written to the collection of its path, and then the others are. -/
theorem writeParts_cons_ok {part : Part} {rest : List Part}
    (h : writeParts cs (part :: rest) ws = .ok () ws') :
    ∃ name answer ws₁, cs.get? part.path = some name ∧
      (Op.write (.replaceOne name part.id.text part.document true) : Op Refusal Bool) ws =
        .ok answer ws₁ ∧ writeParts cs rest ws₁ = .ok () ws' := by
  obtain ⟨name, _, hlift, h₁⟩ := bind_eq_ok.1 h
  obtain ⟨hname, hws⟩ := lift_eq_ok.1 hlift
  subst hws
  obtain ⟨⟨⟩, ws₁, hdiscard, h₂⟩ := bind_eq_ok.1 h₁
  obtain ⟨answer, _, hw, hret⟩ := bind_eq_ok.1 hdiscard
  cases hret
  exact ⟨name, answer, ws₁, collectionFor_eq_ok.1 hname, hw, h₂⟩

theorem writeParts_ok {parts : List Part} (ht : ws.transaction = some t)
    (h : writeParts cs parts ws = .ok () ws') :
    ws.Stays ws' ∧ Fills (· ∈ cs.values) ws.visible ws'.visible := by
  induction parts generalizing ws t with
  | nil =>
    cases h
    exact ⟨(Workspace.Rests.refl _).stays ht, .refl _ _⟩
  | cons part rest ih =>
    obtain ⟨name, answer, ws₁, hname, hw, h₁⟩ := writeParts_cons_ok h
    obtain ⟨hs₁, hf₁⟩ := writePart_ok ht hname hw
    obtain ⟨t₁, ht₁⟩ := hs₁.transaction
    obtain ⟨hs₂, hf₂⟩ := ih ht₁ h₁
    exact ⟨hs₁.trans hs₂, hf₁.trans hf₂⟩

theorem contained_writeParts : ∀ parts : List Part, Contained (writeParts cs parts)
  | [] => contained_pure ()
  | _ :: rest => (contained_lift _).bind fun _ => ((contained_write _).bind fun _ =>
      contained_pure ()).bind fun _ => contained_writeParts rest

theorem contained_writeRecord (r : Record) : Contained (writeRecord cs r) :=
  (contained_lift _).bind fun _ => (contained_writeParts _).bind fun _ =>
    (contained_write _).bind fun _ => contained_pure ()

theorem writeRecord_ok {r : Record} (ht : ws.transaction = some t)
    (h : writeRecord cs r ws = .ok () ws') : Fills (· ∈ cs.values) ws.visible ws'.visible := by
  obtain ⟨root, ws₁, hlift, h₁⟩ := bind_eq_ok.1 h
  obtain ⟨hroot, hws⟩ := lift_eq_ok.1 hlift
  subst hws
  obtain ⟨⟨⟩, ws₂, hparts, h₂⟩ := bind_eq_ok.1 h₁
  obtain ⟨hs, hf⟩ := writeParts_ok ht hparts
  obtain ⟨t₁, ht₁⟩ := hs.transaction
  obtain ⟨answer, ws₃, hw, hret⟩ := bind_eq_ok.1 h₂
  cases hret
  exact hf.trans (writePart_ok ht₁ (collectionFor_eq_ok.1 hroot) hw).2

theorem collections_eq_ok {d : Dataset} {cs : Collections} :
    d.collections = .ok cs ↔
      ∃ held, d.standing.holding? = some held ∧ held.definition.collections = cs := by
  unfold Dataset.collections Dataset.holding
  cases d.standing.holding? <;> simp [Except.map]

/-- A record that was saved was written in a transaction. -/
theorem saveRecord_ok {d : Dataset} {r : Record} (h : saveRecord d r ws = .ok () ws') :
    ∃ held, d.standing.holding? = some held ∧ ∃ ws₁ ws₂,
      Ran (writeRecord held.definition.collections r) () ws ws₁ ws₂ ws' := by
  obtain ⟨cs, ws₁, hlift, h₁⟩ := bind_eq_ok.1 h
  obtain ⟨hcs, hws⟩ := lift_eq_ok.1 hlift
  subst hws
  obtain ⟨held, hheld, rfl⟩ := collections_eq_ok.1 hcs
  obtain ⟨⟨⟩, ws₂, hrun, h₂⟩ := bind_eq_ok.1 h₁
  obtain ⟨ws₃, hran⟩ := ran_of_inTransaction (contained_writeRecord r) (.refl _) hrun
    ((observes_note _ _ _).ok h₂).2
  exact ⟨held, hheld, _, ws₃, hran⟩

theorem saveRecord_error {d : Dataset} {r : Record} {e : Refusal} (ht : ws.transaction = none)
    (h : saveRecord d r ws = .error e ws') : ws.Unchanged ws' := by
  refine (observes_lift _).unchanged_bind ht h fun cs ws₁ ht₁ h₁ => ?_
  rcases bind_eq_error h₁ with h₂ | ⟨⟨⟩, ws₂, -, h₂⟩
  · exact inTransaction_error (contained_writeRecord r) h₂
  · cases h₂

/-- A record is written into collections of its dataset. -/
theorem fills_of_ran {r : Record} {ws₁ ws₂ : Workspace}
    (h : Ran (writeRecord cs r) () ws ws₁ ws₂ ws') :
    Fills (· ∈ cs.values) ws.store.catalog ws'.store.catalog := by
  refine h.settles.fills ?_
  rw [← h.visible]
  exact writeRecord_ok rfl h.work

end Dataset
end SchemaKeeper
