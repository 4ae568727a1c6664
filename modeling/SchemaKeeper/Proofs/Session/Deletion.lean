import SchemaKeeper.Proofs.Session.Sound

/-!
# Deletions in a session

A client deletes by what it knows: it drops the collections of its own definition and those that
the stored definition has retired.  That leaves no collection of the dataset behind exactly if the
client has seen every collection that the stored definition uses.  Other datasets are never touched.
-/
namespace SchemaKeeper

open Catalog Op

namespace World
variable {c : Connection} {w₀ : World} {acts : List Act} {i : Nat} {x : Client} {d : Dataset}
  {ws : Workspace} {id : Uuid} {name : String}

/-- At some point of the session the stored definition of a dataset named a collection, in use or
retired. -/
def EverNamed (c : Connection) (w₀ : World) (acts : List Act) (id : Uuid) (name : String) : Prop :=
  ∃ seen d, seen <+: acts ∧ c.stored? (w₀.run c seen).workspace.store.catalog id = some d ∧
    d.Names name

/-- A session that begins with an empty store is sound, and what was named in it was made for the
dataset that named it and is named by its stored definition, if there still is one. -/
theorem sound_of_everNamed (hq : c.Quiet) (hr : c.classes.Named) (hb : w₀.Blank)
    (hf : (w₀.run c acts).workspace.supply.Fits c.definitions)
    (hn : EverNamed c w₀ acts id name) :
    ∃ l, Sound c l (w₀.run c acts) ∧
      (∃ path, l.Ascribes (w₀.run c acts).workspace.supply.ids
        (w₀.run c acts).workspace.supply.drawn name id path) ∧
      ∀ stored, c.stored? (w₀.run c acts).workspace.store.catalog id = some stored →
        stored.Names name := by
  obtain ⟨seen, d, ⟨rest, rfl⟩, hd, hname⟩ := hn
  rw [run_append] at hf ⊢
  have hcommits := run_commits hq (run_commits hq hb.transaction seen).transaction rest
  obtain ⟨l₁, -, hsound₁, -⟩ :=
    run_leads hq hr (sound_of_blank hb fun _ => (id, "")) seen (hf.of_later hcommits.supply)
  obtain ⟨l₂, hleads⟩ := run_leads hq hr hsound₁ rest hf
  obtain ⟨-, hid, htraced, -⟩ := hsound₁.stocked.stored?_eq_some hd
  refine ⟨l₂, hleads.sound, ?_, fun stored hstored =>
    hleads.remembers hsound₁ hcommits.supply hf id d stored hd hstored name hname⟩
  exact hid ▸ (htraced.mono hcommits.supply hleads.agree).ascribes hname

/-- What a deletion leaves of the dataset that a client held, and of the others.  No collection
that the definition ever named is left exactly if the client's own definition uses all that the
stored one uses; where another client has removed the stored definition before, exactly if the
client's own names all that were left. -/
structure Deletes (c : Connection) (w₀ : World) (acts : List Act) (held : Definition)
    (ws : Workspace) : Prop where
  definition : ws.store.catalog.findOne c.definitions "_id" (.string held.id.text) = none
  others : ∀ id, id ≠ held.id →
    ws.store.catalog.findOne c.definitions "_id" (.string id.text) =
      (w₀.run c acts).workspace.store.catalog.findOne c.definitions "_id" (.string id.text) ∧
    ∀ name, EverNamed c w₀ acts id name → ws.store.catalog.collections.get? name =
      (w₀.run c acts).workspace.store.catalog.collections.get? name
  complete_iff :
    (∀ name, EverNamed c w₀ acts held.id name →
      ws.store.catalog.collections.contains name = false) ↔
    match c.stored? (w₀.run c acts).workspace.store.catalog held.id with
    | some stored => ∀ name ∈ stored.collections.values, name ∈ held.collections.values
    | none => ∀ name, EverNamed c w₀ acts held.id name →
      (w₀.run c acts).workspace.store.catalog.collections.contains name = true → held.Names name

/-- A deletion removes the definition of its dataset and touches no other dataset; it is complete
exactly if the client knows of all collections in use. -/
theorem delete_deletes (hq : c.Quiet) (hr : c.classes.Named) (hb : w₀.Blank)
    (hx : (w₀.run c acts).clients i = some x)
    (hop : x.dataset.delete (w₀.run c acts).workspace = .ok d ws)
    (hf : ws.supply.Fits c.definitions) :
    ∃ held, x.dataset.standing.holding? = some held ∧ Deletes c w₀ acts held.definition ws := by
  obtain ⟨held, hheld, -, _, _, hran⟩ := Dataset.delete_ok hop
  have hf₀ := hf.of_later hran.supply_later
  obtain ⟨l, -, hsound, -⟩ := run_leads hq hr (sound_of_blank hb fun _ => (held.definition.id, ""))
    acts hf₀
  have hholds := hsound.holds i x hx held hheld
  obtain ⟨-, hremoves⟩ := Dataset.delete_removes hsound.stocked hf₀ (hsound.connected i x hx) hheld
    hholds.traced hop
  have hkeeps := hran.keeps hsound.stocked.keeps
  refine ⟨held, hheld, ?_, fun id hid => ⟨?_, fun name hname => ?_⟩, ?_⟩
  · rw [findOne_id hkeeps, hremoves.definitions]
    exact if_pos rfl
  · rw [findOne_id hkeeps, findOne_id hsound.stocked.keeps, hremoves.definitions]
    exact if_neg fun hkey => hid (Uuid.text_injective hkey.symm)
  · -- A collection that was dropped was made for the dataset that is deleted.
    obtain ⟨l', hsound', ⟨path, ha⟩, -⟩ := sound_of_everNamed hq hr hb hf₀ hname
    refine hremoves.frame name (hf₀.ne_definitions ha) fun hin => hid ?_
    obtain ⟨path', ha'⟩ := Dataset.ascribes_dropped (hsound'.holds i x hx held hheld).traced
      (fun d₁ hd₁ => hsound'.traced_of_stored hd₁) hin
    exact (hf₀.ascribes_unique ha ha').1
  · have hgone : ∀ name, EverNamed c w₀ acts held.definition.id name →
        (ws.store.catalog.collections.contains name = false ↔
          ((w₀.run c acts).workspace.store.catalog.collections.contains name = true →
            name ∈ Dataset.dropped held.definition
              (c.stored? (w₀.run c acts).workspace.store.catalog held.definition.id))) := by
      intro name hname
      obtain ⟨l', -, ⟨path, ha⟩, -⟩ := sound_of_everNamed hq hr hb hf₀ hname
      rw [← Bool.not_eq_true, hremoves.contains name (hf₀.ne_definitions ha)]
      exact not_and_not_right
    cases hs : c.stored? (w₀.run c acts).workspace.store.catalog held.definition.id with
    | none =>
      rw [hs] at hgone
      exact forall₂_congr fun name hname => (hgone name hname).trans (by
        rw [Dataset.dropped, List.mem_append]
        rfl)
    | some stored =>
      obtain ⟨-, -, htraced, hlive⟩ := hsound.stocked.stored?_eq_some hs
      rw [hs] at hgone
      constructor
      · intro hall name hname
        have hever : EverNamed c w₀ acts held.definition.id name :=
          ⟨acts, stored, List.prefix_rfl, hs, .inl hname⟩
        rcases List.mem_append.1 ((hgone name hever).1 (hall name hever) (hlive name hname)) with
          hin | hin
        · exact hin
        · exact absurd hname (htraced.apart name hin)
      · intro hall name hever
        obtain ⟨-, -, -, hnames⟩ := sound_of_everNamed hq hr hb hf₀ hever
        refine (hgone name hever).2 fun _ => List.mem_append.2 ?_
        rcases hnames stored hs with hin | hin
        · exact .inl (hall name hin)
        · exact .inr hin

section Sample
open Layout

/-- Two clients hold one dataset, and the second has put a collection into use that the first has
not seen. -/
def staleActs : List Act :=
  [.create 0 "d" sampleClass.rootSchema none false, .read 1 (.byName "d"),
    .addField 1 "cover" (.document boxClass), .commit 1]

/-- The client that has seen the collection leaves none behind. -/
theorem delete_deletes_current :
    ∃ x d ws held, (sampleWorld.run sampleConnection staleActs).clients 1 = some x ∧
      x.dataset.delete (sampleWorld.run sampleConnection staleActs).workspace = .ok d ws ∧
      x.dataset.standing.holding? = some held ∧
      ∀ name, EverNamed sampleConnection sampleWorld staleActs held.definition.id name →
        ws.store.catalog.collections.contains name = false := by
  have hcheck : ((sampleWorld.run sampleConnection staleActs).granted? 1 Dataset.delete).any
      (fun g => g.1.dataset.standing.holding?.any fun held =>
        (sampleConnection.stored? (sampleWorld.run sampleConnection staleActs).workspace.store.catalog
          held.definition.id).any fun stored => decide (
            (∀ name ∈ stored.collections.values, name ∈ held.definition.collections.values) ∧
            ((List.range g.2.2.supply.drawn).map g.2.2.supply.ids).Nodup ∧
            ∀ k ∈ List.range g.2.2.supply.read, (g.2.2.supply.clock k).Writable)) = true := by
    decide +kernel
  obtain ⟨g, hg, hcheck⟩ := (Option.any_eq_true _ _).1 hcheck
  obtain ⟨held, hheld, hcheck⟩ := (Option.any_eq_true _ _).1 hcheck
  obtain ⟨stored, hstored, hcheck⟩ := (Option.any_eq_true _ _).1 hcheck
  obtain ⟨hx, hop⟩ := granted?_eq_some hg
  obtain ⟨hseen, hids, hclock⟩ := of_decide_eq_true hcheck
  have hdelete : ∃ held, g.1.dataset.standing.holding? = some held ∧
      Deletes sampleConnection sampleWorld staleActs held.definition g.2.2 :=
    delete_deletes (Connection.quiet_plain _ _)
      (Registry.named_register sampleClass Registry.named_empty) ⟨rfl, rfl, fun _ => rfl⟩ hx hop
      (.of_nodup (by decide) hids hclock)
  obtain ⟨held', hheld', hdeletes⟩ := hdelete
  rw [hheld] at hheld'
  injection hheld' with hheld'
  subst hheld'
  refine ⟨g.1, g.2.1, g.2.2, held, hx, hop, hheld, hdeletes.complete_iff.2 ?_⟩
  rw [hstored]
  exact hseen

/-- The client that has not seen the collection leaves it behind. -/
theorem delete_leaves_unseen :
    ∃ x d ws held name, (sampleWorld.run sampleConnection staleActs).clients 0 = some x ∧
      x.dataset.delete (sampleWorld.run sampleConnection staleActs).workspace = .ok d ws ∧
      x.dataset.standing.holding? = some held ∧
      EverNamed sampleConnection sampleWorld staleActs held.definition.id name ∧
      ws.store.catalog.collections.contains name = true := by
  have hcheck : ((sampleWorld.run sampleConnection staleActs).granted? 0 Dataset.delete).any
      (fun g => g.1.dataset.standing.holding?.any fun held =>
        (sampleConnection.stored? (sampleWorld.run sampleConnection staleActs).workspace.store.catalog
          held.definition.id).any fun stored =>
            stored.collections.values.any g.2.2.store.catalog.collections.contains) = true := by
    decide +kernel
  obtain ⟨g, hg, hcheck⟩ := (Option.any_eq_true _ _).1 hcheck
  obtain ⟨held, hheld, hcheck⟩ := (Option.any_eq_true _ _).1 hcheck
  obtain ⟨stored, hstored, hcheck⟩ := (Option.any_eq_true _ _).1 hcheck
  obtain ⟨hx, hop⟩ := granted?_eq_some hg
  obtain ⟨name, hname, hleft⟩ := List.any_eq_true.1 hcheck
  exact ⟨g.1, g.2.1, g.2.2, held, name, hx, hop, hheld,
    ⟨staleActs, stored, List.prefix_rfl, hstored, .inl hname⟩, hleft⟩

end Sample

end World
end SchemaKeeper
