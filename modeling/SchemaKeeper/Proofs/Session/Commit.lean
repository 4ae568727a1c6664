import SchemaKeeper.Proofs.Session.Sound

/-!
# Commits in a session

Whatever the clients of a session did before, a commit that succeeds merges three ways: a path that
its client changed since it last saw the dataset is persisted as the client has it, and every other
path as it was persisted just before.
-/
namespace SchemaKeeper

open Op

namespace World
variable {c : Connection} {w₀ : World} {acts : List Act} {i : Nat} {x : Client} {d : Dataset}
  {ws : Workspace}

/-- What can be read under a key is what the stored definition says. -/
theorem read_of_readFrom {key : DatasetKey} (ht : ws.transaction = none)
    {s : Schema} (h : (Dataset.readFrom c key ws.store.catalog).map Dataset.live = .ok s) :
    ∃ d ws', Dataset.read c key ws = .ok d ws' ∧ d.live = s := by
  cases hr : Dataset.readFrom c key ws.store.catalog with
  | error e =>
    rw [hr] at h
    cases h
  | ok d =>
    rw [hr] at h
    injection h with h
    rw [← Workspace.visible_of_closed ht] at hr
    obtain ⟨ws', hread⟩ := (Dataset.observes_read c key).of_ok hr
    exact ⟨d, ws', hread, h⟩

/-- A commit merges the edits of its client with what the others committed meanwhile: where the
live schema of the client says of a path what it said when the client last saw the dataset, what
was persisted there stays; everywhere else the live schema of the client is persisted.  The client
is left with what is persisted. -/
theorem commit_merges_threeWay (hq : c.Quiet) (hr : c.classes.Named) (hb : w₀.Blank)
    (hx : (w₀.run c acts).clients i = some x)
    (hop : x.dataset.commit (w₀.run c acts).workspace = .ok d ws)
    (hf : ws.supply.Fits c.definitions) :
    ∃ (id : Uuid) (before after : Dataset) (ws₁ ws₂ : Workspace),
      x.dataset.definition?.map Definition.id = some id ∧
      Dataset.read c (.byId id) (w₀.run c acts).workspace = .ok before ws₁ ∧
      Dataset.read c (.byId id) ws = .ok after ws₂ ∧
      (∀ path, after.live.entry path =
        if x.dataset.live.entry path = x.base.entry path then before.live.entry path
        else x.dataset.live.entry path) ∧
      d.live = after.live := by
  obtain ⟨held, _, _, hheld, -, _, _, hran⟩ := Dataset.commit_ok hop
  have hbefore : (w₀.run c acts).workspace.supply.Fits c.definitions := hf.of_later hran.supply_later
  obtain ⟨l, -, hsound, -⟩ :=
    run_leads hq hr (sound_of_blank hb fun _ => (held.definition.id, "")) acts hbefore
  obtain ⟨l', held', -, -, -, -, hid, hmerges⟩ := Dataset.commit_merges hsound.stocked hf hr
    (hsound.connected i x hx) hheld (hsound.holds i x hx held hheld) hop
  obtain ⟨seen, hseen, hmerged⟩ := hmerges.merged
  rw [hid] at hseen
  obtain ⟨before, ws₁, hread₁, hlive₁⟩ := read_of_readFrom hsound.closed hseen
  have hpersisted := hmerges.persisted
  rw [hid] at hpersisted
  obtain ⟨after, ws₂, hread₂, hlive₂⟩ := read_of_readFrom hran.closed hpersisted
  refine ⟨held.definition.id, before, after, ws₁, ws₂, ?_, hread₁, hread₂, fun path => ?_,
    hlive₂.symm⟩
  · rw [Dataset.definition?, hheld]
    rfl
  · rw [hlive₂, hlive₁]
    exact hmerged path

section Sample
open Layout

/-- Two clients hold one dataset; the first has committed a field of its own, and the second has
removed another one. -/
def sampleActs : List Act :=
  [.create 0 "d" sampleClass.rootSchema none false, .read 1 (.byName "d"),
    .addField 0 "score" (.scalar .float), .commit 0, .removeField 1 "best"]

theorem commit_merges_threeWay_sample :
    ∃ x d ws, (sampleWorld.run sampleConnection sampleActs).clients 1 = some x ∧
      x.dataset.commit (sampleWorld.run sampleConnection sampleActs).workspace = .ok d ws ∧
      (x.dataset.live.contains "score" = false ∧ x.dataset.live.contains "best" = false) ∧
      ∃ (id : Uuid) (before after : Dataset) (ws₁ ws₂ : Workspace),
        x.dataset.definition?.map Definition.id = some id ∧
        Dataset.read sampleConnection (.byId id)
          (sampleWorld.run sampleConnection sampleActs).workspace = .ok before ws₁ ∧
        Dataset.read sampleConnection (.byId id) ws = .ok after ws₂ ∧
        (∀ path, after.live.entry path =
          if x.dataset.live.entry path = x.base.entry path then before.live.entry path
          else x.dataset.live.entry path) ∧
        d.live = after.live := by
  have hcheck : ((sampleWorld.run sampleConnection sampleActs).granted? 1 Dataset.commit).any
      (fun g => decide (g.1.dataset.live.contains "score" = false ∧
        g.1.dataset.live.contains "best" = false ∧
        ((List.range g.2.2.supply.drawn).map g.2.2.supply.ids).Nodup ∧
        ∀ k ∈ List.range g.2.2.supply.read, (g.2.2.supply.clock k).Writable)) = true := by
    decide +kernel
  obtain ⟨g, hg, hcheck⟩ := (Option.any_eq_true _ _).1 hcheck
  obtain ⟨hx, hop⟩ := granted?_eq_some hg
  obtain ⟨hscore, hbest, hids, hclock⟩ := of_decide_eq_true hcheck
  exact ⟨g.1, g.2.1, g.2.2, hx, hop, ⟨hscore, hbest⟩,
    commit_merges_threeWay (Connection.quiet_plain _ _)
      (Registry.named_register sampleClass Registry.named_empty) ⟨rfl, rfl, fun _ => rfl⟩ hx hop
      (.of_nodup (by decide) hids hclock)⟩

end Sample

end World
end SchemaKeeper
