import SchemaKeeper.Proofs.Dataset.Merge

/-!
# What loading does

A dataset that is loaded is read and committed without edits at the time of loading.  The
migration before it is any operation that leaves the committed catalog alone.
-/
namespace SchemaKeeper

open Catalog Op

/-- Migrations of the connection leave the committed catalog alone. -/
def Connection.Quiet (c : Connection) : Prop :=
  ∀ name (ws : Workspace), ws.transaction = none → ws.Unchanged (after (c.migrate name) ws)

theorem Connection.quiet_plain (classes : Registry) (settings : Settings) :
    (plain classes settings).Quiet :=
  fun _ _ ht => ⟨rfl, ht, .refl _⟩

namespace Dataset
variable {guarded : Prop} {c : Connection} {ws ws' : Workspace} {l : Ledger} {s : Supply}
  {d : Dataset}
  {key : DatasetKey}

/-- A dataset that was loaded was read and then committed. -/
theorem load_ok (hq : c.Quiet) (ht : ws.transaction = none) (h : load c key ws = .ok d ws') :
    ∃ (d₀ : Dataset) (ws₁ ws₂ : Workspace) (i : Nat), readFrom c key ws.store.catalog = .ok d₀ ∧
      ws.Unchanged ws₁ ∧ ws.supply.read ≤ i ∧ i < ws₁.supply.read ∧
      commit (d₀.stamped (ws₁.supply.clock i)) ws₁ = .ok d ws₂ ∧ ws₂.Rests ws' := by
  cases key with
  | byId id => cases h
  | byName name =>
    obtain ⟨⟨⟩, ws₁, hmigrate, h₁⟩ := bind_eq_ok.1 h
    have hu₁ := hq name ws ht
    rw [after_of_ok hmigrate] at hu₁
    obtain ⟨⟨⟩, ws₂, hnote, h₂⟩ := bind_eq_ok.1 h₁
    have hu₂ := hu₁.trans (((observes_note _ _ _).ok hnote).2.unchanged hu₁.transaction)
    obtain ⟨d₀, ws₃, hread, h₃⟩ := bind_eq_ok.1 h₂
    obtain ⟨hfrom, hr₃⟩ := (observes_read c _).ok hread
    have hu₃ := hu₂.trans (hr₃.unchanged hu₂.transaction)
    obtain ⟨now, ws₄, hnow, h₄⟩ := bind_eq_ok.1 h₃
    obtain ⟨hclock, hadvance, hr₄⟩ := now_ok hnow
    have hu₄ := hu₃.trans (hr₄.unchanged hu₃.transaction)
    obtain ⟨d₁, ws₅, hcommit, h₅⟩ := bind_eq_ok.1 h₄
    obtain ⟨⟨⟩, ws₆, hlast, h₆⟩ := bind_eq_ok.1 h₅
    cases h₆
    refine ⟨d₀, ws₄, ws₅, ws₃.supply.read, ?_, hu₄, hu₃.supply.read, by omega, ?_,
      ((observes_note _ _ _).ok hlast).2⟩
    · rw [← hu₂.catalog, ← Workspace.visible_of_closed hu₂.transaction]
      exact hfrom
    · rw [hr₄.supply.clock, ← hclock]
      exact hcommit

theorem load_error (hq : c.Quiet) (ht : ws.transaction = none) {e : Refusal}
    (h : load c key ws = .error e ws') : ws.Unchanged ws' := by
  cases key with
  | byId id => exact ((observes_throw _).error h).unchanged ht
  | byName name =>
    rcases bind_eq_error h with hmigrate | ⟨⟨⟩, ws₁, hmigrate, h₁⟩
    · have hu := hq name ws ht
      rwa [after_of_error hmigrate] at hu
    · have hu₁ := hq name ws ht
      rw [after_of_ok hmigrate] at hu₁
      refine hu₁.trans ?_
      refine (observes_note _ _ _).unchanged_bind hu₁.transaction h₁ fun _ ws₂ ht₂ h₂ => ?_
      refine (observes_read c _).unchanged_bind ht₂ h₂ fun d₀ ws₃ ht₃ h₃ => ?_
      rcases bind_eq_error h₃ with hnow | ⟨now, ws₄, hnow, h₄⟩
      · cases hnow
      · have hr₄ := (now_ok hnow).2.2
        refine (hr₄.unchanged ht₃).trans ?_
        rcases bind_eq_error h₄ with h₅ | ⟨d₁, ws₅, -, h₅⟩
        · exact commit_error (hr₄.transaction.trans ht₃) h₅
        · rcases bind_eq_error h₅ with h₆ | ⟨⟨⟩, ws₆, -, h₆⟩ <;> cases h₆

theorem load_commits (hq : c.Quiet) (ht : ws.transaction = none) (h : load c key ws = .ok d ws') :
    ws.Commits ws' := by
  obtain ⟨d₀, ws₁, ws₂, i, -, hu, -, -, hcommit, hrests⟩ := load_ok hq ht h
  obtain ⟨_, _, _, _, _, _, _, hran⟩ := commit_ok hcommit
  exact hu.commits.trans (hran.commits.trans (hrests.unchanged hran.closed).commits)

/-- A dataset that has been read at a time that can be written is held with this time. -/
theorem Holds.stamped {base : Schema} {held : Holding} {now : Moment}
    (h : d.Holds guarded l s base held) (hs : d.standing = .attached held) (hw : now.Writable) :
    ∃ held' : Holding, (d.stamped now).standing = .attached held' ∧
      (d.stamped now).Holds guarded l s base held' ∧
      held'.definition = { held.definition with lastLoadedAt := now } ∧
      (d.stamped now).connection = d.connection ∧ (d.stamped now).live = d.live := by
  obtain ⟨connection, standing, live⟩ := d
  simp only at hs
  subst hs
  obtain ⟨ht, hseen, hroot⟩ := h
  exact ⟨_, rfl, ⟨⟨ht.ascending, ht.root, ht.identifier, ht.live, ht.retired, ht.apart,
    ht.distinct, ht.writable.1, hw⟩, hseen, hroot⟩, rfl, rfl, rfl⟩

/-- Loading commits what was read, without edits. -/
theorem load_stores (hq : c.Quiet) (ht : ws.transaction = none)
    (h : ws.store.catalog.Stocked guarded c l ws.supply) (hf : ws'.supply.Fits c.definitions)
    (hop : load c key ws = .ok d ws') :
    ∃ (l' : Ledger) (held : Holding), l.AgreeBelow ws.supply.drawn l' ∧ d.connection = c ∧
      d.Holds guarded l' ws'.supply d.live held ∧
      (∀ name, key = .byName name → held.definition.name = name) ∧
      Stores c held.definition ws.store.catalog ws'.store.catalog ∧
      ws'.store.catalog.Stocked guarded c l' ws'.supply ∧
      (∃ latest, c.stored? ws.store.catalog held.definition.id = some latest ∧
        held.definition.Follows latest) ∧ Persists ws'.store.catalog d held := by
  obtain ⟨d₀, ws₁, ws₂, i, hfrom, hu, -, hi, hcommit, hrests⟩ := load_ok hq ht hop
  have hf₂ := hf.of_later hrests.supply
  obtain ⟨_, _, _, _, _, _, _, hran⟩ := commit_ok hcommit
  have hlater := hran.supply_later
  have hf₁ := hf₂.of_later hlater
  have hstocked : ws₁.store.catalog.Stocked guarded c l ws₁.supply := by
    rw [hu.catalog]
    exact h.mono hu.supply fun _ _ => rfl
  obtain ⟨held₀, hc, hstanding, hholds, hdoc, -, hname⟩ := readFrom_stocked h hfrom
  obtain ⟨held₁, hstanding₁, hholds₁, hdefinition, hc₁, hlive₁⟩ := hholds.stamped hstanding
    (hf₁.writable i hi)
  have hc₁ : (d₀.stamped (ws₁.supply.clock i)).connection = c := hc₁.trans hc
  obtain ⟨l', held, hl, hc', hholds', hreplays, hstores, hpersists⟩ := commit_stores
    (hc₁.symm ▸ hstocked) (by rw [hstanding₁]; rfl) (hholds₁.mono hu.supply fun _ _ => rfl) hcommit
  rw [hc₁] at hc' hreplays hstores
  -- What is stored is what was read, which differs from what was committed in its time alone.
  have hstored : c.stored? ws₁.store.catalog held₀.definition.id = some held₀.definition := by
    rw [hu.catalog]
    exact Stocked.stored?_of_documentAt h.keeps hholds.traced.writable hdoc
  have hfollows : ∀ latest, c.stored? ws₁.store.catalog held₁.definition.id = some latest →
      latest.Follows held₁.definition := by
    intro latest hlatest
    rw [hdefinition] at hlatest ⊢
    rw [hstored] at hlatest
    injection hlatest with hlatest
    subst hlatest
    exact ⟨rfl, fun _ hn => hn⟩
  obtain ⟨hstocked', hlatest⟩ := hreplays.stocked (hstocked.mono hlater hl) hholds'.traced
    (hran.keeps hstocked.keeps) hstores hfollows
  rw [hu.catalog] at hstores hlatest
  rw [← hrests.store] at hstores hstocked' hpersists
  refine ⟨l', held, fun k hk => hl k (Nat.lt_of_lt_of_le hk hu.supply.drawn), hc',
    hholds'.mono hrests.supply fun _ _ => rfl, fun name hkey => ?_, hstores,
    hstocked'.mono hrests.supply fun _ _ => rfl, hlatest, hpersists⟩
  rw [hreplays.name, hdefinition]
  exact hname name hkey

end Dataset
end SchemaKeeper
