import SchemaKeeper.Proofs.Session.Step

/-!
# What every session keeps

After any deeds the store keeps its datasets in order, and each client holds a definition that its
dataset can have, together with the schema that it last saw.  A ledger of the identifiers that
were drawn for collections goes along; one deed carries it on without changing what it says.  A
session of actions over one connection is guarded, so the roots of its schemas stay documents.
-/
namespace SchemaKeeper

open Catalog Op

namespace World
variable {guarded : Prop} {c : Connection} {l l' : Ledger} {w w' : World} {ws ws' : Workspace}

/-! ## Between deeds -/

theorem commits_receive {i : Nat} {r : EStateM.Result Refusal Workspace Dataset}
    (herror : ∀ e ws', r = .error e ws' → w.workspace.Unchanged ws')
    (hok : ∀ d ws', r = .ok d ws' → w.workspace.Commits ws') :
    w.workspace.Commits (w.receive i r).workspace := by
  cases r with
  | error e ws' => exact (herror e ws' rfl).commits
  | ok d ws' => exact hok d ws' rfl

theorem commits_withClient {i : Nat} {f : Client → World} (h : w.workspace.transaction = none)
    (hf : ∀ x, w.workspace.Commits (f x).workspace) :
    w.workspace.Commits (w.withClient i f).workspace := by
  unfold withClient
  split
  · exact hf _
  · exact ((Workspace.Rests.refl _).unchanged h).commits

theorem workspace_edit {i : Nat} {x : Client} {r : Except Refusal Dataset} :
    (w.edit i x r).workspace = w.workspace := by
  cases r <;> rfl

theorem step_commits (hq : c.Quiet) (h : w.workspace.transaction = none) (a : Act) :
    w.workspace.Commits (w.step c a).workspace := by
  have hstill : w.workspace.Commits w.workspace :=
    ((Workspace.Rests.refl _).unchanged h).commits
  cases a with
  | create i name s mediaType persistent =>
    refine commits_receive (fun e ws' hop => Dataset.createFrom_error h hop) fun d ws' hop => ?_
    obtain ⟨-, _, _, hran⟩ := Dataset.createFrom_ok hop
    exact hran.commits
  | load i key =>
    exact commits_receive (fun e ws' hop => Dataset.load_error hq h hop)
      fun d ws' hop => Dataset.load_commits hq h hop
  | read i key =>
    have hobs := Dataset.observes_read c key
    exact commits_receive (fun e ws' hop => (hobs.error hop).unchanged h)
      fun d ws' hop => ((hobs.ok hop).2.unchanged h).commits
  | addField i path type => exact commits_withClient h fun x => workspace_edit ▸ hstill
  | removeField i path => exact commits_withClient h fun x => workspace_edit ▸ hstill
  | commit i =>
    refine commits_withClient h fun x => ?_
    refine commits_receive (fun e ws' hop => Dataset.commit_error h hop) fun d ws' hop => ?_
    obtain ⟨_, _, _, _, _, _, _, hran⟩ := Dataset.commit_ok hop
    exact hran.commits
  | delete i =>
    refine commits_withClient h fun x => ?_
    refine commits_receive (fun e ws' hop => Dataset.delete_error h hop) fun d ws' hop => ?_
    obtain ⟨_, _, _, _, _, hran⟩ := Dataset.delete_ok hop
    exact hran.commits
  | save i r =>
    refine commits_withClient h fun x => ?_
    cases hop : x.dataset.saveRecord r w.workspace with
    | error e ws' =>
      rw [after_of_error hop]
      exact (Dataset.saveRecord_error h hop).commits
    | ok _ ws' =>
      rw [after_of_ok hop]
      obtain ⟨_, _, _, _, hran⟩ := Dataset.saveRecord_ok hop
      exact hran.commits

theorem does_commits {e : Deed} (ho : e.Over c) (h : w.workspace.transaction = none) :
    w.workspace.Commits (w.does e).workspace := by
  cases e with
  | act c' a => exact step_commits ho.2 h a
  | assign i live =>
    exact commits_withClient h fun x => ((Workspace.Rests.refl _).unchanged h).commits

/-- Between deeds no transaction is open, and the supply is drawn on alone. -/
theorem play_commits {deeds : List Deed} (ho : ∀ e ∈ deeds, e.Over c)
    (h : w.workspace.transaction = none) : w.workspace.Commits (w.play deeds).workspace := by
  induction deeds generalizing w with
  | nil => exact ((Workspace.Rests.refl _).unchanged h).commits
  | cons e deeds ih =>
    obtain ⟨he, hrest⟩ := List.forall_mem_cons.1 ho
    have hstep := does_commits he h
    exact hstep.trans (ih hrest hstep.transaction)

/-! ## Whole sessions -/

/-- A session leads from one steady world to another. -/
structure Carries (guarded : Prop) (c : Connection) (l l' : Ledger) (w w' : World) : Prop where
  agree : l.AgreeBelow w.workspace.supply.drawn l'
  steady : Steady guarded c l' w'
  evolves : w.workspace.Evolves c w'.workspace

theorem Takes.carries {e : Deed} (h : Takes guarded c e l l' w w')
    (hk : w.workspace.store.catalog.Keeps) : Carries guarded c l l' w w' :=
  ⟨h.agree, h.steady, h.effect.evolves hk h.steady.stocked.keeps⟩

theorem Carries.trans {l₁ l₂ : Ledger} {w₁ w₂ : World} (h : Carries guarded c l l₁ w w₁)
    (h' : Carries guarded c l₁ l₂ w₁ w₂) (hs : w.workspace.supply.Later w₁.workspace.supply)
    (hs' : w₁.workspace.supply.Later w₂.workspace.supply) : Carries guarded c l l₂ w w₂ := by
  refine ⟨fun k hk => ?_, h'.steady, fun id d' hd' => ?_⟩
  · rw [h'.agree k (Nat.lt_of_lt_of_le hk hs.drawn), h.agree k hk]
  · rcases h'.evolves id d' hd' with ⟨d₁, hd₁, hfollows₁⟩ | ⟨k, hk, hk', hid⟩
    · rcases h.evolves id d₁ hd₁ with ⟨d, hd, hfollows⟩ | ⟨k, hk, hk', hid⟩
      · exact .inl ⟨d, hd, hfollows₁.trans hfollows⟩
      · refine .inr ⟨k, hk, Nat.lt_of_lt_of_le hk' hs'.drawn, ?_⟩
        exact hid.trans (congrFun hs'.ids k).symm
    · exact .inr ⟨k, Nat.le_trans hs.drawn hk, hk', hid⟩

/-- Deeds lead from a steady world to a steady world. -/
theorem play_carries {deeds : List Deed} (ho : ∀ e ∈ deeds, e.Over c)
    (hg : guarded → ∀ e ∈ deeds, e.IsActOver c) (h : Steady guarded c l w)
    (hf : (w.play deeds).workspace.supply.Fits c.definitions) :
    ∃ l', Carries guarded c l l' w (w.play deeds) := by
  induction deeds generalizing w l with
  | nil => exact ⟨l, fun _ _ => rfl, h, fun id d hd => .inl ⟨d, hd, .refl d⟩⟩
  | cons e deeds ih =>
    obtain ⟨he, hrest⟩ := List.forall_mem_cons.1 ho
    have hstep := does_commits he h.closed
    have hlater := (play_commits hrest hstep.transaction).supply
    obtain ⟨l₁, htakes⟩ := does_takes he (fun hguarded => hg hguarded e List.mem_cons_self) h
      (hf.of_later hlater)
    obtain ⟨l₂, hcarries⟩ := ih hrest
      (fun hguarded e' he' => hg hguarded e' (List.mem_cons_of_mem _ he')) htakes.steady hf
    exact ⟨l₂, (htakes.carries h.stocked.keeps).trans hcarries hstep.supply hlater⟩

theorem exists_steady_play {w₀ : World} {deeds : List Deed} (hb : w₀.Blank)
    (ho : ∀ e ∈ deeds, e.Over c) (hf : (w₀.play deeds).workspace.supply.Fits c.definitions) :
    ∃ l, Steady False c l (w₀.play deeds) := by
  have hblank : Steady False c (fun k => (w₀.workspace.supply.ids k, "")) w₀ :=
    steady_of_blank hb _
  obtain ⟨l, hcarries⟩ := play_carries ho False.elim hblank hf
  exact ⟨l, hcarries.steady⟩

/-! ## Sessions of actions over one connection -/

/-- What every session over one connection keeps. -/
abbrev Sound (c : Connection) (l : Ledger) (w : World) : Prop := Steady True c l w

/-- A session over one connection leads from one sound world to another. -/
abbrev Leads (c : Connection) (l l' : Ledger) (w w' : World) : Prop := Carries True c l l' w w'

theorem sound_of_blank (h : w.Blank) (l : Ledger) : Sound c l w := steady_of_blank h l

namespace Steady

theorem holds (h : Steady guarded c l w) (i : Nat) (x : Client) (hx : w.clients i = some x)
    (held : Holding) (hheld : x.dataset.standing.holding? = some held) :
    x.dataset.Holds guarded l w.workspace.supply x.base held := (h.clients i x hx).holds held hheld

theorem traced_of_stored (h : Steady guarded c l w) {id : Uuid} {d : Definition}
    (hd : c.stored? w.workspace.store.catalog id = some d) :
    d.Traced guarded l w.workspace.supply ∧ d.id = id := by
  obtain ⟨-, hid, ht, -⟩ := h.stocked.stored?_eq_some hd
  exact ⟨ht, hid⟩

theorem connected (h : Sound c l w) (i : Nat) (x : Client) (hx : w.clients i = some x) :
    x.dataset.connection = c := (h.clients i x hx).connected trivial

end Steady

theorem over_acts (hq : c.Quiet) (acts : List Act) :
    ∀ e ∈ acts.map (Deed.act c), e.Over c := by
  intro e he
  obtain ⟨a, -, rfl⟩ := List.mem_map.1 he
  exact ⟨rfl, hq⟩

theorem run_commits (hq : c.Quiet) (h : w.workspace.transaction = none) (acts : List Act) :
    w.workspace.Commits (w.run c acts).workspace :=
  run_eq_play c w acts ▸ play_commits (over_acts hq acts) h

theorem run_leads (hq : c.Quiet) (_ : c.classes.Named) (h : Sound c l w) (acts : List Act)
    (hf : (w.run c acts).workspace.supply.Fits c.definitions) :
    ∃ l', Leads c l l' w (w.run c acts) := by
  rw [run_eq_play] at hf ⊢
  refine play_carries (over_acts hq acts) (fun _ e he => ?_) h hf
  obtain ⟨a, -, rfl⟩ := List.mem_map.1 he
  rfl

/-- What a stored definition names is still named by the definition that is stored later under the
same identifier. -/
def Remembers (c : Connection) (ws ws' : Workspace) : Prop :=
  ∀ id d d', c.stored? ws.store.catalog id = some d → c.stored? ws'.store.catalog id = some d' →
    ∀ name, d.Names name → d'.Names name

theorem Leads.sound (h : Leads c l l' w w') : Sound c l' w' := h.steady

/-- A definition that was stored once is either gone or still names all that it named. -/
theorem Leads.remembers (h : Sound c l w) {w' : World} (hl : Leads c l l' w w')
    (hs : w.workspace.supply.Later w'.workspace.supply)
    (hf : w'.workspace.supply.Fits c.definitions) : Remembers c w.workspace w'.workspace := by
  intro id d d' hd hd' name hn
  rcases hl.evolves id d' hd' with ⟨d₀, hd₀, hfollows⟩ | ⟨k, hk, hk', hid⟩
  · rw [hd] at hd₀
    injection hd₀ with hd₀
    exact hfollows.keeps name (hd₀ ▸ hn)
  · obtain ⟨ht, hid'⟩ := h.traced_of_stored hd
    exact absurd (hid'.trans hid) (ht.ne_fresh hs hf hk hk')

end World
end SchemaKeeper
