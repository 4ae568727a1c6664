import SchemaKeeper.Proofs.Dataset.Edits
import SchemaKeeper.Proofs.Dataset.Load
import SchemaKeeper.Proofs.Session.Basic

/-!
# One step of a session

A deed leaves the committed catalog alone, stores one definition, removes one, or fills collections
of a dataset.  Whichever it is, the store keeps its datasets in order, and each client holds a
definition that its dataset can have and that the stored definition follows.
-/
namespace SchemaKeeper

open Catalog Op

namespace Deed

/-- The deed happens over a connection that keeps its definitions where the given one does, and
that no migration uses to write. -/
def Over (c : Connection) : Deed → Prop
  | .act c' _ => c'.definitions = c.definitions ∧ c'.Quiet
  | .assign .. => True

/-- The deed is an action over this very connection. -/
def IsActOver (c : Connection) : Deed → Prop
  | .act c' _ => c' = c
  | .assign .. => False

/-- The deed is meant to store a definition of an identifier and a name anew: a client that holds
it commits it, or it is loaded by its name. -/
def Revises (w : World) (id : Uuid) (name : String) : Deed → Prop
  | .act _ (.load _ key) => key = .byName name
  | .act _ (.commit i) => w.heldId? i = some id
  | _ => False

/-- The deed is meant to delete the dataset of an identifier. -/
def Removes (w : World) (id : Uuid) : Deed → Prop
  | .act _ (.delete i) => w.heldId? i = some id
  | _ => False

end Deed

/-- Each definition that is stored afterwards follows the one that was stored before, or has an
identifier that was drawn in between. -/
def Workspace.Evolves (c : Connection) (ws ws' : Workspace) : Prop :=
  ∀ id d', c.stored? ws'.store.catalog id = some d' →
    (∃ d, c.stored? ws.store.catalog id = some d ∧ d'.Follows d) ∨
      ∃ k, ws.supply.drawn ≤ k ∧ k < ws'.supply.drawn ∧ id = ws'.supply.ids k

/-- What a step can do to the catalog.  The predicates say of which datasets it may store a
definition anew, and which it may delete. -/
inductive Effect (guarded : Prop) (c : Connection) (revises : Uuid → String → Prop)
    (removes : Uuid → Prop) (l l' : Ledger) (ws ws' : Workspace) : Prop where
  | nothing (same : ws'.store.catalog = ws.store.catalog)
  | creates (d : Definition) (k : Nat) (traced : d.Traced guarded l' ws'.supply)
    (stores : Stores c d ws.store.catalog ws'.store.catalog)
    (stocked : ws'.store.catalog.Stocked guarded c l' ws'.supply) (le : ws.supply.drawn ≤ k)
    (lt : k < ws'.supply.drawn) (id : d.id = ws'.supply.ids k)
  | revises (d latest : Definition) (traced : d.Traced guarded l' ws'.supply)
    (stores : Stores c d ws.store.catalog ws'.store.catalog)
    (stocked : ws'.store.catalog.Stocked guarded c l' ws'.supply)
    (stored : c.stored? ws.store.catalog d.id = some latest) (follows : d.Follows latest)
    (meant : revises d.id d.name)
  | removes (id : Uuid) (names : List String)
    (ascribes : ∀ name ∈ names, ∃ path, l.Ascribes ws.supply.ids ws.supply.drawn name id path)
    (removed : Catalog.Removes c id.text names ws.store.catalog ws'.store.catalog)
    (meant : removes id)
  | fills (p : String → Prop) (filled : Fills p ws.store.catalog ws'.store.catalog)
    (apart : ¬ p c.definitions)

namespace Effect
variable {guarded : Prop} {c : Connection} {revises : Uuid → String → Prop}
  {removes : Uuid → Prop} {l l' : Ledger} {ws ws' : Workspace}

theorem stocked (he : Effect guarded c revises removes l l' ws ws') (hw : ws.Commits ws')
    (hf : ws.supply.Fits c.definitions) (hl : l.AgreeBelow ws.supply.drawn l')
    (h : ws.store.catalog.Stocked guarded c l ws.supply) :
    ws'.store.catalog.Stocked guarded c l' ws'.supply := by
  have hkeeps := hw.keeps h.keeps
  cases he with
  | nothing same => exact same ▸ h.mono hw.supply hl
  | creates d k traced stores stocked => exact stocked
  | revises d latest traced stores stocked => exact stocked
  | removes id names ascribes removed =>
    exact (h.removes hf hkeeps ascribes removed).mono hw.supply hl
  | fills p filled apart => exact (h.fills hkeeps filled apart).mono hw.supply hl

theorem evolves (he : Effect guarded c revises removes l l' ws ws') (hb : ws.store.catalog.Keeps)
    (ha : ws'.store.catalog.Keeps) : ws.Evolves c ws' := by
  intro id d' hd'
  cases he with
  | nothing same => exact .inl ⟨d', same ▸ hd', .refl d'⟩
  | creates d k traced stores stocked le lt hid =>
    rw [stores.stored? hb ha traced.writable] at hd'
    split at hd'
    · rename_i heq
      exact .inr ⟨k, le, lt, heq ▸ hid⟩
    · exact .inl ⟨d', hd', .refl d'⟩
  | revises d latest traced stores stocked stored follows =>
    rw [stores.stored? hb ha traced.writable] at hd'
    split at hd'
    · rename_i heq
      injection hd' with hd'
      subst heq hd'
      exact .inl ⟨latest, stored, follows⟩
    · exact .inl ⟨d', hd', .refl d'⟩
  | removes id' names ascribes removed =>
    rw [removed.stored? hb ha] at hd'
    split at hd'
    · cases hd'
    · exact .inl ⟨d', hd', .refl d'⟩
  | fills p filled apart =>
    rw [filled.stored? hb ha apart] at hd'
    exact .inl ⟨d', hd', .refl d'⟩

end Effect

/-- What is known of a client in a session: where its connection keeps the definitions, that it
holds a definition that its dataset can have, and that the stored definition follows this one.  In
a guarded session there is but one connection. -/
structure Client.Keeps (guarded : Prop) (c : Connection) (l : Ledger) (ws : Workspace)
    (x : Client) : Prop where
  definitions : x.dataset.connection.definitions = c.definitions
  connected : guarded → x.dataset.connection = c
  holds : ∀ held, x.dataset.standing.holding? = some held →
    x.dataset.Holds guarded l ws.supply x.base held
  followed : ∀ held, x.dataset.standing.holding? = some held →
    ∀ d, c.stored? ws.store.catalog held.definition.id = some d → d.Follows held.definition

namespace World
variable {guarded : Prop} {c : Connection} {l l' : Ledger} {w w' : World} {ws ws' : Workspace}

/-- What every session keeps.  As long as the clients guard the roots of their schemas, the roots
stay documents. -/
structure Steady (guarded : Prop) (c : Connection) (l : Ledger) (w : World) : Prop where
  closed : w.workspace.transaction = none
  stocked : w.workspace.store.catalog.Stocked guarded c l w.workspace.supply
  clients : ∀ i x, w.clients i = some x → x.Keeps guarded c l w.workspace

theorem steady_of_blank (h : w.Blank) (l : Ledger) : Steady guarded c l w where
  closed := h.transaction
  stocked := ⟨fun _ _ hs => absurd hs h.get?_ne_some, fun _ _ hd => absurd hd h.documentAt_ne_some,
    fun _ _ _ _ hd => absurd hd h.documentAt_ne_some⟩
  clients _ _ hx := absurd hx h.clients_ne_some

/-- A deed leads from one steady world to another. -/
structure Takes (guarded : Prop) (c : Connection) (e : Deed) (l l' : Ledger) (w w' : World) :
    Prop where
  agree : l.AgreeBelow w.workspace.supply.drawn l'
  steady : Steady guarded c l' w'
  effect : Effect guarded c (e.Revises w) (e.Removes w) l l' w.workspace w'.workspace

namespace Steady

/-- The workspace moved on, and the clients stood by. -/
theorem moves {revises : Uuid → String → Prop} {removes : Uuid → Prop} (h : Steady guarded c l w)
    (hw : w.workspace.Commits ws') (hf : ws'.supply.Fits c.definitions)
    (hl : l.AgreeBelow w.workspace.supply.drawn l')
    (he : Effect guarded c revises removes l l' w.workspace ws') :
    Steady guarded c l' { w with workspace := ws' } := by
  have hstocked := he.stocked hw (hf.of_later hw.supply) hl h.stocked
  refine ⟨hw.transaction, hstocked, fun i x hx => ?_⟩
  obtain ⟨hover, hconnected, hholds, hfollowed⟩ := h.clients i x hx
  refine ⟨hover, hconnected, fun held hheld => (hholds held hheld).mono hw.supply hl,
    fun held hheld d hd => ?_⟩
  have hevolves := he.evolves h.stocked.keeps hstocked.keeps
  rcases hevolves _ d hd with ⟨d₀, hd₀, hfollows⟩ | ⟨k, hk, hk', hid⟩
  · exact hfollows.trans (hfollowed held hheld d₀ hd₀)
  · exact absurd hid ((hholds held hheld).traced.ne_fresh hw.supply hf hk hk')

theorem advance {e : Deed} (h : Steady guarded c l w) (hw : w.workspace.Commits ws')
    (hf : ws'.supply.Fits c.definitions) (hl : l.AgreeBelow w.workspace.supply.drawn l')
    (he : Effect guarded c (e.Revises w) (e.Removes w) l l' w.workspace ws') :
    Takes guarded c e l l' w { w with workspace := ws' } := ⟨hl, h.moves hw hf hl he, he⟩

theorem put (h : Steady guarded c l w) {i : Nat} {x : Client}
    (hx : x.Keeps guarded c l w.workspace) : Steady guarded c l (w.put i x) :=
  ⟨h.closed, h.stocked, forall_clients_put h.clients hx⟩

/-- Nothing was committed. -/
theorem stays (h : Steady guarded c l w) (hu : w.workspace.Unchanged ws')
    (hf : ws'.supply.Fits c.definitions) : Steady guarded c l { w with workspace := ws' } := by
  have he : Effect guarded c (fun _ _ => False) (fun _ => False) l l w.workspace ws' :=
    .nothing hu.catalog
  exact h.moves hu.commits hf (fun _ _ => rfl) he

theorem unchanged {e : Deed} (h : Steady guarded c l w) (hu : w.workspace.Unchanged ws')
    (hf : ws'.supply.Fits c.definitions) : Takes guarded c e l l w { w with workspace := ws' } :=
  ⟨fun _ _ => rfl, h.stays hu hf, .nothing hu.catalog⟩

theorem still {e : Deed} (h : Steady guarded c l w) : Takes guarded c e l l w w :=
  ⟨fun _ _ => rfl, h, .nothing rfl⟩

/-- An operation gave a client its dataset, or was refused. -/
theorem receive {e : Deed} (h : Steady guarded c l w) {i : Nat}
    {r : EStateM.Result Refusal Workspace Dataset}
    (hf : (w.receive i r).workspace.supply.Fits c.definitions)
    (herror : ∀ e' ws', r = .error e' ws' → w.workspace.Unchanged ws')
    (hok : ∀ d ws', r = .ok d ws' → ws'.supply.Fits c.definitions → w.workspace.Commits ws' ∧
      ∃ l', l.AgreeBelow w.workspace.supply.drawn l' ∧
        Effect guarded c (e.Revises w) (e.Removes w) l l' w.workspace ws' ∧
        Client.Keeps guarded c l' ws' ⟨d, d.live⟩) :
    ∃ l', Takes guarded c e l l' w (w.receive i r) := by
  cases r with
  | error e' ws' => exact ⟨l, h.unchanged (herror e' ws' rfl) hf⟩
  | ok d ws' =>
    obtain ⟨hw, l', hl, he, hx⟩ := hok d ws' rfl hf
    have htakes := h.advance hw hf hl he
    exact ⟨l', hl, htakes.steady.put hx, he⟩

/-- What a client does leads on, if it does where there is such a client. -/
theorem withClient {e : Deed} {i : Nat} {f : Client → World} (h : Steady guarded c l w)
    (hf : (w.withClient i f).workspace.supply.Fits c.definitions)
    (hx : ∀ x, w.clients i = some x → (f x).workspace.supply.Fits c.definitions →
      ∃ l', Takes guarded c e l l' w (f x)) :
    ∃ l', Takes guarded c e l l' w (w.withClient i f) := by
  unfold World.withClient at hf ⊢
  cases hi : w.clients i with
  | none => exact ⟨l, h.still⟩
  | some x =>
    rw [hi] at hf
    exact hx x hi hf

end Steady

/-- A client that holds the stored definition. -/
theorem keeps_of_stored {d : Dataset} {held : Holding}
    (hc : d.connection.definitions = c.definitions) (hg : guarded → d.connection = c)
    (hs : d.standing = .attached held) (hh : d.Holds guarded l ws.supply d.live held)
    (hk : ws.store.catalog.Keeps)
    (hdoc : ws.store.catalog.documentAt d.connection.definitions held.definition.key =
      some held.definition.document) :
    Client.Keeps guarded c l ws ⟨d, d.live⟩ := by
  have hstored := Stocked.stored?_of_documentAt hk hh.traced.writable (hc ▸ hdoc)
  refine ⟨hc, hg, fun held' hheld => ?_, fun held' hheld definition hd => ?_⟩
  all_goals
    simp only [hs] at hheld
    injection hheld with hheld
    subst hheld
  · exact hh
  · rw [hstored] at hd
    injection hd with hd
    exact hd ▸ .refl _

namespace Steady
variable {c' : Connection} {i : Nat} {x : Client}

theorem create {name : String} {s : Schema} {mediaType : Option MediaType} {persistent : Bool}
    (h : Steady guarded c l w) (hc : c'.definitions = c.definitions) (hg : guarded → c' = c)
    (hf : (w.does (.act c' (.create i name s mediaType persistent))).workspace.supply.Fits
      c.definitions) :
    ∃ l', Takes guarded c (.act c' (.create i name s mediaType persistent)) l l' w
      (w.does (.act c' (.create i name s mediaType persistent))) := by
  refine h.receive hf (fun e ws' hop => Dataset.createFrom_error h.closed hop)
    fun d ws' hop hf => ?_
  obtain ⟨-, ws₁, ws₂, hran⟩ := Dataset.createFrom_ok hop
  obtain ⟨l', held, k, hl, hd, hholds, hk, hk', hid, hstores, hstocked, hpersists⟩ :=
    Dataset.createFrom_stores (h.stocked.congr hc) (hc ▸ hf) hop
  exact ⟨hran.commits, l', hl, .creates held.definition k hholds.traced (hstores.congr hc.symm)
    (hstocked.congr hc.symm) hk hk' hid, keeps_of_stored (hd ▸ hc) (hd ▸ hg) hpersists.standing
    hholds hstocked.keeps hpersists.document⟩

theorem read {key : DatasetKey} (h : Steady guarded c l w)
    (hc : c'.definitions = c.definitions) (hg : guarded → c' = c)
    (hf : (w.does (.act c' (.read i key))).workspace.supply.Fits c.definitions) :
    ∃ l', Takes guarded c (.act c' (.read i key)) l l' w (w.does (.act c' (.read i key))) := by
  have hobs := Dataset.observes_read c' key
  refine h.receive hf (fun e ws' hop => (hobs.error hop).unchanged h.closed) fun d ws' hop _ => ?_
  obtain ⟨hfrom, hrests⟩ := hobs.ok hop
  have hu := hrests.unchanged h.closed
  rw [Workspace.visible_of_closed h.closed] at hfrom
  obtain ⟨held, hd, hstanding, hholds, hdoc, -⟩ :=
    Dataset.readFrom_stocked (h.stocked.congr hc) hfrom
  have hholds' := hholds.mono hrests.supply fun _ _ => rfl
  rw [← hd, ← hu.catalog] at hdoc
  exact ⟨hu.commits, l, fun _ _ => rfl, .nothing hu.catalog, keeps_of_stored (hd ▸ hc) (hd ▸ hg)
    hstanding hholds' (hu.catalog ▸ h.stocked.keeps) hdoc⟩

theorem load {key : DatasetKey} (h : Steady guarded c l w) (hc : c'.definitions = c.definitions)
    (hg : guarded → c' = c) (hq : c'.Quiet)
    (hf : (w.does (.act c' (.load i key))).workspace.supply.Fits c.definitions) :
    ∃ l', Takes guarded c (.act c' (.load i key)) l l' w (w.does (.act c' (.load i key))) := by
  refine h.receive hf (fun e ws' hop => Dataset.load_error hq h.closed hop) fun d ws' hop hf => ?_
  obtain ⟨l', held, hl, hd, hholds, hname, hstores, hstocked, ⟨latest, hlatest, hfollows⟩,
    hpersists⟩ := Dataset.load_stores hq h.closed (h.stocked.congr hc) (hc ▸ hf) hop
  refine ⟨Dataset.load_commits hq h.closed hop, l', hl, .revises held.definition latest
    hholds.traced (hstores.congr hc.symm) (hstocked.congr hc.symm)
    (stored?_congr hc _ _ ▸ hlatest) hfollows ?_, keeps_of_stored (hd ▸ hc) (hd ▸ hg)
    hpersists.standing hholds hstocked.keeps hpersists.document⟩
  cases key with
  | byId id => cases hop
  | byName name => exact congrArg DatasetKey.byName (hname name rfl).symm

theorem heldId?_eq (hx : w.clients i = some x) {held : Holding}
    (hheld : x.dataset.standing.holding? = some held) : w.heldId? i = some held.definition.id := by
  simp [heldId?, hx, Dataset.definition?, hheld]

theorem commit (h : Steady guarded c l w) (hx : w.clients i = some x)
    (hf : (w.receive i (x.dataset.commit w.workspace)).workspace.supply.Fits c.definitions) :
    ∃ l', Takes guarded c (.act c' (.commit i)) l l' w
      (w.receive i (x.dataset.commit w.workspace)) := by
  refine h.receive hf (fun e ws' hop => Dataset.commit_error h.closed hop) fun d ws' hop hf => ?_
  obtain ⟨held, _, _, hheld, -, ws₁, ws₂, hran⟩ := Dataset.commit_ok hop
  obtain ⟨hc, hg, hholds, hfollowed⟩ := h.clients i x hx
  obtain ⟨l', held', hl, hd, hholds', hreplays, hstores, hpersists⟩ :=
    Dataset.commit_stores (h.stocked.congr hc) hheld (hholds held hheld) hop
  have hfollowed : ∀ latest, x.dataset.connection.stored? w.workspace.store.catalog
      held.definition.id = some latest → latest.Follows held.definition := fun latest hlatest =>
    hfollowed held hheld latest (stored?_congr hc _ _ ▸ hlatest)
  have hkeeps := hran.keeps h.stocked.keeps
  obtain ⟨hstocked, latest, hlatest, hfollows⟩ := hreplays.stocked
    ((h.stocked.congr hc).mono hran.supply_later hl) hholds'.traced hkeeps hstores hfollowed
  refine ⟨hran.commits, l', hl, .revises held'.definition latest hholds'.traced
    (hstores.congr hc.symm) (hstocked.congr hc.symm) (stored?_congr hc _ _ ▸ hlatest) hfollows ?_,
    keeps_of_stored (hd ▸ hc) (hd ▸ hg) hpersists.standing hholds' hkeeps hpersists.document⟩
  show w.heldId? i = some held'.definition.id
  rw [hreplays.id]
  exact heldId?_eq hx hheld

/-- To delete a dataset takes its definition and its collections out of the catalog, and nobody
holds it. -/
theorem deletes {d : Dataset} (h : Steady guarded c l w) (hx : w.clients i = some x)
    (hf : ws'.supply.Fits c.definitions) (hop : x.dataset.delete w.workspace = .ok d ws') :
    ∃ (held : Holding) (names : List String), x.dataset.standing.holding? = some held ∧
      d = { x.dataset with standing := .deleted } ∧ w.workspace.Commits ws' ∧
      (∀ name ∈ names, ∃ path, l.Ascribes w.workspace.supply.ids w.workspace.supply.drawn name
        held.definition.id path) ∧
      Catalog.Removes c held.definition.id.text names w.workspace.store.catalog
        ws'.store.catalog := by
  obtain ⟨held, hheld, hd, ws₁, ws₂, hran⟩ := Dataset.delete_ok hop
  obtain ⟨hc, -, hholds, -⟩ := h.clients i x hx
  have ht := (hholds held hheld).traced
  have hf₀ : w.workspace.supply.Fits c.definitions := hf.of_later hran.supply_later
  obtain ⟨-, hremoves⟩ := Dataset.delete_removes (h.stocked.congr hc) (hc ▸ hf₀) rfl hheld ht hop
  refine ⟨held, _, hheld, hd, hran.commits, fun name hn => ?_, hremoves.congr hc.symm⟩
  exact Dataset.ascribes_dropped ht (fun d₁ hd₁ => by
    obtain ⟨-, hid, ht₁, -⟩ := (h.stocked.congr hc).stored?_eq_some hd₁
    exact ⟨ht₁, hid⟩) hn

/-- To save a record fills collections of records. -/
theorem saves {r : Record} (h : Steady guarded c l w) (hx : w.clients i = some x)
    (hf : ws'.supply.Fits c.definitions) (hop : x.dataset.saveRecord r w.workspace = .ok () ws') :
    w.workspace.Commits ws' ∧ ∃ p : String → Prop,
      Fills p w.workspace.store.catalog ws'.store.catalog ∧ ¬ p c.definitions := by
  obtain ⟨held, hheld, ws₁, ws₂, hran⟩ := Dataset.saveRecord_ok hop
  have ht := ((h.clients i x hx).holds held hheld).traced
  have hf₀ : w.workspace.supply.Fits c.definitions := hf.of_later hran.supply_later
  refine ⟨hran.commits, _, Dataset.fills_of_ran hran, fun hin => ?_⟩
  obtain ⟨path, ha⟩ := ht.ascribes (.inl hin)
  exact hf₀.ne_definitions ha rfl

theorem delete (h : Steady guarded c l w) (hx : w.clients i = some x)
    (hf : (w.receive i (x.dataset.delete w.workspace)).workspace.supply.Fits c.definitions) :
    ∃ l', Takes guarded c (.act c' (.delete i)) l l' w
      (w.receive i (x.dataset.delete w.workspace)) := by
  refine h.receive hf (fun e ws' hop => Dataset.delete_error h.closed hop) fun d ws' hop hf => ?_
  obtain ⟨held, names, hheld, hd, hcommits, hascribes, hremoves⟩ := h.deletes hx hf hop
  obtain ⟨hc, hg, -, -⟩ := h.clients i x hx
  refine ⟨hcommits, l, fun _ _ => rfl, .removes held.definition.id names hascribes hremoves
    (heldId?_eq hx hheld), ?_⟩
  have hnone : ∀ held' : Holding, d.standing.holding? ≠ some held' := fun held' hheld' => by
    rw [hd] at hheld'
    cases hheld'
  subst hd
  exact ⟨hc, hg, fun held' hheld' => absurd hheld' (hnone held'),
    fun held' hheld' => absurd hheld' (hnone held')⟩

theorem save {r : Record} (h : Steady guarded c l w) (hx : w.clients i = some x)
    (hf : (Op.after (x.dataset.saveRecord r) w.workspace).supply.Fits c.definitions) :
    Takes guarded c (.act c' (.save i r)) l l w
      { w with workspace := Op.after (x.dataset.saveRecord r) w.workspace } := by
  cases hop : x.dataset.saveRecord r w.workspace with
  | error e ws' =>
    rw [after_of_error hop] at hf ⊢
    exact h.unchanged (Dataset.saveRecord_error h.closed hop) hf
  | ok _ ws' =>
    rw [after_of_ok hop] at hf ⊢
    obtain ⟨hcommits, p, hfills, hp⟩ := h.saves hx hf hop
    exact h.advance hcommits hf (fun _ _ => rfl) (.fills p hfills hp)

theorem edit {e : Deed} {r : Except Refusal Dataset} (h : Steady guarded c l w)
    (hx : w.clients i = some x) (hr : ∀ d, r = .ok d → x.dataset.Edits d) :
    Takes guarded c e l l w (w.edit i x r) := by
  cases r with
  | error e' => exact h.still
  | ok d =>
    have he := hr d rfl
    obtain ⟨hc, hg, hholds, hfollowed⟩ := h.clients i x hx
    refine ⟨fun _ _ => rfl, h.put ⟨he.connection ▸ hc, he.connection ▸ hg, fun held hheld => ?_,
      fun held hheld => ?_⟩, .nothing rfl⟩
    · exact (hholds held (he.holding ▸ hheld)).edit he
    · exact hfollowed held (he.holding ▸ hheld)

theorem assign {e : Deed} (h : Steady guarded c l w) (hg : ¬ guarded)
    (hx : w.clients i = some x) (live : Schema) :
    Takes guarded c e l l w (w.put i { x with dataset := { x.dataset with live := live } }) := by
  obtain ⟨hc, -, hholds, hfollowed⟩ := h.clients i x hx
  exact ⟨fun _ _ => rfl, h.put ⟨hc, fun hg' => absurd hg' hg,
    fun held hheld => (hholds held hheld).assign hg live, hfollowed⟩, .nothing rfl⟩

end Steady

/-- One deed leads from a steady world to a steady world. -/
theorem does_takes {e : Deed} (ho : e.Over c) (hg : guarded → e.IsActOver c)
    (h : Steady guarded c l w) (hf : (w.does e).workspace.supply.Fits c.definitions) :
    ∃ l', Takes guarded c e l l' w (w.does e) := by
  cases e with
  | assign i live =>
    refine h.withClient hf fun x hx _ => ⟨l, h.assign (fun hguarded => hg hguarded) hx live⟩
  | act c' a =>
    obtain ⟨hc, hq⟩ := ho
    cases a with
    | create i name s mediaType persistent => exact h.create hc hg hf
    | load i key => exact h.load hc hg hq hf
    | read i key => exact h.read hc hg hf
    | addField i path type =>
      exact h.withClient hf fun x hx _ => ⟨l, h.edit hx fun d hd => Dataset.addField_edits hd⟩
    | removeField i path =>
      exact h.withClient hf fun x hx _ => ⟨l, h.edit hx fun d hd => Dataset.removeField_edits hd⟩
    | commit i => exact h.withClient hf fun x hx hf => h.commit hx hf
    | delete i => exact h.withClient hf fun x hx hf => h.delete hx hf
    | save i r => exact h.withClient hf fun x hx hf => ⟨l, h.save hx hf⟩

end World
end SchemaKeeper
