import SchemaKeeper.Proofs.Session.Backed

/-!
# Well-formed datasets

Whatever the clients of a session over one connection do, by actions, copies of live schemas and
records, each of their datasets stays well-formed: what it holds fits together and fits its
standing, and its live schema has documents at the root.  The live schema is never assigned here.
-/
namespace SchemaKeeper

open Catalog Op

namespace Dataset
variable {d : Dataset}

theorem newRecord_idles : Idles d.newRecord :=
  (idles_lift _).bind fun _ => idles_freshId.bind fun _ => idles_pure _

theorem loadRecord_idles (id : Uuid) : Idles (d.loadRecord id) := by
  refine (idles_lift _).bind fun cs => (idles_lift _).bind fun root => (idles_lift _).bind
    fun collection => observes_catalog.idles.bind fun catalog => ?_
  cases catalog.findOne collection "_id" (.string id.text) with
  | none => exact idles_pure none
  | some document => exact (idles_lift _).bind fun r => idles_pure (some r)

theorem loadRecords_idles : Idles d.loadRecords :=
  (idles_lift _).bind fun _ => (idles_lift _).bind fun _ => (idles_lift _).bind fun _ =>
    observes_catalog.idles.bind fun _ => (observes_liftStore _).idles.bind fun documents =>
      Idles.mapM (fun _ => idles_lift _) documents

/-- What a client holds of a dataset fits together and fits its standing. -/
structure WellFormed (d : Dataset) : Prop where
  /-- A definition is held just when there is a dataset, -/
  definition : d.definition?.isSome = true ↔
    d.standing.text = "Attached" ∨ d.standing.text = "Draft"
  /-- and so are validators -/
  validators : d.validators?.isSome = true ↔
    d.standing.text = "Attached" ∨ d.standing.text = "Draft"
  /-- and collections. -/
  collections : d.collections?.isSome = true ↔
    d.standing.text = "Attached" ∨ d.standing.text = "Draft"
  /-- The fields are in order. -/
  ascending : ∀ held, d.standing.holding? = some held →
    held.definition.fields.Pairwise fun a b => a.path < b.path
  /-- The paths with a collection are those where documents stand, directly or in lists and
  dictionaries, each with the name that its field records. -/
  mapped : ∀ held, d.standing.holding? = some held → ∀ path name,
    held.definition.collections.get? path = some name ↔ ∃ f ∈ held.definition.fields,
      f.path = path ∧ f.type.nested? ≠ none ∧ f.collection = some name
  /-- Where documents stand a collection is recorded. -/
  recorded : ∀ held, d.standing.holding? = some held → ∀ f ∈ held.definition.fields,
    f.type.nested? ≠ none ↔ f.collection ≠ none
  /-- No two paths share a collection, -/
  apart : ∀ held, d.standing.holding? = some held → held.definition.collections.Apart
  /-- and each collection has its validator, as long as all tuples can be counted in a word. -/
  screened : ∀ held, d.standing.holding? = some held →
    (∀ f ∈ held.definition.fields, f.type.isCounted = true) →
    ∀ name, held.validators.contains name = true ↔ name ∈ held.definition.collections.values
  /-- Fields and validators make a schema, which is the live one if there were no edits. -/
  recovered : ∀ held, d.standing.holding? = some held → ∃ s,
    Layout.schema held.definition.fields held.validators d.connection.classes = .ok s ∧
      (d.standing = .attached held → s = d.live)
  /-- Documents stand at the root. -/
  root : ∃ k, d.live.typeAt "" = .ok (.document k)
  /-- Nothing can be done with a dataset that was deleted. -/
  deleted : d.standing = .deleted →
    (∀ path type, d.addField path type = .error .notAttached) ∧
    (∀ path, d.removeField path = .error .notAttached) ∧
    ∀ ws, d.commit ws = .error .notAttached ws ∧ d.delete ws = .error .notAttached ws

theorem isSome_holding?_iff (s : Standing) :
    s.holding?.isSome = true ↔ s.text = "Attached" ∨ s.text = "Draft" := by
  cases s <;> simp [Standing.holding?, Standing.text]

/-- After a deletion edits, commits and deletions are refused. -/
theorem refused_of_deleted (h : d.standing = .deleted) :
    (∀ path type, d.addField path type = .error .notAttached) ∧
      (∀ path, d.removeField path = .error .notAttached) ∧
      ∀ ws, d.commit ws = .error .notAttached ws ∧ d.delete ws = .error .notAttached ws := by
  have hedit : ∀ path, d.checkEditable path = .error .notAttached := fun path => by
    rw [checkEditable, h]
  have hholding : d.holding = .error .notAttached := by
    rw [holding, h]
    rfl
  refine ⟨fun path type => ?_, fun path => ?_, fun ws => ⟨?_, ?_⟩⟩
  · rw [addField, hedit]
    rfl
  · rw [removeField, hedit]
    rfl
  · rw [commit, hholding]
    rfl
  · rw [delete, hholding]
    rfl

end Dataset

/-- What a client does in a session: an action, a copy of the live schema of one client as the
dataset of another one, or something with the records of its dataset. -/
inductive Move where
  | act (a : Act)
  | copy (i j : Nat)
  | newRecord (i : Nat)
  | loadRecord (i : Nat) (id : Uuid)
  | loadRecords (i : Nat)

/-- The client that gets another dataset. -/
def Move.brings? : Move → Option Nat
  | .act (.create i ..) => some i
  | .act (.load i _) => some i
  | .act (.read i _) => some i
  | .copy _ j => some j
  | _ => none

/-- The dataset of a client is described by some schema and has its validators, shows what was last
seen unless it was edited, and has documents at its root. -/
structure Client.Coherent (x : Client) : Prop where
  described : ∀ held, x.dataset.standing.holding? = some held → ∃ s,
    Layout.Describes held.definition.fields s ∧
      ((∀ f ∈ held.definition.fields, f.type.isCounted = true) →
        Layout.validators held.definition.collections s = .ok held.validators)
  attached : ∀ held, x.dataset.standing = .attached held → x.dataset.live = x.base
  root : ∃ k, x.dataset.live.typeAt "" = .ok (.document k)

namespace Client
variable {x : Client} {c : Connection} {l : Ledger} {s : Supply} {catalog : Catalog} {d : Dataset}
  {held : Holding}

/-- A client that has just got its dataset and holds what the catalog has is coherent. -/
theorem coherent_of_persists (hp : Dataset.Persists catalog d held)
    (hh : d.Holds True l s d.live held) : Coherent ⟨d, d.live⟩ := by
  refine ⟨fun held' hheld' => ?_, fun _ _ => rfl, hh.root_document trivial⟩
  simp only [hp.standing] at hheld'
  injection hheld' with hheld'
  subst hheld'
  obtain ⟨schema, hdescribes, hvalidators⟩ := hp.described
  exact ⟨schema, hdescribes, fun _ => hvalidators⟩

/-- A client that has just read its dataset is coherent. -/
theorem coherent_of_readFrom {key : DatasetKey} (h : catalog.Stocked True c l s)
    (hb : catalog.Backed c) (hr : Dataset.readFrom c key catalog = .ok d) :
    Coherent ⟨d, d.live⟩ := by
  obtain ⟨held, -, hstanding, hholds, hdoc, -⟩ := Dataset.readFrom_stocked h hr
  refine ⟨fun held' hheld' => ?_, fun _ _ => rfl, hholds.root_document trivial⟩
  obtain ⟨document, definition, live, -, -, -, rfl⟩ := Dataset.readFrom_ok hr
  injection hstanding with hstanding
  subst hstanding
  injection hheld' with hheld'
  subst hheld'
  have hstored := Stocked.stored?_of_documentAt h.keeps hholds.traced.writable hdoc
  obtain ⟨schema, v, hdescribes, hvalidators, hinstalls⟩ := hb _ _ hstored
  have hspeak := Layout.validators_speak hvalidators
  refine ⟨schema, hdescribes, fun hcounted => ?_⟩
  -- Each validator is read from its document as it was installed.
  rw [hvalidators]
  congr 1
  exact (Layout.loaded_eq hvalidators hinstalls fun name rule hrule =>
    (hspeak name rule hrule).isTitled.ofDocument?_document
      ((hspeak name rule hrule).counted hdescribes hcounted)).symm

/-- An edited client is coherent. -/
theorem Coherent.edit (h : x.Coherent) (he : x.dataset.Edits d) :
    Coherent { x with dataset := d } := by
  refine ⟨fun held hheld => h.described held (he.holding ▸ hheld), fun held hstanding => ?_, ?_⟩
  · -- No edit leaves a dataset in step.
    have hedited := he.standing.symm.trans hstanding
    cases hstanding₀ : x.dataset.standing <;> rw [hstanding₀] at hedited <;> cases hedited
  · obtain ⟨k, hk⟩ := h.root
    obtain ⟨f, hf, hft⟩ := Schema.typeAt_eq_ok.1 hk
    exact ⟨k, Schema.typeAt_eq_ok.2 ⟨f, he.root f hf, hft⟩⟩

/-- A client without a dataset is coherent if its schema has documents at the root. -/
theorem coherent_of_root {base : Schema} (hnone : d.standing.holding? = none)
    (hroot : ∃ k, d.live.typeAt "" = .ok (.document k)) : Coherent ⟨d, base⟩ := by
  refine ⟨fun held hheld => ?_, fun held hheld => ?_, hroot⟩
  · cases hnone.symm.trans hheld
  · rw [show d.standing = _ from hheld] at hnone
    cases hnone

/-- The dataset of a coherent client is well-formed. -/
theorem Coherent.wellFormed {ws : Workspace} (h : x.Coherent) (hk : x.Keeps True c l ws)
    (hf : ws.supply.Fits c.definitions) : x.dataset.WellFormed := by
  have hpresent := Dataset.isSome_holding?_iff x.dataset.standing
  refine ⟨?_, ?_, ?_, fun held hheld => (hk.holds held hheld).traced.ascending,
    fun held hheld path name => ?_, fun held hheld f hmem => ?_, fun held hheld => ?_,
    fun held hheld hcounted name => ?_, fun held hheld => ?_, h.root, Dataset.refused_of_deleted⟩
  · simpa [Dataset.definition?] using hpresent
  · simpa [Dataset.validators?] using hpresent
  · simpa [Dataset.collections?, Dataset.definition?] using hpresent
  · obtain ⟨s, hdescribes, -⟩ := h.described held hheld
    refine (Layout.collections_get?_iff hdescribes.ascending).trans ?_
    constructor
    · rintro ⟨f, hmem, hpath, hcollection⟩
      refine ⟨f, hmem, hpath, ?_, hcollection⟩
      rw [hdescribes.nested?_ne_none_iff hmem, hcollection]
      exact Option.some_ne_none name
    · rintro ⟨f, hmem, hpath, -, hcollection⟩
      exact ⟨f, hmem, hpath, hcollection⟩
  · obtain ⟨s, hdescribes, -⟩ := h.described held hheld
    exact hdescribes.nested?_ne_none_iff hmem
  · exact hf.apart (hk.holds held hheld).traced.live
  · obtain ⟨s, hdescribes, hvalidators⟩ := h.described held hheld
    have hvalidators := hvalidators hcounted
    rw [Keyed.contains_iff]
    constructor
    · rintro ⟨rule, hrule⟩
      obtain ⟨path, k, ps, hpath, -⟩ := (Layout.validators_speak hvalidators name rule hrule).titled
      exact Keyed.mem_values.2 ⟨path, hpath⟩
    · exact Layout.exists_validator hvalidators
  · exact ⟨x.base, (hk.holds held hheld).seen, fun hattached => (h.attached held hattached).symm⟩

end Client

namespace World
variable {c : Connection} {l : Ledger} {w w₀ : World} {ws : Workspace} {m : Move} {i : Nat}
  {x : Client} {moves : List Move}

/-- One move of a client over a connection. -/
def move (c : Connection) (w : World) : Move → World
  | .act a => w.step c a
  | .copy i j => w.withClient i fun x => w.put j ⟨x.dataset.copy, x.dataset.live⟩
  | .newRecord i => w.withClient i fun x =>
    { w with workspace := after x.dataset.newRecord w.workspace }
  | .loadRecord i id =>
    w.withClient i fun x => { w with workspace := after (x.dataset.loadRecord id) w.workspace }
  | .loadRecords i =>
    w.withClient i fun x => { w with workspace := after x.dataset.loadRecords w.workspace }

/-- Moves one after the other. -/
def take (c : Connection) (w : World) (moves : List Move) : World := moves.foldl (move c) w

@[simp] theorem take_nil (c : Connection) (w : World) : w.take c [] = w := rfl

@[simp] theorem take_cons (c : Connection) (w : World) (m : Move) (moves : List Move) :
    w.take c (m :: moves) = (w.move c m).take c moves := rfl

/-- What every session of moves keeps. -/
structure Regular (c : Connection) (w : World) : Prop where
  steady : ∃ l, Steady True c l w
  backed : w.workspace.store.catalog.Backed c
  coherent : ∀ i x, w.clients i = some x → x.Coherent

theorem regular_of_blank (h : w.Blank) : Regular c w :=
  ⟨⟨fun k => (w.workspace.supply.ids k, ""), steady_of_blank h _⟩, backed_of_blank h,
    fun _ _ hx => absurd hx h.clients_ne_some⟩

theorem step_coherent (hq : c.Quiet) {a : Act} (h : Regular c w)
    (hf : (w.step c a).workspace.supply.Fits c.definitions) :
    ∀ i x, (w.step c a).clients i = some x → x.Coherent := by
  obtain ⟨⟨l, hsteady⟩, hbacked, hcoherent⟩ := h
  have hgoes : w.Goes (.act c a) (w.step c a) := does_goes (c := c) ⟨rfl, hq⟩ hsteady.closed
  generalize w.step c a = w' at hgoes hf
  cases hgoes with
  | stays | save => exact hcoherent
  | create granted =>
    obtain ⟨_, held, _, -, -, hholds, -, -, -, -, -, hpersists⟩ :=
      Dataset.createFrom_stores hsteady.stocked hf granted
    exact forall_clients_put hcoherent (Client.coherent_of_persists hpersists hholds)
  | load granted =>
    obtain ⟨_, held, -, -, hholds, -, -, -, -, hpersists⟩ :=
      Dataset.load_stores hq hsteady.closed hsteady.stocked hf granted
    exact forall_clients_put hcoherent (Client.coherent_of_persists hpersists hholds)
  | read granted =>
    have hfrom := ((Dataset.observes_read _ _).ok granted).1
    rw [Workspace.visible_of_closed hsteady.closed] at hfrom
    exact forall_clients_put hcoherent (Client.coherent_of_readFrom hsteady.stocked hbacked hfrom)
  | addField client granted =>
    exact forall_clients_put hcoherent ((hcoherent _ _ client).edit (Dataset.addField_edits granted))
  | removeField client granted =>
    exact forall_clients_put hcoherent ((hcoherent _ _ client).edit (Dataset.removeField_edits granted))
  | @commit _ i x d ws client granted =>
    obtain ⟨hc, -, hholds, -⟩ := hsteady.clients i x client
    obtain ⟨held, _, _, hheld, -⟩ := Dataset.commit_ok granted
    obtain ⟨_, held', -, -, hholds', -, -, hpersists⟩ :=
      Dataset.commit_stores (hsteady.stocked.congr hc) hheld (hholds held hheld) granted
    exact forall_clients_put hcoherent (Client.coherent_of_persists hpersists hholds')
  | @delete _ i x d ws client granted =>
    obtain ⟨_, _, -, rfl, -⟩ := hsteady.deletes client hf granted
    exact forall_clients_put hcoherent (Client.coherent_of_root rfl (hcoherent _ _ client).root)

/-- Where nothing moves but the journal and the supply, what a session keeps stays. -/
theorem Regular.rests (h : Regular c w) (hr : w.workspace.Rests ws)
    (hf : ws.supply.Fits c.definitions) : Regular c { w with workspace := ws } := by
  obtain ⟨⟨l, hsteady⟩, hbacked, hcoherent⟩ := h
  have hunchanged := hr.unchanged hsteady.closed
  exact ⟨⟨l, hsteady.stays hunchanged hf⟩, hunchanged.catalog.symm ▸ hbacked, hcoherent⟩

theorem Regular.withClient {f : Client → World} (h : Regular c w)
    (hf : (w.withClient i f).workspace.supply.Fits c.definitions)
    (hx : ∀ x, w.clients i = some x → (f x).workspace.supply.Fits c.definitions →
      Regular c (f x)) : Regular c (w.withClient i f) := by
  unfold World.withClient at hf ⊢
  cases hi : w.clients i with
  | none => exact h
  | some x =>
    rw [hi] at hf
    exact hx x hi hf

/-- A move keeps what a session keeps. -/
theorem Regular.move (h : Regular c w) (hq : c.Quiet)
    (hf : (w.move c m).workspace.supply.Fits c.definitions) : Regular c (w.move c m) := by
  cases m with
  | act a =>
    obtain ⟨l, hsteady⟩ := h.steady
    obtain ⟨l', htakes⟩ := does_takes (e := .act c a) ⟨rfl, hq⟩ (fun _ => rfl) hsteady hf
    exact ⟨⟨l', htakes.steady⟩,
      does_backed (e := .act c a) ⟨rfl, hq⟩ hsteady hf h.backed, step_coherent hq h hf⟩
  | copy i j =>
    refine h.withClient hf fun x hx _ => ?_
    obtain ⟨l, hsteady⟩ := h.steady
    have hnone : ∀ held, x.dataset.copy.standing.holding? ≠ some held := nofun
    have hkeeps : Client.Keeps True c l w.workspace ⟨x.dataset.copy, x.dataset.live⟩ :=
      ⟨(hsteady.clients i x hx).definitions, (hsteady.clients i x hx).connected,
        fun held hheld => absurd hheld (hnone held), fun held hheld => absurd hheld (hnone held)⟩
    exact ⟨⟨l, hsteady.put hkeeps⟩, h.backed,
      forall_clients_put h.coherent (Client.coherent_of_root rfl (h.coherent i x hx).root)⟩
  | newRecord i =>
    exact h.withClient hf fun x _ hf => h.rests (Dataset.newRecord_idles w.workspace) hf
  | loadRecord i id =>
    exact h.withClient hf fun x _ hf => h.rests (Dataset.loadRecord_idles id w.workspace) hf
  | loadRecords i =>
    exact h.withClient hf fun x _ hf => h.rests (Dataset.loadRecords_idles w.workspace) hf

/-- A move draws identifiers and times on from where they were. -/
theorem later_move (hq : c.Quiet) (h : w.workspace.transaction = none) :
    w.workspace.Commits (w.move c m).workspace := by
  cases m with
  | act a => exact step_commits hq h a
  | copy i j =>
    exact commits_withClient h fun _ => ((Workspace.Rests.refl _).unchanged h).commits
  | newRecord i =>
    exact commits_withClient h fun _ => ((Dataset.newRecord_idles _).unchanged h).commits
  | loadRecord i id =>
    exact commits_withClient h fun _ => ((Dataset.loadRecord_idles id _).unchanged h).commits
  | loadRecords i =>
    exact commits_withClient h fun _ => ((Dataset.loadRecords_idles _).unchanged h).commits

theorem take_commits (hq : c.Quiet) (h : w.workspace.transaction = none) :
    w.workspace.Commits (w.take c moves).workspace := by
  induction moves generalizing w with
  | nil => exact ((Workspace.Rests.refl _).unchanged h).commits
  | cons m moves ih =>
    have hmove : w.workspace.Commits (w.move c m).workspace := later_move hq h
    exact hmove.trans (ih hmove.transaction)

/-- What a session keeps is kept to its end. -/
theorem Regular.take (h : Regular c w) (hq : c.Quiet)
    (hf : (w.take c moves).workspace.supply.Fits c.definitions) : Regular c (w.take c moves) := by
  induction moves generalizing w with
  | nil => exact h
  | cons m moves ih =>
    obtain ⟨l, hsteady⟩ := h.steady
    have hmove : w.workspace.Commits (w.move c m).workspace := later_move hq hsteady.closed
    exact ih (h.move hq (hf.of_later (take_commits hq hmove.transaction).supply)) hf

theorem clients_receive_of_ne {j : Nat} {r : EStateM.Result Refusal Workspace Dataset}
    (h : i ≠ j) : (w.receive j r).clients i = w.clients i := by
  cases r with
  | ok d ws => exact clients_put_of_ne h
  | error e ws => rfl

theorem clients_edit_of_ne {j : Nat} {y : Client} {r : Except Refusal Dataset} (h : i ≠ j) :
    (w.edit j y r).clients i = w.clients i := by
  cases r with
  | ok d => exact clients_put_of_ne h
  | error e => rfl

theorem clients_withClient {j : Nat} {f : Client → World}
    (h : ∀ y, w.clients j = some y → (f y).clients i = w.clients i) :
    (w.withClient j f).clients i = w.clients i := by
  unfold withClient
  cases hj : w.clients j with
  | none => rfl
  | some y => exact h y hj

/-- A client whose dataset was deleted stays with it until it gets another one. -/
theorem clients_move_of_deleted (hx : w.clients i = some x) (hd : x.dataset.standing = .deleted)
    (hm : m.brings? ≠ some i) : (w.move c m).clients i = w.clients i := by
  obtain ⟨hadd, hremove, hop⟩ := Dataset.refused_of_deleted hd
  -- Another client's move leaves this one alone, and its own moves are refused.
  have hown : ∀ {f : Client → World} {j : Nat}, ((f x).clients i = w.clients i) →
      (∀ y, i ≠ j → (f y).clients i = w.clients i) →
      (w.withClient j f).clients i = w.clients i := by
    intro f j hsame hother
    refine clients_withClient fun y hy => ?_
    by_cases hij : i = j
    · subst hij
      obtain rfl : x = y := Option.some.inj (hx.symm.trans hy)
      exact hsame
    · exact hother y hij
  cases m with
  | copy k j =>
    have hij : i ≠ j := fun hij => hm (hij ▸ rfl)
    exact clients_withClient fun y _ => clients_put_of_ne hij
  | newRecord | loadRecord | loadRecords => exact clients_withClient fun y _ => rfl
  | act a =>
    cases a with
    | create j | load j | read j =>
      exact clients_receive_of_ne fun hij => hm (hij ▸ rfl)
    | addField j path type => exact hown (by rw [hadd]; rfl) fun y => clients_edit_of_ne
    | removeField j path => exact hown (by rw [hremove]; rfl) fun y => clients_edit_of_ne
    | commit j => exact hown (by rw [(hop _).1]; rfl) fun y => clients_receive_of_ne
    | delete j => exact hown (by rw [(hop _).2]; rfl) fun y => clients_receive_of_ne
    | save j r => exact clients_withClient fun y _ => rfl

/-- Whatever happens in a session over one connection, every dataset stays well-formed, and one that
was deleted stays deleted until its client gets another one. -/
theorem take_wellFormed (hq : c.Quiet) (hb : w₀.Blank)
    (hf : (w₀.take c moves).workspace.supply.Fits c.definitions)
    (hx : (w₀.take c moves).clients i = some x) :
    x.dataset.WellFormed ∧ x.dataset.connection = c ∧
      (x.dataset.standing = .deleted → ∀ m : Move, m.brings? ≠ some i →
        ((w₀.take c moves).move c m).clients i = some x) := by
  have hregular := (regular_of_blank hb).take hq hf
  obtain ⟨l, hsteady⟩ := hregular.steady
  have hkeeps := hsteady.clients i x hx
  exact ⟨(hregular.coherent i x hx).wellFormed hkeeps hf, hkeeps.connected trivial,
    fun hd m hm => (clients_move_of_deleted hx hd hm).trans hx⟩

section Sample
open Layout

/-- One client creates a dataset and deletes it.  Another one reads it before and edits it, and a
third one gets a copy of the live schema. -/
def sampleMoves : List Move :=
  [.act (.create 0 "d" sampleClass.rootSchema none false), .act (.read 1 (.byName "d")),
    .newRecord 1, .act (.addField 1 "cover" (.document boxClass)), .copy 1 2, .act (.delete 0)]

/-- All three datasets are well-formed. -/
theorem take_wellFormed_sample : ∃ x y z,
    (sampleWorld.take sampleConnection sampleMoves).clients 0 = some x ∧
    (sampleWorld.take sampleConnection sampleMoves).clients 1 = some y ∧
    (sampleWorld.take sampleConnection sampleMoves).clients 2 = some z ∧
    x.dataset.standing.text = "Deleted" ∧ y.dataset.standing.text = "Draft" ∧
    z.dataset.standing.text = "Detached" ∧
    x.dataset.WellFormed ∧ y.dataset.WellFormed ∧ z.dataset.WellFormed := by
  have hcheck : ((sampleWorld.take sampleConnection sampleMoves).workspace.supply.isFit &&
      ((sampleWorld.take sampleConnection sampleMoves).clients 0).any fun x =>
        ((sampleWorld.take sampleConnection sampleMoves).clients 1).any fun y =>
          ((sampleWorld.take sampleConnection sampleMoves).clients 2).any fun z => decide
            (x.dataset.standing.text = "Deleted" ∧ y.dataset.standing.text = "Draft" ∧
              z.dataset.standing.text = "Detached")) = true := by
    decide +kernel
  obtain ⟨hfit, hcheck⟩ := Bool.and_eq_true_iff.1 hcheck
  obtain ⟨x, hx, hcheck⟩ := (Option.any_eq_true _ _).1 hcheck
  obtain ⟨y, hy, hcheck⟩ := (Option.any_eq_true _ _).1 hcheck
  obtain ⟨z, hz, hcheck⟩ := (Option.any_eq_true _ _).1 hcheck
  obtain ⟨hxd, hyd, hzd⟩ := of_decide_eq_true hcheck
  have hq : sampleConnection.Quiet := Connection.quiet_plain _ _
  have hblank : sampleWorld.Blank := ⟨rfl, rfl, fun _ => rfl⟩
  have hf : (sampleWorld.take sampleConnection sampleMoves).workspace.supply.Fits
      sampleConnection.definitions := .of_isFit (by decide) hfit
  exact ⟨x, y, z, hx, hy, hz, hxd, hyd, hzd, (take_wellFormed hq hblank hf hx).1,
    (take_wellFormed hq hblank hf hy).1, (take_wellFormed hq hblank hf hz).1⟩

end Sample

end World
end SchemaKeeper
