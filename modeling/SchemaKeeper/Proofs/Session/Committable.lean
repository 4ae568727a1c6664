import SchemaKeeper.Proofs.Dataset.Committable
import SchemaKeeper.Proofs.Session.Agreement
import SchemaKeeper.Proofs.Session.Backed
import SchemaKeeper.Proofs.Session.Records

/-!
# Which accepted edits can be committed

What is checked when a field is added is not all that a commit asks for.  The check follows a type
through lists and dicts to the class at its end, and passes over fields without type; a commit
needs a type for every field, and every class in it registered, in tuples as well.  A client that
nobody else has interfered with commits its edits exactly if they hold to the latter.
-/
namespace SchemaKeeper

open Catalog Op

namespace World
variable {guarded : Prop} {c : Connection} {l : Ledger} {w w₀ : World} {e : Deed}
  {acts rest : List Act} {a : Act} {d : Dataset} {held : Holding} {i : Nat} {x : Client}

/-! ## The collection of definitions -/

theorem registers_of_blank (h : w.Blank) :
    w.workspace.store.catalog.Registers c.definitions := fun _ hs => absurd hs h.get?_ne_some

/-- A deed puts no validator and no further index on the collection of definitions. -/
theorem does_registers (ho : e.Over c) (h : Steady guarded c l w)
    (hf : (w.does e).workspace.supply.Fits c.definitions)
    (hr : w.workspace.store.catalog.Registers c.definitions) :
    (w.does e).workspace.store.catalog.Registers c.definitions := by
  have hgoes := does_goes ho h.closed
  generalize w.does e = w' at hgoes hf
  cases hgoes with
  | stays unchanged => exact unchanged.catalog.symm ▸ hr
  | addField | removeField | assign => exact hr
  | read granted =>
    have hrests := ((Dataset.observes_read _ _).ok granted).2
    exact (congrArg Store.catalog hrests.store).symm ▸ hr
  | create granted =>
    have hc := ho.1
    exact hc ▸ Dataset.createFrom_registers (h.stocked.congr hc) (hc ▸ hf) (hc.symm ▸ hr) granted
  | load granted =>
    have hc := ho.1
    exact hc ▸ Dataset.load_registers ho.2 h.closed (h.stocked.congr hc) (hc ▸ hf) (hc.symm ▸ hr)
      granted
  | commit client granted =>
    obtain ⟨hc, -, hholds, -⟩ := h.clients _ _ client
    obtain ⟨held, _, _, hheld, -⟩ := Dataset.commit_ok granted
    exact hc ▸ Dataset.commit_registers (h.stocked.congr hc) (hc.symm ▸ hf) hheld
      (hholds held hheld) (hc.symm ▸ hr) granted
  | delete client granted =>
    have hc := (h.clients _ _ client).definitions
    exact hc ▸ Dataset.delete_registers (hc.symm ▸ hr) granted
  | save client granted =>
    obtain ⟨-, p, hfills, hp⟩ := h.saves client hf granted
    exact hr.congr (hfills.frame _ hp)

/-! ## Clients that have just got their dataset -/

/-- By the deed a client gets a dataset and is in step with it: it creates, loads, reads or commits
it. -/
inductive Attaches (w : World) : Deed → Dataset → Prop where
  | brings {e : Deed} {d : Dataset} (brought : w.Brings e d) : Attaches w e d
  | read {c : Connection} {i : Nat} {key : DatasetKey} {d : Dataset} {ws : Workspace}
    (granted : Dataset.read c key w.workspace = .ok d ws) : Attaches w (.act c (.read i key)) d

theorem Attaches.standing (ha : w.Attaches e d) (ho : e.Over c)
    (ht : w.workspace.transaction = none) : ∃ held, d.standing = .attached held := by
  cases ha with
  | read granted =>
    obtain ⟨_, _, _, -, -, -, rfl⟩ := Dataset.readFrom_ok ((Dataset.observes_read _ _).ok granted).1
    exact ⟨_, rfl⟩
  | brings brought =>
    cases brought with
    | create granted =>
      obtain ⟨-, _, _, hran⟩ := Dataset.createFrom_ok granted
      obtain ⟨_, _, _, _, _, _, -, -, -, -, -, -, -, -, -, hstanding, -⟩ :=
        Dataset.build_ok rfl hran.work
      exact ⟨_, hstanding⟩
    | load granted =>
      obtain ⟨_, _, _, _, -, -, -, -, hcommit, -⟩ := Dataset.load_ok ho.2 ht granted
      obtain ⟨_, held, _, -, rfl, -⟩ := Dataset.commit_ok hcommit
      exact ⟨held, rfl⟩
    | commit client granted =>
      obtain ⟨_, held, _, -, rfl, -⟩ := Dataset.commit_ok granted
      exact ⟨held, rfl⟩

/-- Some client is left with what it has just got. -/
theorem Attaches.client (ha : w.Attaches e d) : ∃ i, (w.does e).clients i = some ⟨d, d.live⟩ := by
  cases ha with
  | read granted => exact ⟨_, does_read granted ▸ clients_put _ _ _⟩
  | brings brought =>
    cases brought with
    | create granted => exact ⟨_, does_create granted ▸ clients_put _ _ _⟩
    | load granted => exact ⟨_, does_load granted ▸ clients_put _ _ _⟩
    | commit client granted => exact ⟨_, does_commit client granted ▸ clients_put _ _ _⟩

/-- What is read of a backed dataset is what its definition and the validators say that were made
for it, even if not all of these can be read. -/
theorem exists_persists_of_read {c' : Connection} {key : DatasetKey} {catalog : Catalog}
    {s : Supply} (hs : catalog.Stocked guarded c l s) (hf : s.Fits c.definitions)
    (hb : catalog.Backed c) (hc : c'.definitions = c.definitions)
    (hread : Dataset.readFrom c' key catalog = .ok d) (hd : d.standing = .attached held)
    (hroot : held.definition.IsRooted) :
    ∃ v, Dataset.Persists catalog ⟨d.connection, .attached ⟨held.definition, v⟩, d.live⟩
        ⟨held.definition, v⟩ ∧
      ∀ name rule, held.validators.get? name = some rule → v.get? name = some rule := by
  obtain ⟨held₀, hconnection, hstanding, hholds, hdocument, -⟩ :=
    Dataset.readFrom_stocked (hs.congr hc) hread
  rw [hd] at hstanding
  injection hstanding with hstanding
  subst hstanding
  have hstored := Stocked.stored?_of_documentAt hs.keeps hholds.traced.writable (hc ▸ hdocument)
  obtain ⟨schema, v, hdescribes, hvalidators, hinstalls⟩ := hb _ _ hstored
  obtain ⟨k, hk⟩ := Dataset.root_of_isRooted hroot hdescribes
  obtain ⟨_, _, _, -, -, hlive, rfl⟩ := Dataset.readFrom_ok hread
  injection hd with hd
  subst hd
  have hloaded := Layout.schema_loaded (r := c'.classes) hdescribes (hf.apart hholds.traced.live)
    hk hvalidators hinstalls
  exact ⟨v, ⟨rfl, hloaded.symm.trans hlive, ⟨schema, hdescribes, hvalidators⟩, hinstalls,
    hdocument⟩, fun _ _ => Layout.get?_loaded hvalidators hinstalls⟩

/-- What a client has just got is held by the client, and the catalog has it, at least but for
validators that cannot be read. -/
theorem Attaches.persists (ha : w.Attaches e d) (ho : e.Over c) (h : Steady guarded c l w)
    (hb : w.workspace.store.catalog.Backed c)
    (hf : (w.does e).workspace.supply.Fits c.definitions) (hd : d.standing = .attached held)
    (hroot : held.definition.IsRooted) :
    ∃ i v, (w.does e).clients i = some ⟨d, d.live⟩ ∧
      Dataset.Persists (w.does e).workspace.store.catalog
        ⟨d.connection, .attached ⟨held.definition, v⟩, d.live⟩ ⟨held.definition, v⟩ ∧
      ∀ name rule, held.validators.get? name = some rule → v.get? name = some rule := by
  cases ha with
  | brings brought =>
    obtain ⟨i, held', hclient, hpersists⟩ := brought.persists ho h hf
    have hstanding := hpersists.standing
    rw [hd] at hstanding
    injection hstanding with hheld
    subst hheld
    exact ⟨i, held.validators, hclient, ⟨rfl, hpersists.live, hpersists.described,
      hpersists.installed, hpersists.document⟩, fun _ _ hrule => hrule⟩
  | @read c' i key _ ws granted =>
    have hlater := (does_commits ho h.closed).supply
    rw [does_read granted] at hf hlater ⊢
    obtain ⟨hread, hrests⟩ := (Dataset.observes_read _ _).ok granted
    rw [Workspace.visible_of_closed h.closed] at hread
    obtain ⟨v, hpersists, hamong⟩ := exists_persists_of_read h.stocked (hf.of_later hlater) hb
      ho.1 hread hd hroot
    have hsame : ws.store.catalog = w.workspace.store.catalog := congrArg Store.catalog hrests.store
    exact ⟨i, v, clients_put _ i _, hsame.symm ▸ hpersists, hamong⟩

/-! ## What is checked when a field is added -/

/-- In the live schema of every client all types end in registered classes. -/
def Checked (r : Registry) (w : World) : Prop :=
  ∀ i x, w.clients i = some x → x.dataset.live.EndsRegistered r

theorem Checked.put {r : Registry} (h : Checked r w) {ws : Workspace}
    (hx : x.dataset.live.EndsRegistered r) :
    Checked r ({ w with workspace := ws }.put i x) := forall_clients_put h hx

/-- What a client gets from the store is made up of registered classes. -/
theorem endsRegistered_of_keeps {ws : Workspace} (hr : c.classes.Named)
    (hk : Client.Keeps True c l ws ⟨d, d.live⟩) (hd : d.standing.holding? = some held) :
    d.live.EndsRegistered c.classes := by
  have hholds := hk.holds held hd
  have hc : d.connection = c := hk.connected trivial
  exact (Layout.isDefinable_schema hr hholds.traced.ascending (hc ▸ hholds.seen)).endsRegistered

/-- An action leaves all types ending in registered classes. -/
theorem step_checked (hq : c.Quiet) (hr : c.classes.Named) (h : Sound c l w)
    (hf : (w.step c a).workspace.supply.Fits c.definitions) (hw : Checked c.classes w) :
    Checked c.classes (w.step c a) := by
  have ho : (Deed.act c a).Over c := ⟨rfl, hq⟩
  obtain ⟨l', htakes⟩ := does_takes ho (fun _ => rfl) h hf
  have hsteady := htakes.steady
  have hgoes := does_goes ho h.closed
  have hstep : w.does (.act c a) = w.step c a := rfl
  rw [hstep] at hsteady hgoes
  generalize w.step c a = w' at hsteady hgoes hf
  generalize hdeed : Deed.act c a = deed at hgoes ho
  have hgot : ∀ {i : Nat} {d : Dataset} {ws : Workspace}, w.Attaches deed d →
      Steady True c l' ({ w with workspace := ws }.put i ⟨d, d.live⟩) →
      Checked c.classes ({ w with workspace := ws }.put i ⟨d, d.live⟩) := by
    intro i d ws hattaches hsteady
    obtain ⟨held, hd⟩ := hattaches.standing ho h.closed
    have hheld : d.standing.holding? = some held := by
      rw [hd]
      rfl
    exact hw.put (endsRegistered_of_keeps hr (hsteady.clients i _ (clients_put _ i _)) hheld)
  cases hgoes with
  | stays unchanged => exact hw
  | assign client => cases hdeed
  | save client granted => exact hw
  | addField client granted =>
    have hc := h.connected _ _ client
    exact hw.put (hc ▸ Dataset.addField_endsRegistered (hc.symm ▸ hw _ _ client) granted)
  | removeField client granted =>
    have hc := h.connected _ _ client
    exact hw.put (hc ▸ Dataset.removeField_endsRegistered (hc.symm ▸ hw _ _ client) granted)
  | delete client granted =>
    obtain ⟨_, -, rfl, -⟩ := Dataset.delete_ok granted
    have hlive := hw _ _ client
    exact hw.put hlive
  | create granted => exact hgot (.brings (.create granted)) hsteady
  | load granted => exact hgot (.brings (.load granted)) hsteady
  | read granted => exact hgot (.read granted) hsteady
  | commit client granted => exact hgot (.brings (.commit client granted)) hsteady

/-! ## Along a session -/

/-- What a session keeps beside its datasets in order: validators in place, a collection of
definitions without any, and types that end in registered classes. -/
structure Kept (c : Connection) (l : Ledger) (w : World) : Prop where
  sound : Sound c l w
  backed : w.workspace.store.catalog.Backed c
  registers : w.workspace.store.catalog.Registers c.definitions
  checked : Checked c.classes w

theorem kept_of_blank (h : w.Blank) (l : Ledger) : Kept c l w :=
  ⟨sound_of_blank h l, backed_of_blank h, registers_of_blank h,
    fun _ _ hx => absurd hx h.clients_ne_some⟩

theorem Kept.step (hq : c.Quiet) (hr : c.classes.Named) (h : Kept c l w)
    (hf : (w.step c a).workspace.supply.Fits c.definitions) :
    ∃ l', Takes True c (.act c a) l l' w (w.step c a) ∧ Kept c l' (w.step c a) := by
  have ho : (Deed.act c a).Over c := ⟨rfl, hq⟩
  obtain ⟨l', htakes⟩ := does_takes ho (fun _ => rfl) h.sound hf
  exact ⟨l', htakes, htakes.steady, does_backed ho h.sound hf h.backed,
    does_registers ho h.sound hf h.registers, step_checked hq hr h.sound hf h.checked⟩

theorem Kept.run (hq : c.Quiet) (hr : c.classes.Named) (h : Kept c l w)
    (hf : (w.run c acts).workspace.supply.Fits c.definitions) :
    ∃ l', Kept c l' (w.run c acts) := by
  induction acts generalizing w l with
  | nil => exact ⟨l, h⟩
  | cons a acts ih =>
    have hstep := step_commits hq h.sound.closed a
    have hf₁ := hf.of_later (run_commits hq hstep.transaction acts).supply
    obtain ⟨l₁, -, hkept⟩ := h.step hq hr hf₁
    exact ih hkept hf

/-! ## Commits -/

/-- What a client has got is what is read of the dataset as long as nobody stores it anew. -/
theorem Attaches.still_read (ha : w.Attaches (.act c a) d) (hq : c.Quiet) (hr : c.classes.Named)
    (h : Kept c l w) (hd : d.standing = .attached held)
    (hspares : (w.step c a).Spares held.definition (rest.map (.act c)))
    (hf : ((w.step c a).run c rest).workspace.supply.Fits c.definitions) :
    Layout.schema held.definition.fields held.validators c.classes = .ok d.live ∧
      (Dataset.readFrom c (.byId held.definition.id)
        ((w.step c a).run c rest).workspace.store.catalog).map Dataset.live = .ok d.live ∧
      ∃ l', Kept c l' ((w.step c a).run c rest) := by
  have ho : (Deed.act c a).Over c := ⟨rfl, hq⟩
  have hgot := step_commits hq h.sound.closed a
  have hf₁ := hf.of_later (run_commits hq hgot.transaction rest).supply
  obtain ⟨l₁, -, hkept₁⟩ := h.step hq hr hf₁
  obtain ⟨l', hkept⟩ := hkept₁.run hq hr hf
  obtain ⟨i, hclient⟩ := ha.client
  have hc : d.connection = c := hkept₁.sound.connected i _ hclient
  have hholds := hkept₁.sound.holds i _ hclient held (by rw [hd]; rfl)
  obtain ⟨-, v, -, hpersists, -⟩ := ha.persists ho h.sound h.backed hf₁ hd
    (hholds.traced.root trivial)
  rw [hc] at hpersists
  have htraced : (Holding.mk held.definition v).definition.Traced True l₁
      (w.step c a).workspace.supply := hholds.traced
  have hacts : True → ∀ e ∈ rest.map (Deed.act c), e.IsActOver c := by
    intro _ e he
    obtain ⟨_, -, rfl⟩ := List.mem_map.1 he
    rfl
  rw [run_eq_play] at hf hkept ⊢
  have hlast := play_persists (over_acts hq rest) hacts hkept₁.sound hf rfl htraced hpersists
    hspares
  exact ⟨hc ▸ hholds.seen, hlast.read_live hkept.sound.stocked.keeps htraced trivial hf₁, l', hkept⟩

theorem workspace_receive {op : Op Refusal Dataset} :
    (w.receive i (op w.workspace)).workspace = op.after w.workspace := by
  unfold receive after
  cases op w.workspace <;> rfl

/-- A client for which what it last saw is what is read commits its live schema exactly if this can
be laid out. -/
theorem Kept.commit_iff_isDefinable (hq : c.Quiet) (hr : c.classes.Named) (h : Kept c l w)
    (hx : w.clients i = some x) (hheld : x.dataset.standing.holding? = some held)
    (hplain : x.dataset.IsPlain)
    (hseen : (Dataset.readFrom c (.byId held.definition.id) w.workspace.store.catalog).map
      Dataset.live = .ok x.base)
    (hf : (w.step c (.commit i)).workspace.supply.Fits c.definitions) :
    (∃ d' ws, x.dataset.commit w.workspace = .ok d' ws) ↔
      x.dataset.live.IsDefinable c.classes := by
  have hc := h.sound.connected i x hx
  have hholds := h.sound.holds i x hx held hheld
  have hfollowed := (h.sound.clients i x hx).followed held hheld
  have hstep : (w.step c (.commit i)).workspace = after x.dataset.commit w.workspace := by
    show (w.withClient i _).workspace = _
    rw [withClient, hx]
    exact workspace_receive
  rw [hstep] at hf
  subst hc
  constructor
  · rintro ⟨d', ws, hop⟩
    rw [after_of_ok hop] at hf
    exact Dataset.isDefinable_of_commit h.sound.stocked hr hheld hholds hseen hf hop
  · intro hdefinable
    exact Dataset.exists_commit h.sound.stocked h.registers hplain hheld hholds hfollowed hseen
      hdefinable hf

/-- A client that holds a definition which nobody has stored anew since it was got can commit its
live schema exactly if all of its fields have types and all classes in these are registered.
Edits check less: that every type ends in a registered class. -/
theorem committable_iff (hq : c.Quiet) (hr : c.classes.Named) (hb : w₀.Blank)
    (ha : (w₀.run c acts).Attaches (.act c a) d) (hd : d.standing = .attached held)
    (hspares : ((w₀.run c acts).step c a).Spares held.definition (rest.map (.act c)))
    (hx : (w₀.run c (acts ++ a :: rest)).clients i = some x)
    (hheld : x.dataset.standing.holding? = some held)
    (hplain : ∀ e ∈ acts ++ a :: rest, (Deed.act c e).IsPlain)
    (hf : ((w₀.run c (acts ++ a :: rest)).step c (.commit i)).workspace.supply.Fits
      c.definitions) :
    x.dataset.live.EndsRegistered c.classes ∧
      ((∃ d' ws, x.dataset.commit (w₀.run c (acts ++ a :: rest)).workspace = .ok d' ws) ↔
        x.dataset.live.IsDefinable c.classes) := by
  have hgot := step_commits hq (run_commits hq hb.transaction acts).transaction a
  have hrest := run_commits hq hgot.transaction rest
  have hrun : w₀.run c (acts ++ a :: rest) = ((w₀.run c acts).step c a).run c rest :=
    run_append c w₀ acts (a :: rest)
  have hplain' : x.dataset.IsPlain := by
    rw [run_eq_play] at hx
    refine (play_plain (over_acts hq _) ?_ hb).clients i x hx
    simpa only [List.forall_mem_map] using hplain
  rw [hrun] at hx hf ⊢
  have hf' := hf.of_later (step_commits hq hrest.transaction (.commit i)).supply
  obtain ⟨l₀, hkept₀⟩ := (kept_of_blank hb fun _ => (w₀.workspace.supply.ids 0, "")).run hq hr
    ((hf'.of_later hrest.supply).of_later hgot.supply)
  obtain ⟨hschema, hread, l, hkept⟩ := ha.still_read hq hr hkept₀ hd hspares hf'
  refine ⟨hkept.checked i x hx, hkept.commit_iff_isDefinable hq hr hx hheld hplain' ?_ hf⟩
  -- Whoever holds the definition saw the schema that was read of it.
  have hc := hkept.sound.connected i x hx
  have hbase := (hkept.sound.holds i x hx held hheld).seen
  rw [hc, hschema] at hbase
  injection hbase with hbase
  exact hbase ▸ hread

section Sample
open Layout

/-- A client creates a dataset. -/
def sampleCreation : Act := .create 0 "d" sampleClass.rootSchema none false

/-- It adds a field for a cover and drops the pair of a score and a box. -/
def sampleEdits : List Act :=
  [.addField 0 "cover" (.document boxClass), .removeField 0 "best"]

theorem committable_iff_sample :
    ∃ x d ws, (sampleWorld.run sampleConnection (sampleCreation :: sampleEdits)).clients 0 =
        some x ∧
      x.dataset.live.EndsRegistered sampleConnection.classes ∧
      x.dataset.commit
        (sampleWorld.run sampleConnection (sampleCreation :: sampleEdits)).workspace =
          .ok d ws := by
  have hcheck : (given? (Dataset.createFrom sampleConnection "d" sampleClass.rootSchema none false
      sampleWorld.workspace)).any (fun g =>
        ((g.1.addField "cover" (.document boxClass) >>=
          fun d => d.removeField "best").toOption.any fun d =>
            decide (d.live.IsDefinable sampleConnection.classes))) = true := by
    decide +kernel
  obtain ⟨⟨d₀, ws₀⟩, hg, hcheck⟩ := (Option.any_eq_true _ _).1 hcheck
  have hcreate := given?_eq_some hg
  cases hedits : d₀.addField "cover" (.document boxClass) >>= fun d => d.removeField "best" with
  | error e => simp [hedits, Except.toOption] at hcheck
  | ok d₂ =>
    rw [hedits] at hcheck
    have hdefinable : d₂.live.IsDefinable sampleConnection.classes := of_decide_eq_true hcheck
    obtain ⟨d₁, hadd, hremove⟩ := bind_eq_ok_iff.1 hedits
    have hcreated : sampleWorld.step sampleConnection sampleCreation =
        { sampleWorld with workspace := ws₀ }.put 0 ⟨d₀, d₀.live⟩ := by
      rw [sampleCreation, step, hcreate, receive]
    have hquiet : sampleConnection.Quiet := Connection.quiet_plain _ _
    have hattaches : sampleWorld.Attaches (.act sampleConnection sampleCreation) d₀ :=
      .brings (.create hcreate)
    obtain ⟨held, hstanding⟩ := hattaches.standing ⟨rfl, hquiet⟩ rfl
    have hclient : (sampleWorld.run sampleConnection (sampleCreation :: sampleEdits)).clients 0 =
        some ⟨d₂, d₀.live⟩ := by
      rw [run_cons, hcreated]
      simp [sampleEdits, step, withClient, edit, hadd, hremove]
    have hheld : d₂.standing.holding? = some held := by
      rw [(Dataset.removeField_edits hremove).holding, (Dataset.addField_edits hadd).holding,
        hstanding]
      rfl
    have hplain : ∀ e ∈ sampleCreation :: sampleEdits, (Deed.act sampleConnection e).IsPlain := by
      have hclasses : sampleConnection.classes.IsPlain := by decide +kernel
      have hsample : sampleClass.rootSchema.IsPlain := by decide +kernel
      have hcover : (Dataset.withField .empty "cover" (.document boxClass)).IsPlain := by
        decide +kernel
      exact List.forall_mem_cons.2 ⟨⟨hclasses, hsample⟩,
        List.forall_mem_cons.2 ⟨⟨hclasses, hcover⟩, List.forall_mem_singleton.2 hclasses⟩⟩
    have hspares : (sampleWorld.step sampleConnection sampleCreation).Spares held.definition
        (sampleEdits.map (.act sampleConnection)) := ⟨id, id, id, id, trivial⟩
    have hboth := @committable_iff sampleConnection sampleWorld [] sampleEdits sampleCreation d₀
      held 0 ⟨d₂, d₀.live⟩ hquiet (Registry.named_register sampleClass Registry.named_empty)
      ⟨rfl, rfl, fun _ => rfl⟩ hattaches hstanding hspares
    rw [List.nil_append] at hboth
    obtain ⟨hends, hiff⟩ := hboth hclient hheld hplain
      (.of_isFit (by decide) (by decide +kernel))
    obtain ⟨d, ws, hcommit⟩ := hiff.2 hdefinable
    exact ⟨_, d, ws, hclient, hends, hcommit⟩

/-- A class that the connection does not know. -/
def strayClass : DocClass := .ofFields "Stray" [("corner", some (.scalar .float))] []

/-- A class with a field that has no type. -/
def looseClass : DocClass := .ofFields "Loose" [("corner", none)] []

def looseConnection : Connection := .plain (Registry.register looseClass sampleRegistry) .default

/-- Edits are accepted after which a dataset that was just created cannot be committed: a pair with
an item of an unknown class, and a class with a field that has no type. -/
theorem accepted_not_committable :
    ∃ d₀ ws₀ held, Dataset.createFrom looseConnection "d" sampleClass.rootSchema none false
        sampleWorld.workspace = .ok d₀ ws₀ ∧
      d₀.standing = .attached held ∧
      ∀ type ∈ [(.tuple [.document strayClass] : FieldType), .document looseClass], ∃ d e ws,
        d₀.addField "extra" type = .ok d ∧ d.IsPlain ∧ d.commit ws₀ = .error e ws := by
  have hcheck : (given? (Dataset.createFrom looseConnection "d" sampleClass.rootSchema none false
      sampleWorld.workspace)).any (fun g =>
        [(.tuple [.document strayClass] : FieldType), .document looseClass].all fun type =>
          (g.1.addField "extra" type).toOption.any fun d =>
            decide (d.connection.classes.IsPlain ∧ d.live.IsPlain ∧
              (given? (d.commit g.2)).isNone = true)) = true := by
    decide +kernel
  obtain ⟨⟨d₀, ws₀⟩, hg, hcheck⟩ := (Option.any_eq_true _ _).1 hcheck
  have hcreate := given?_eq_some hg
  have hattaches : sampleWorld.Attaches (.act looseConnection sampleCreation) d₀ :=
    .brings (.create hcreate)
  obtain ⟨held, hstanding⟩ := hattaches.standing ⟨rfl, Connection.quiet_plain _ _⟩ rfl
  refine ⟨d₀, ws₀, held, hcreate, hstanding, fun type htype => ?_⟩
  have hrefused := List.all_eq_true.1 hcheck type htype
  cases hadd : d₀.addField "extra" type with
  | error e => simp [hadd, Except.toOption] at hrefused
  | ok d =>
    rw [hadd] at hrefused
    obtain ⟨hclasses, hlive, hnone⟩ := of_decide_eq_true hrefused
    obtain ⟨e, ws, hop⟩ := given?_eq_none (Option.isNone_iff_eq_none.1 hnone)
    exact ⟨d, e, ws, rfl, ⟨hclasses, hlive⟩, hop⟩

end Sample

end World
end SchemaKeeper
