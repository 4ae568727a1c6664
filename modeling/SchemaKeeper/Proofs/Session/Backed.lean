import SchemaKeeper.Proofs.Dataset.Backed
import SchemaKeeper.Proofs.Session.Agreement
import SchemaKeeper.Proofs.Session.Ways

/-!
# What the store promises to records

After any deeds every stored definition has its validators installed.  Where no class that was
brought in asks for a unique index, no collection of records has one.
-/
namespace SchemaKeeper

open Catalog Op

/-- The deed brings in no class that asks for a unique index. -/
def Deed.IsPlain : Deed → Prop
  | .act c (.create _ _ s _ _) => c.classes.IsPlain ∧ s.IsPlain
  | .act c (.addField _ path type) =>
    c.classes.IsPlain ∧ (Dataset.withField .empty path type).IsPlain
  | .act c _ => c.classes.IsPlain
  | .assign _ live => live.IsPlain

theorem Deed.uses_of_isPlain {c : Connection} {e : Deed} (ho : e.Over c) (he : e.IsPlain) :
    e.Uses (fun c' => c'.classes.IsPlain ∧ c'.definitions = c.definitions) DocClass.IsPlain := by
  cases e with
  | assign i live => exact he
  | act c' a =>
    cases a with
    | create | addField => exact ⟨⟨he.1, ho.1⟩, he.2⟩
    | _ => exact ⟨he, ho.1⟩

namespace World
variable {guarded : Prop} {c : Connection} {l : Ledger} {w w' : World} {ws : Workspace} {e : Deed}

/-! ## Validators -/

theorem allStored_of_blank {P : Catalog → Definition → Prop} (h : w.Blank) :
    w.workspace.store.catalog.AllStored c P := fun _ _ hd => absurd hd h.stored?_ne_some

theorem backed_of_blank (h : w.Blank) : w.workspace.store.catalog.Backed c := allStored_of_blank h

/-- What is told of each stored definition and of its collections alone a deed keeps, if it is told
of what the deed brings and to save records keeps it. -/
theorem does_allStored {P : Catalog → Definition → Prop} (hP : IsLocal P) (ho : e.Over c)
    (h : Steady guarded c l w) (hf : (w.does e).workspace.supply.Fits c.definitions)
    (hall : w.workspace.store.catalog.AllStored c P)
    (hbrought : ∀ d held, w.Brings e d → d.standing = .attached held →
      Dataset.Persists (w.does e).workspace.store.catalog d held →
      P (w.does e).workspace.store.catalog held.definition)
    (hsaved : ∀ i x r ws, w.clients i = some x →
      x.dataset.saveRecord r w.workspace = .ok () ws → ws.supply.Fits c.definitions →
      ∀ d, P w.workspace.store.catalog d → P ws.store.catalog d) :
    (w.does e).workspace.store.catalog.AllStored c P := by
  have hcommits := does_commits ho h.closed
  have hkeeps := hcommits.keeps h.stocked.keeps
  have hlater := hcommits.supply
  have hgoes := does_goes ho h.closed
  generalize w.does e = w' at hgoes hf hkeeps hlater hbrought
  cases hgoes with
  | stays unchanged => exact unchanged.catalog.symm ▸ hall
  | addField | removeField | assign => exact hall
  | read granted =>
    have hrests := ((Dataset.observes_read _ _).ok granted).2
    exact (congrArg Store.catalog hrests.store).symm ▸ hall
  | create granted =>
    have hc := ho.1
    obtain ⟨l', held, k, hl, -, hholds, -, -, -, hstores, -, hpersists⟩ :=
      Dataset.createFrom_stores (h.stocked.congr hc) (hc ▸ hf) granted
    exact hall.stores hP h.stocked (hstores.congr hc.symm) hkeeps hholds.traced hlater hl hf
      (hbrought _ held (.create granted) hpersists.standing hpersists)
  | load granted =>
    have hc := ho.1
    obtain ⟨l', held, hl, -, hholds, -, hstores, -, -, hpersists⟩ :=
      Dataset.load_stores ho.2 h.closed (h.stocked.congr hc) (hc ▸ hf) granted
    exact hall.stores hP h.stocked (hstores.congr hc.symm) hkeeps hholds.traced hlater hl hf
      (hbrought _ held (.load granted) hpersists.standing hpersists)
  | @commit _ i x d ws client granted =>
    obtain ⟨hc, -, hholds, -⟩ := h.clients i x client
    obtain ⟨held, _, _, hheld, -⟩ := Dataset.commit_ok granted
    obtain ⟨l', held', hl, -, hholds', -, hstores, hpersists⟩ :=
      Dataset.commit_stores (h.stocked.congr hc) hheld (hholds held hheld) granted
    exact hall.stores hP h.stocked (hstores.congr hc.symm) hkeeps hholds'.traced hlater hl hf
      (hbrought _ held' (.commit client granted) hpersists.standing hpersists)
  | delete client granted =>
    obtain ⟨held, names, -, -, -, hascribes, hremoves⟩ := h.deletes client hf granted
    exact hall.removes hP h.stocked hremoves hkeeps hascribes (hf.of_later hlater)
  | save client granted =>
    obtain ⟨-, p, hfills, hp⟩ := h.saves client hf granted
    exact hall.fills h.stocked.keeps hfills hkeeps hp (hsaved _ _ _ _ client granted hf)

/-- A deed leaves every stored definition backed. -/
theorem does_backed (ho : e.Over c) (h : Steady guarded c l w)
    (hf : (w.does e).workspace.supply.Fits c.definitions)
    (hb : w.workspace.store.catalog.Backed c) :
    (w.does e).workspace.store.catalog.Backed c := by
  refine does_allStored isLocal_backs ho h hf hb (fun _ _ _ _ hp => backs_of_persists hp)
    fun i x r ws client granted hf' d hd => ?_
  obtain ⟨-, p, hfills, -⟩ := h.saves client hf' granted
  exact hd.fills hfills

/-- After any deeds every stored definition is backed. -/
theorem play_backed {deeds : List Deed} (ho : ∀ e ∈ deeds, e.Over c) (h : Steady False c l w)
    (hf : (w.play deeds).workspace.supply.Fits c.definitions)
    (hb : w.workspace.store.catalog.Backed c) :
    (w.play deeds).workspace.store.catalog.Backed c := by
  induction deeds generalizing w l with
  | nil => exact hb
  | cons e deeds ih =>
    obtain ⟨he, hrest⟩ := List.forall_mem_cons.1 ho
    have hstep := does_commits he h.closed
    have hf₁ := hf.of_later (play_commits hrest hstep.transaction).supply
    obtain ⟨l₁, htakes⟩ := does_takes he False.elim h hf₁
    exact ih hrest htakes.steady hf (does_backed he h hf₁ hb)

/-! ## Indexes -/

/-- No collection of records has a unique index, and no client is about to make one. -/
structure IsPlain (c : Connection) (w : World) : Prop where
  catalog : w.workspace.store.catalog.PlainBeside c.definitions
  clients : ∀ i x, w.clients i = some x → x.dataset.IsPlain

theorem isPlain_of_blank (h : w.Blank) : IsPlain c w :=
  ⟨fun _ _ _ hs => absurd hs h.get?_ne_some, fun _ _ hx => absurd hx h.clients_ne_some⟩

/-- Where no class that was brought in asks for a unique index, no collection of records has
one. -/
theorem play_plain {deeds : List Deed} (ho : ∀ e ∈ deeds, e.Over c) (he : ∀ e ∈ deeds, e.IsPlain)
    (hw : w.Blank) : IsPlain c (w.play deeds) := by
  let known (c' : Connection) : Prop := c'.classes.IsPlain ∧ c'.definitions = c.definitions
  have hknown : ∀ c', known c' → c'.classes.All DocClass.IsPlain ∧ c'.definitions = c.definitions :=
    fun _ h => h
  have huses : ∀ e ∈ deeds, e.Uses known DocClass.IsPlain := fun e hin =>
    Deed.uses_of_isPlain (ho e hin) (he e hin)
  have hblank := isPlain_of_blank (c := c) hw
  refine ⟨play_preserves hknown keptBy_plainBeside ho huses (fun e _ => e.saves_any)
    hw.transaction
    (uses_of_blank hw) hblank.catalog, fun i x hx => ?_⟩
  have hx := play_uses (fun c' h => (hknown c' h).1) ho huses hw.transaction
    (uses_of_blank hw) i x hx
  exact ⟨hx.connection.1, hx.live⟩

/-! ## Datasets held in step -/

/-- A dataset is held in step with the store: the collections of the definition that is held are
those of the stored one.  The tuples of the stored fields can be counted in a word, so its
validators can be read. -/
structure InStep (c : Connection) (w : World) (d : Dataset) (held : Holding)
    (stored : Definition) : Prop where
  holding : d.standing.holding? = some held
  found : c.stored? w.workspace.store.catalog held.definition.id = some stored
  collections : held.definition.collections = stored.collections
  counted : ∀ f ∈ stored.fields, f.type.isCounted = true

variable {w₀ : World} {deeds : List Deed} {d : Dataset} {held : Holding} {stored : Definition}

/-- What is written into a dataset held in step is screened as the stored definition says. -/
theorem InStep.screens (h : InStep c (w₀.play deeds) d held stored) (hb : w₀.Blank)
    (ho : ∀ e ∈ deeds, e.Over c) (hf : (w₀.play deeds).workspace.supply.Fits c.definitions) :
    ∃ schema, Layout.Describes stored.fields schema ∧
      (w₀.play deeds).workspace.store.catalog.Screens held.definition.collections schema := by
  obtain ⟨l, hsteady⟩ := exists_steady_play hb ho hf
  obtain ⟨htraced, -⟩ := hsteady.traced_of_stored h.found
  have hbacked := play_backed ho (steady_of_blank hb fun _ => (w₀.workspace.supply.ids 0, "")) hf
    (backed_of_blank hb)
  rw [h.collections]
  exact (hbacked _ _ h.found).screens htraced hf h.counted

theorem keeps_play (hb : w₀.Blank) (ho : ∀ e ∈ deeds, e.Over c)
    (hf : (w₀.play deeds).workspace.supply.Fits c.definitions) :
    (w₀.play deeds).workspace.store.catalog.Keeps := by
  obtain ⟨l, hsteady⟩ := exists_steady_play hb ho hf
  exact hsteady.stocked.keeps

/-- No two paths of a dataset held in step have one collection. -/
theorem InStep.apart (h : InStep c (w₀.play deeds) d held stored) (hb : w₀.Blank)
    (ho : ∀ e ∈ deeds, e.Over c) (hf : (w₀.play deeds).workspace.supply.Fits c.definitions) :
    held.definition.collections.Apart := by
  obtain ⟨l, hsteady⟩ := exists_steady_play hb ho hf
  obtain ⟨htraced, -⟩ := hsteady.traced_of_stored h.found
  exact h.collections.symm ▸ hf.apart htraced.live

/-- No collection of a dataset held in step has a unique index where no class that was brought in
asks for one. -/
theorem InStep.plain (h : InStep c (w₀.play deeds) d held stored) (hb : w₀.Blank)
    (ho : ∀ e ∈ deeds, e.Over c) (hf : (w₀.play deeds).workspace.supply.Fits c.definitions)
    (hplain : ∀ e ∈ deeds, e.IsPlain) :
    (w₀.play deeds).workspace.store.catalog.Plain held.definition.collections := by
  obtain ⟨l, hsteady⟩ := exists_steady_play hb ho hf
  obtain ⟨htraced, -⟩ := hsteady.traced_of_stored h.found
  intro path name hname state
  rw [h.collections] at hname
  obtain ⟨p, ha⟩ := htraced.ascribes (.inl (Keyed.mem_values.2 ⟨path, hname⟩))
  exact (play_plain ho hplain hb).catalog name state
    (hf.ne_definitions ha)

end World
end SchemaKeeper
