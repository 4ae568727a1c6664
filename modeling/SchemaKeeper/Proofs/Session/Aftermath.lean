import SchemaKeeper.Proofs.Dataset.Stale
import SchemaKeeper.Proofs.Session.Agreement
import SchemaKeeper.Proofs.Session.Records
import SchemaKeeper.Proofs.Session.WellFormed

/-!
# What comes after a deletion

A dataset that was deleted does not come back.  Clients that still hold it can neither commit nor
save it, and to delete it once more drops at most what their own definitions name.  The one way
around this is a collection of the root that the deletion left behind, because the client that
deleted had not seen it; in a session of actions over one connection there is none.
-/
namespace SchemaKeeper

open Catalog Op

variable {guarded : Prop} {c : Connection} {l l' : Ledger} {id : Uuid}

/-! ## Nothing comes back -/

/-- An identifier that was drawn and is not stored is not stored later. -/
theorem Workspace.Evolves.absent {ws ws' : Workspace} (h : ws.Evolves c ws')
    (hs : ws.supply.Later ws'.supply) (hf : ws'.supply.Fits c.definitions)
    (hid : ∃ k, k < ws.supply.drawn ∧ id = ws.supply.ids k)
    (hgone : c.stored? ws.store.catalog id = none) : c.stored? ws'.store.catalog id = none := by
  refine Option.eq_none_iff_forall_ne_some.2 fun d' hd' => ?_
  obtain ⟨j, hj, hidj⟩ := hid
  rcases h id d' hd' with ⟨d, hd, -⟩ | ⟨k, hk, hk', hidk⟩
  · rw [hgone] at hd
    cases hd
  · have hjk := hf.distinct j k (Nat.lt_of_lt_of_le hj hs.drawn) hk' (by rw [← hidk, hidj, hs.ids])
    omega

/-- A collection that was made for a dataset which is not stored does not come back. -/
theorem Effect.contains {revises : Uuid → String → Prop} {removes : Uuid → Prop}
    {ws ws' : Workspace} (he : Effect guarded c revises removes l l' ws ws')
    (hb : ws.store.catalog.Keeps) (hs : ws.supply.Later ws'.supply)
    (hf : ws'.supply.Fits c.definitions)
    (hl : l.AgreeBelow ws.supply.drawn l') (hgone : c.stored? ws.store.catalog id = none)
    (hgone' : c.stored? ws'.store.catalog id = none) {name path : String}
    (ha : l.Ascribes ws.supply.ids ws.supply.drawn name id path)
    (hin : ws'.store.catalog.collections.contains name = true) :
    ws.store.catalog.collections.contains name = true := by
  have ha' : l'.Ascribes ws'.supply.ids ws'.supply.drawn name id path :=
    hs.ids ▸ ha.mono hs.drawn hl
  have hname := hf.ne_definitions ha'
  have hstores : ∀ d : Definition, d.Traced guarded l' ws'.supply →
      Stores c d ws.store.catalog ws'.store.catalog → d.id ≠ id →
      ws.store.catalog.collections.contains name = true := by
    intro d ht hstores hne
    rw [Keyed.contains, hstores.frame name hname fun hlive => ?_] at hin
    · exact hin
    · obtain ⟨path', hd⟩ := ht.ascribes (.inl hlive)
      exact hne (hf.ascribes_unique hd ha').1
  cases he with
  | nothing same => exact same ▸ hin
  | creates d k traced stores stocked =>
    refine hstores d traced stores fun hid => ?_
    rw [stores.stored? hb stocked.keeps traced.writable, if_pos hid] at hgone'
    cases hgone'
  | revises d latest traced stores stocked stored =>
    exact hstores d traced stores fun hid => by rw [hid, hgone] at stored; cases stored
  | removes id' names ascribes removed => exact ((removed.contains name hname).1 hin).1
  | fills p filled => exact filled.contains name ▸ hin

/-- In a guarded session the root of a definition has a collection. -/
theorem Definition.Traced.root_collection {d : Definition} {s : Supply}
    (h : d.Traced guarded l s) (hg : guarded) : ∃ name, d.collections.get? "" = some name := by
  obtain ⟨f, hf, hp, -, hcollection⟩ := h.root hg
  obtain ⟨name, hname⟩ := Option.ne_none_iff_exists'.1 hcollection
  exact ⟨name, (Layout.collections_get?_iff h.ascending).2 ⟨f, hf, hp, hname⟩⟩

/-- The deed is an edit of the live schema of a client. -/
def Deed.Edits (i : Nat) : Deed → Prop
  | .act _ (.addField j _ _) | .act _ (.removeField j _) | .assign j _ => j = i
  | _ => False

namespace World
variable {w w₁ w' : World} {e : Deed} {rest : List Deed} {i : Nat} {x : Client} {held : Holding}

/-- From one world to another a dataset stays deleted: it is not stored, none of its collections
came back, and nobody holds it who did not hold it before. -/
structure StaysGone (c : Connection) (l : Ledger) (id : Uuid) (w w' : World) : Prop where
  absent : c.stored? w'.workspace.store.catalog id = none
  collections : ∀ name path,
    l.Ascribes w.workspace.supply.ids w.workspace.supply.drawn name id path →
    w'.workspace.store.catalog.collections.contains name = true →
    w.workspace.store.catalog.collections.contains name = true
  holders : ∀ i x held, w'.clients i = some x → x.dataset.standing.holding? = some held →
    held.definition.id = id →
    ∃ x₀, w.clients i = some x₀ ∧ x₀.dataset.standing.holding? = some held

theorem StaysGone.trans (h : StaysGone c l id w w₁) (h' : StaysGone c l' id w₁ w')
    (hs : w.workspace.supply.Later w₁.workspace.supply)
    (hl : l.AgreeBelow w.workspace.supply.drawn l') : StaysGone c l id w w' := by
  refine ⟨h'.absent, fun name path ha hin => h.collections name path ha ?_,
    fun i x held hx hheld hid => ?_⟩
  · exact h'.collections name path (hs.ids ▸ ha.mono hs.drawn hl) hin
  · obtain ⟨x₁, hx₁, hheld₁⟩ := h'.holders i x held hx hheld hid
    exact h.holders i x₁ held hx₁ hheld₁ hid

theorem does_staysGone (ho : e.Over c) (hg : guarded → e.IsActOver c) (h : Steady guarded c l w)
    (hf : (w.does e).workspace.supply.Fits c.definitions)
    (hid : ∃ k, k < w.workspace.supply.drawn ∧ id = w.workspace.supply.ids k)
    (hgone : c.stored? w.workspace.store.catalog id = none) :
    ∃ l', Takes guarded c e l l' w (w.does e) ∧ StaysGone c l id w (w.does e) := by
  obtain ⟨l', htakes⟩ := does_takes ho hg h hf
  have hcommits := does_commits ho h.closed
  have hevolves := htakes.effect.evolves h.stocked.keeps htakes.steady.stocked.keeps
  have habsent := hevolves.absent hcommits.supply hf hid hgone
  refine ⟨l', htakes, habsent, fun name path ha hin => ?_, fun i x held hx hheld hheldId => ?_⟩
  · exact htakes.effect.contains h.stocked.keeps hcommits.supply hf htakes.agree hgone habsent ha
      hin
  · rcases does_held ho h hf hx hheld with hbefore | hstored
    · exact hbefore
    · rw [hheldId, habsent] at hstored
      cases hstored

/-- A deleted dataset stays deleted, whatever is done. -/
theorem play_staysGone (ho : ∀ e ∈ rest, e.Over c) (hg : guarded → ∀ e ∈ rest, e.IsActOver c)
    (h : Steady guarded c l w) (hf : (w.play rest).workspace.supply.Fits c.definitions)
    (hid : ∃ k, k < w.workspace.supply.drawn ∧ id = w.workspace.supply.ids k)
    (hgone : c.stored? w.workspace.store.catalog id = none) :
    StaysGone c l id w (w.play rest) := by
  induction rest generalizing w l with
  | nil => exact ⟨hgone, fun _ _ _ hin => hin, fun i x held hx hheld _ => ⟨x, hx, hheld⟩⟩
  | cons e rest ih =>
    obtain ⟨he, hrest⟩ := List.forall_mem_cons.1 ho
    have hstep := does_commits he h.closed
    have hf₁ := hf.of_later (play_commits hrest hstep.transaction).supply
    obtain ⟨l₁, htakes, hgone₁⟩ :=
      does_staysGone he (fun hguarded => hg hguarded e List.mem_cons_self) h hf₁ hid hgone
    obtain ⟨k, hk, rfl⟩ := hid
    have hlater := hstep.supply
    have hstays := ih hrest (fun hguarded e' he' => hg hguarded e' (List.mem_cons_of_mem _ he'))
      htakes.steady hf ⟨k, Nat.lt_of_lt_of_le hk hlater.drawn, by rw [hlater.ids]⟩ hgone₁.absent
    exact hgone₁.trans hstays hlater htakes.agree

/-! ## Roots -/

/-- All definitions of a dataset, stored or held, have the same collection for the root. -/
structure Rooted (c : Connection) (roots : Uuid → Option String) (w : World) : Prop where
  stored : ∀ id d, c.stored? w.workspace.store.catalog id = some d →
    d.collections.get? "" = roots id
  held : ∀ i x held, w.clients i = some x → x.dataset.standing.holding? = some held →
    held.definition.collections.get? "" = roots held.definition.id

/-- The collection of the root for each identifier once `catalog` has been written: what the
definition stored under it now says, and where none is stored, what was said before. -/
def rootsAfter (c : Connection) (catalog : Catalog) (roots : Uuid → Option String)
    (id : Uuid) : Option String :=
  (c.stored? catalog id).elim (roots id) fun d => d.collections.get? ""

/-- A commit keeps the collection of the root. -/
theorem root_of_revised {d latest : Definition} {known : Collections} {s s' : Supply}
    (hd : d.Traced True l' s') (hlatest : latest.Traced True l s)
    (hknown : ∀ path name name', d.collections.get? path = some name →
      (known.union latest.collections).get? path = some name' → name = name') :
    d.collections.get? "" = latest.collections.get? "" := by
  obtain ⟨name, hname⟩ := hd.root_collection trivial
  obtain ⟨name', hname'⟩ := hlatest.root_collection trivial
  rw [hname, hname', hknown "" name name' hname (by rw [Keyed.get?_union, hname']; rfl)]

/-- Each definition that is stored afterwards has the collection of the root that the one before it
had, or an identifier that was drawn in between. -/
def KeepsRoots (c : Connection) (ws ws' : Workspace) : Prop :=
  ∀ id d', c.stored? ws'.store.catalog id = some d' →
    (∃ d, c.stored? ws.store.catalog id = some d ∧
      d'.collections.get? "" = d.collections.get? "") ∨
      ∃ k, ws.supply.drawn ≤ k ∧ k < ws'.supply.drawn ∧ id = ws'.supply.ids k

theorem keepsRoots_of_still {ws ws' : Workspace} (h : ws'.store.catalog = ws.store.catalog) :
    KeepsRoots c ws ws' := fun _ d' hd' => .inl ⟨d', h ▸ hd', rfl⟩

/-- A definition that is stored anew and knows the one before it keeps the roots. -/
theorem keepsRoots_of_stores {ws ws' : Workspace} {d latest : Definition} {known : Collections}
    (hb : ws.store.catalog.Keeps) (ha : ws'.store.catalog.Keeps)
    (hd : d.Traced True l' ws'.supply) (hlatest : latest.Traced True l ws.supply)
    (hstores : Stores c d ws.store.catalog ws'.store.catalog)
    (hstored : c.stored? ws.store.catalog d.id = some latest)
    (hknown : ∀ path name name', d.collections.get? path = some name →
      (known.union latest.collections).get? path = some name' → name = name') :
    KeepsRoots c ws ws' := by
  intro id d' hd'
  rw [hstores.stored? hb ha hd.writable] at hd'
  split at hd'
  · rename_i hid
    injection hd' with hd'
    subst hid hd'
    exact .inl ⟨latest, hstored, root_of_revised hd hlatest hknown⟩
  · exact .inl ⟨d', hd', rfl⟩

/-- An action keeps the collections of the roots. -/
theorem step_keepsRoots {a : Act} (hq : c.Quiet) (h : Sound c l w)
    (hf : (w.step c a).workspace.supply.Fits c.definitions) :
    KeepsRoots c w.workspace (w.step c a).workspace := by
  have ho : (Deed.act c a).Over c := ⟨rfl, hq⟩
  have hkeeps := (does_commits ho h.closed).keeps h.stocked.keeps
  have hgoes := does_goes ho h.closed
  have hdoes : w.does (.act c a) = w.step c a := rfl
  rw [hdoes] at hgoes hkeeps
  generalize w.step c a = w' at hf hkeeps hgoes
  generalize hdeed : Deed.act c a = deed at hgoes
  cases hgoes with
  | stays unchanged => exact keepsRoots_of_still unchanged.catalog
  | addField | removeField => exact keepsRoots_of_still rfl
  | assign => cases hdeed
  | read granted =>
    exact keepsRoots_of_still
      (congrArg Store.catalog ((Dataset.observes_read _ _).ok granted).2.store)
  | create granted =>
    injection hdeed with hc
    subst hc
    obtain ⟨_, held, k, -, -, hholds, hk, hk', hid, hstores, -⟩ :=
      Dataset.createFrom_stores h.stocked hf granted
    intro id d' hd'
    rw [hstores.stored? h.stocked.keeps hkeeps hholds.traced.writable] at hd'
    split at hd'
    · rename_i hsame
      exact .inr ⟨k, hk, hk', hsame.symm.trans hid⟩
    · exact .inl ⟨d', hd', rfl⟩
  | load granted =>
    injection hdeed with hc
    subst hc
    obtain ⟨_, held, -, -, hholds, -, hstores, -, -, hpersists⟩ :=
      Dataset.load_stores hq h.closed h.stocked hf granted
    obtain ⟨held', latest, hstanding, hlatest, hknown⟩ :=
      Dataset.load_collections hq h.closed h.stocked granted
    rw [hpersists.standing] at hstanding
    injection hstanding with hstanding
    subst hstanding
    have hknown' : ∀ path name name', held.definition.collections.get? path = some name →
        (Keyed.union .empty latest.collections).get? path = some name' → name = name' := by
      intro path name name' hname hname'
      rw [Keyed.get?_union, Keyed.get?_empty, Option.or_none] at hname'
      exact hknown path name name' hname hname'
    exact keepsRoots_of_stores h.stocked.keeps hkeeps hholds.traced
      (h.traced_of_stored hlatest).1 hstores hlatest hknown'
  | @commit _ i x d ws client granted =>
    obtain ⟨held, _, _, hheld, -⟩ := Dataset.commit_ok granted
    have hc := h.connected i x client
    subst hc
    obtain ⟨_, held', -, -, hholds, -, hstores, hpersists⟩ :=
      Dataset.commit_stores h.stocked hheld (h.holds i x client held hheld) granted
    obtain ⟨held₁, latest, hstanding, hid, hlatest, hknown⟩ :=
      Dataset.commit_collections hheld h.stocked granted
    rw [hpersists.standing] at hstanding
    injection hstanding with hstanding
    subst hstanding
    exact keepsRoots_of_stores h.stocked.keeps hkeeps hholds.traced
      (h.traced_of_stored hlatest).1 hstores (hid ▸ hlatest) hknown
  | delete client granted =>
    obtain ⟨_, _, -, -, -, -, hremoves⟩ := h.deletes client hf granted
    intro id d' hd'
    rw [hremoves.stored? h.stocked.keeps hkeeps] at hd'
    split at hd'
    · cases hd'
    · exact .inl ⟨d', hd', rfl⟩
  | save client granted =>
    obtain ⟨-, p, hfills, hp⟩ := h.saves client hf granted
    intro id d' hd'
    rw [hfills.stored? h.stocked.keeps hkeeps hp] at hd'
    exact .inl ⟨d', hd', rfl⟩

/-- After an action all definitions of a dataset, stored or held, still agree on the root. -/
theorem step_rooted {a : Act} {roots : Uuid → Option String} (hq : c.Quiet) (h : Sound c l w)
    (hf : (w.step c a).workspace.supply.Fits c.definitions) (hr : Rooted c roots w) :
    ∃ roots', Rooted c roots' (w.step c a) := by
  have ho : (Deed.act c a).Over c := ⟨rfl, hq⟩
  have hkept := step_keepsRoots hq h hf
  refine ⟨rootsAfter c (w.step c a).workspace.store.catalog roots,
    fun id d hd => by rw [rootsAfter, hd, Option.elim_some],
    fun i x held hx hheld => ?_⟩
  rcases does_held ho h hf hx hheld with ⟨x₀, hx₀, hheld₀⟩ | hnow
  · have hroot := hr.held i x₀ held hx₀ hheld₀
    rw [rootsAfter]
    cases hstored : c.stored? (w.step c a).workspace.store.catalog held.definition.id with
    | none => exact hroot
    | some d' =>
      rw [Option.elim_some]
      rcases hkept _ d' hstored with ⟨d, hd, hsame⟩ | ⟨k, hk, hk', hid⟩
      · exact hroot.trans (hsame.trans (hr.stored _ d hd)).symm
      · have htraced := (h.holds i x₀ hx₀ held hheld₀).traced
        exact absurd hid (htraced.ne_fresh (does_commits ho h.closed).supply hf hk hk')
  · have hstored : c.stored? (w.step c a).workspace.store.catalog held.definition.id =
        some held.definition := hnow
    rw [rootsAfter, hstored, Option.elim_some]

theorem rooted_of_blank (h : w.Blank) : Rooted c (fun _ => none) w :=
  ⟨fun _ _ hd => absurd hd h.stored?_ne_some, fun _ _ _ hx => absurd hx h.clients_ne_some⟩

/-- Actions over one connection keep the collections of the roots. -/
theorem play_rooted {deeds : List Deed} {roots : Uuid → Option String}
    (ho : ∀ e ∈ deeds, e.Over c) (hg : ∀ e ∈ deeds, e.IsActOver c) (h : Sound c l w)
    (hf : (w.play deeds).workspace.supply.Fits c.definitions) (hr : Rooted c roots w) :
    ∃ roots', Rooted c roots' (w.play deeds) := by
  induction deeds generalizing w l roots with
  | nil => exact ⟨roots, hr⟩
  | cons e deeds ih =>
    obtain ⟨he, hrest⟩ := List.forall_mem_cons.1 ho
    obtain ⟨hact, hacts⟩ := List.forall_mem_cons.1 hg
    have hstep := does_commits he h.closed
    have hf₁ := hf.of_later (play_commits hrest hstep.transaction).supply
    obtain ⟨l₁, htakes⟩ := does_takes he (fun _ => hact) h hf₁
    obtain ⟨roots₁, hr₁⟩ : ∃ roots₁, Rooted c roots₁ (w.does e) := by
      cases e with
      | assign => cases hact
      | act c' a =>
        cases hact
        exact step_rooted he.2 h hf₁ hr
    exact ih hrest hacts htakes.steady hf hr₁

/-! ## What is left to those who hold a deleted dataset -/

/-- What can still happen where a client holds a dataset that is not stored.  It cannot be committed
or read again, and edits and look-ups leave the store alone; to delete it drops at most collections
that its own definition names and no stored one does; and it can be saved, into its own
collections, only if the collection of the root was left. -/
structure Outlived (c : Connection) (left : Catalog) (w : World) (i : Nat) (x : Client)
    (held : Holding) : Prop where
  own : ∀ id d, c.stored? w.workspace.store.catalog id = some d →
    ∀ name, d.Names name → ¬ held.definition.Names name
  commit : ∃ e ws, x.dataset.commit w.workspace = .error e ws ∧
    ws.store.catalog = w.workspace.store.catalog
  reread : ∀ c' d ws, c'.definitions = c.definitions →
    Dataset.read c' (.byId held.definition.id) w.workspace ≠ .ok d ws
  edits : ∀ e : Deed, e.Edits i → (w.does e).workspace = w.workspace
  looks : w.workspace.Rests (after x.dataset.loadRecords w.workspace) ∧
    ∀ id, w.workspace.Rests (after (x.dataset.loadRecord id) w.workspace)
  delete : (∃ e ws, x.dataset.delete w.workspace = .error e ws ∧
      ws.store.catalog = w.workspace.store.catalog) ∨
    ∃ d ws names, x.dataset.delete w.workspace = .ok d ws ∧
      (∀ name ∈ names, held.definition.Names name) ∧
      Removes c held.definition.key names w.workspace.store.catalog ws.store.catalog
  save : ∀ r, (∃ e ws, x.dataset.saveRecord r w.workspace = .error e ws ∧
      ws.store.catalog = w.workspace.store.catalog) ∨
    ∃ ws root, x.dataset.saveRecord r w.workspace = .ok () ws ∧
      held.definition.collections.get? "" = some root ∧ left.collections.contains root = true ∧
      Fills (· ∈ held.definition.collections.values) w.workspace.store.catalog ws.store.catalog

/-- Edits leave the workspace alone. -/
theorem does_edits (h : e.Edits i) : (w.does e).workspace = w.workspace := by
  have hclient : ∀ {j : Nat} {f : Client → World}, (∀ y, (f y).workspace = w.workspace) →
      (w.withClient j f).workspace = w.workspace := by
    intro j f hf
    unfold withClient
    split
    · exact hf _
    · rfl
  cases e with
  | assign j live => exact hclient fun y => rfl
  | act c' a =>
    cases a with
    | addField j path type => exact hclient fun y => workspace_edit
    | removeField j path => exact hclient fun y => workspace_edit
    | _ => cases h

/-- This is all that is left to a client whose dataset is not stored. -/
theorem outlived_of_gone {left : Catalog} (h : Steady guarded c l w)
    (hf : w.workspace.supply.Fits c.definitions) (hx : w.clients i = some x)
    (hheld : x.dataset.standing.holding? = some held)
    (hgone : c.stored? w.workspace.store.catalog held.definition.id = none)
    (hleft : ∀ root, held.definition.collections.get? "" = some root →
      w.workspace.store.catalog.collections.contains root = true →
      left.collections.contains root = true) : Outlived c left w i x held := by
  obtain ⟨hc, -, hholds, -⟩ := h.clients i x hx
  have htraced := (hholds held hheld).traced
  have hstocked := h.stocked.congr hc
  have hgone' : x.dataset.connection.stored? w.workspace.store.catalog held.definition.id = none :=
    (stored?_congr hc _ _).trans hgone
  refine ⟨fun id d hd name hname hown => ?_, Dataset.commit_refused h.closed hstocked hheld hgone',
    fun c' d ws hc' hread => ?_, fun e he => does_edits he,
    ⟨Dataset.loadRecords_idles _, fun id => Dataset.loadRecord_idles id _⟩, ?_, fun r => ?_⟩
  · -- A name was made for one dataset only.
    obtain ⟨ht, hid⟩ := h.traced_of_stored hd
    obtain ⟨_, ha⟩ := ht.ascribes hname
    obtain ⟨_, ha'⟩ := htraced.ascribes hown
    rw [← hid, (hf.ascribes_unique ha ha').1, hgone] at hd
    cases hd
  · obtain ⟨hfrom, -⟩ := (Dataset.observes_read c' _).ok hread
    rw [Workspace.visible_of_closed h.closed] at hfrom
    obtain ⟨document, _, _, hfound, -⟩ := Dataset.readFrom_ok hfrom
    rw [hc', show DatasetKey.field (.byId held.definition.id) = "_id" from rfl,
      show DatasetKey.text (.byId held.definition.id) = held.definition.id.text from rfl,
      findOne_id h.stocked.keeps, h.stocked.documentAt_eq_none hgone] at hfound
    cases hfound
  · rcases Dataset.delete_refused_or h.closed hstocked (hc ▸ hf) rfl hheld htraced hgone' with
      hrefused | ⟨d, ws, names, hop, hnames, hremoves⟩
    · exact .inl hrefused
    · exact .inr ⟨d, ws, names, hop, hnames, hremoves.congr hc.symm⟩
  · rcases Dataset.saveRecord_refused_or h.closed hheld r with
      hrefused | ⟨ws, root, hop, hroot, hthere, hfills⟩
    · exact .inl hrefused
    · exact .inr ⟨ws, root, hop, hroot, hleft root hroot hthere, hfills⟩

variable {c' : Connection} {d : Dataset} {ws : Workspace}

theorem does_delete (hx : w.clients i = some x) (hop : x.dataset.delete w.workspace = .ok d ws) :
    w.does (.act c' (.delete i)) = { w with workspace := ws }.put i ⟨d, d.live⟩ := by
  simp [does, step, withClient, hx, hop, receive]

/-- Who holds something after a deletion is a client that did not delete. -/
theorem holding_of_delete {j : Nat} {y : Client} {seen : Holding} (hx : w.clients i = some x)
    (hop : x.dataset.delete w.workspace = .ok d ws)
    (hy : (w.does (.act c' (.delete i))).clients j = some y)
    (hseen : y.dataset.standing.holding? = some seen) : w.clients j = some y := by
  rw [does_delete hx hop] at hy
  rcases eq_or_clients_of_put hy with ⟨-, rfl⟩ | hy
  · obtain ⟨_, -, rfl, -⟩ := Dataset.delete_ok hop
    cases hseen
  · exact hy

/-- A deletion leaves no stored definition and none of the collections in use by the client. -/
theorem gone_of_delete (h : Steady guarded c l w) (hx : w.clients i = some x)
    (hheld : x.dataset.standing.holding? = some held)
    (hop : x.dataset.delete w.workspace = .ok d ws) (hf : ws.supply.Fits c.definitions) :
    c.stored? ws.store.catalog held.definition.id = none ∧
      ∀ name ∈ held.definition.collections.values,
        ws.store.catalog.collections.contains name = false := by
  obtain ⟨hc, -, hholds, -⟩ := h.clients i x hx
  have htraced := (hholds held hheld).traced
  obtain ⟨_, _, -, -, hcommits, -⟩ := h.deletes hx hf hop
  have hf₀ := hf.of_later hcommits.supply
  obtain ⟨-, hremoves⟩ :=
    Dataset.delete_removes (h.stocked.congr hc) (hc ▸ hf₀) rfl hheld htraced hop
  have hremoves := hremoves.congr hc.symm
  refine ⟨?_, fun name hname => ?_⟩
  · rw [hremoves.stored? h.stocked.keeps (hcommits.keeps h.stocked.keeps), if_pos rfl]
  · obtain ⟨_, ha⟩ := htraced.ascribes (.inl hname)
    rw [← Bool.not_eq_true, hremoves.contains name (hf₀.ne_definitions ha)]
    exact fun hin => hin.2 (List.mem_append.2 (.inl hname))

variable {w₀ : World} {deeds : List Deed}

/-- A dataset that was deleted stays deleted, whatever is done afterwards, and to the clients that
still hold it no more is left than this.  In a session of actions over one connection the deletion
leaves no collection of the root, so no client can save it. -/
theorem delete_outlived (hb : w₀.Blank)
    (ho : ∀ e ∈ deeds ++ .act c' (.delete i) :: rest, e.Over c)
    (hx : (w₀.play deeds).clients i = some x) (hheld : x.dataset.standing.holding? = some held)
    (hop : x.dataset.delete (w₀.play deeds).workspace = .ok d ws)
    (hf : (w₀.play (deeds ++ .act c' (.delete i) :: rest)).workspace.supply.Fits c.definitions)
    (hw : w = w₀.play (deeds ++ .act c' (.delete i) :: rest)) :
    c.stored? w.workspace.store.catalog held.definition.id = none ∧
      ∀ j y seen, w.clients j = some y → y.dataset.standing.holding? = some seen →
        seen.definition.id = held.definition.id →
        Outlived c ws.store.catalog w j y seen ∧
          ((∀ e ∈ deeds, e.IsActOver c) →
            ∀ root, seen.definition.collections.get? "" = some root →
              ws.store.catalog.collections.contains root = false) := by
  obtain ⟨hdeeds, hlater⟩ := List.forall_mem_append.1 ho
  obtain ⟨hdeed, hrest⟩ := List.forall_mem_cons.1 hlater
  rw [play_append, play_cons] at hf hw
  have hstep := does_commits hdeed (play_commits hdeeds hb.transaction).transaction
  have hf₂ := hf.of_later (play_commits hrest hstep.transaction).supply
  have hf₁ := hf₂.of_later hstep.supply
  obtain ⟨l₁, hsteady₁⟩ := exists_steady_play hb hdeeds hf₁
  obtain ⟨l₂, htakes⟩ := does_takes hdeed False.elim hsteady₁ hf₂
  obtain ⟨l₃, hcarries⟩ := play_carries hrest False.elim htakes.steady hf
  have hws : ((w₀.play deeds).does (.act c' (.delete i))).workspace = ws := by
    rw [does_delete hx hop]
    rfl
  obtain ⟨hgone, hdropped⟩ := gone_of_delete hsteady₁ hx hheld hop (hws ▸ hf₂)
  obtain ⟨k, hk, hid⟩ := (hsteady₁.holds i x hx held hheld).traced.identifier
  have hstays := play_staysGone hrest False.elim htakes.steady hf
    ⟨k, Nat.lt_of_lt_of_le hk hstep.supply.drawn, by rw [hstep.supply.ids, hid]⟩
    (hws.symm ▸ hgone)
  subst hw
  refine ⟨hstays.absent, fun j y seen hy hseen hsame => ?_⟩
  obtain ⟨y₂, hy₂, hseen₂⟩ := hstays.holders j y seen hy hseen hsame
  have htraced := (htakes.steady.holds j y₂ hy₂ seen hseen₂).traced
  refine ⟨outlived_of_gone hcarries.steady hf hy hseen (hsame ▸ hstays.absent)
    fun root hroot hin => ?_, fun hacts root hroot => ?_⟩
  · exact hws ▸ hstays.collections root "" (hsame ▸ htraced.live "" root hroot) hin
  · -- The client that deleted had the same collection for the root.
    obtain ⟨roots, hrooted⟩ := play_rooted hdeeds hacts
      (sound_of_blank hb fun _ => (held.definition.id, "")) hf₁ (rooted_of_blank hb)
    have hy₁ := holding_of_delete hx hop hy₂ hseen₂
    have hroots := hrooted.held j y₂ seen hy₁ hseen₂
    rw [hsame, ← hrooted.held i x held hx hheld, hroot] at hroots
    exact hdropped root (Keyed.mem_values.2 ⟨"", hroots.symm⟩)

section Sample
open Layout

/-- Two clients hold one dataset. -/
def sharedDataset : List Deed :=
  [.create 0 "d" sampleClass.rootSchema none false, .read 1 (.byName "d")].map
    (.act sampleConnection)

/-- After one of them has deleted it, another is created under its name. -/
def recreated : List Deed :=
  [.act sampleConnection (.create 2 "d" sampleClass.rootSchema none false)]

theorem delete_outlived_shared :
    ∃ (w : World) (ws : Workspace) (y : Client) (seen : Holding) (root : String),
      w = sampleWorld.play (sharedDataset ++ .act sampleConnection (.delete 0) :: recreated) ∧
      w.clients 1 = some y ∧ y.dataset.standing.holding? = some seen ∧
      seen.definition.collections.get? "" = some root ∧
      Outlived sampleConnection ws.store.catalog w 1 y seen ∧
      ws.store.catalog.collections.contains root = false := by
  have hcheck : ((sampleWorld.play sharedDataset).granted? 0 Dataset.delete).any
      (fun g => g.1.dataset.standing.holding?.any fun held =>
        ((sampleWorld.play (sharedDataset ++ .act sampleConnection (.delete 0) ::
          recreated)).clients 1).any fun y =>
          y.dataset.standing.holding?.any fun seen => decide (
            seen.definition.id = held.definition.id ∧
            (seen.definition.collections.get? "").isSome = true)) = true := by
    decide +kernel
  obtain ⟨g, hg, hcheck⟩ := (Option.any_eq_true _ _).1 hcheck
  obtain ⟨held, hheld, hcheck⟩ := (Option.any_eq_true _ _).1 hcheck
  obtain ⟨y, hy, hcheck⟩ := (Option.any_eq_true _ _).1 hcheck
  obtain ⟨seen, hseen, hcheck⟩ := (Option.any_eq_true _ _).1 hcheck
  obtain ⟨hsame, hroot⟩ := of_decide_eq_true hcheck
  obtain ⟨root, hroot⟩ := Option.isSome_iff_exists.1 hroot
  obtain ⟨hx, hop⟩ := granted?_eq_some hg
  have hquiet : sampleConnection.Quiet := Connection.quiet_plain _ _
  have hover : ∀ e ∈ sharedDataset ++ .act sampleConnection (.delete 0) :: recreated,
      e.Over sampleConnection := by
    refine List.forall_mem_append.2 ⟨over_acts hquiet _, ?_⟩
    rintro e (_ | ⟨_, _ | ⟨_, ⟨⟩⟩⟩) <;> exact ⟨rfl, hquiet⟩
  have hf : (sampleWorld.play (sharedDataset ++ .act sampleConnection (.delete 0) ::
      recreated)).workspace.supply.Fits sampleConnection.definitions :=
    .of_isFit (by decide) (by decide +kernel)
  have hblank : sampleWorld.Blank := ⟨rfl, rfl, fun _ => rfl⟩
  obtain ⟨-, hleft⟩ := delete_outlived hblank hover hx hheld hop hf rfl
  obtain ⟨houtlived, hdropped⟩ := hleft 1 y seen hy hseen hsame
  have hacts : ∀ e ∈ sharedDataset, e.IsActOver sampleConnection := by
    intro e he
    obtain ⟨a, -, rfl⟩ := List.mem_map.1 he
    rfl
  exact ⟨_, g.2.2, y, seen, root, rfl, hy, hseen, hroot, houtlived, hdropped hacts root hroot⟩

/-- The second client commits a schema without a root, and then one with a new root. -/
def newRoot : List Deed :=
  sharedDataset ++ [.assign 1 .empty, .act sampleConnection (.commit 1),
    .assign 1 sampleClass.rootSchema, .act sampleConnection (.commit 1)]

/-- A deletion by the first client leaves the collection of the new root, so the second client can
still save a record of the deleted dataset. -/
theorem save_outlives_delete :
    ∃ (x : Client) (d : Dataset) (ws : Workspace) (held : Holding) (y : Client) (seen : Holding)
      (ws' : Workspace) (root : String), (sampleWorld.play newRoot).clients 0 = some x ∧
      x.dataset.delete (sampleWorld.play newRoot).workspace = .ok d ws ∧
      x.dataset.standing.holding? = some held ∧
      (sampleWorld.play newRoot).clients 1 = some y ∧
      y.dataset.standing.holding? = some seen ∧ seen.definition.id = held.definition.id ∧
      y.dataset.saveRecord sampleRecord ws = .ok () ws' ∧
      ws.store.catalog.documentAt root sampleRecord.id.text = none ∧
      ws'.store.catalog.documentAt root sampleRecord.id.text ≠ none := by
  have hcheck : ((sampleWorld.play newRoot).granted? 0 Dataset.delete).any
      (fun g => g.1.dataset.standing.holding?.any fun held =>
        ((sampleWorld.play newRoot).clients 1).any fun y =>
          y.dataset.standing.holding?.any fun seen =>
            (given? (y.dataset.saveRecord sampleRecord g.2.2)).any fun saved =>
              (seen.definition.collections.get? "").any fun root => decide (
                seen.definition.id = held.definition.id ∧
                (g.2.2.store.catalog.documentAt root sampleRecord.id.text).isNone = true ∧
                (saved.2.store.catalog.documentAt root sampleRecord.id.text).isSome = true)) =
      true := by
    decide +kernel
  obtain ⟨g, hg, hcheck⟩ := (Option.any_eq_true _ _).1 hcheck
  obtain ⟨held, hheld, hcheck⟩ := (Option.any_eq_true _ _).1 hcheck
  obtain ⟨y, hy, hcheck⟩ := (Option.any_eq_true _ _).1 hcheck
  obtain ⟨seen, hseen, hcheck⟩ := (Option.any_eq_true _ _).1 hcheck
  obtain ⟨saved, hsaved, hcheck⟩ := (Option.any_eq_true _ _).1 hcheck
  obtain ⟨root, -, hcheck⟩ := (Option.any_eq_true _ _).1 hcheck
  obtain ⟨hsame, hnone, hsome⟩ := of_decide_eq_true hcheck
  obtain ⟨hx, hop⟩ := granted?_eq_some hg
  exact ⟨g.1, g.2.1, g.2.2, held, y, seen, saved.2, root, hx, hop, hheld, hy, hseen, hsame,
    given?_eq_some hsaved, Option.isNone_iff_eq_none.1 hnone, Option.isSome_iff_ne_none.1 hsome⟩

end Sample

end World
end SchemaKeeper
