import SchemaKeeper.Proofs.Session.Sound

/-!
# Readers agree with writers

What a client holds right after it created, loaded or committed a dataset is what every reader of
the dataset reads, by name or by identifier: schema, definition and validators.  That stays so as
long as others work on other datasets, and however many records are saved.
-/
namespace SchemaKeeper

open Catalog Op

namespace Dataset
variable {guarded : Prop} {c : Connection} {l l' : Ledger} {s : Supply} {d : Dataset}
  {held : Holding} {before after : Catalog} {revises : Uuid → String → Prop}
  {removes : Uuid → Prop} {ws ws' : Workspace}

/-- The catalog still has a dataset if its definition and its collections were left alone. -/
theorem Persists.of_frame (h : Persists before d held)
    (hdocument : after.documentAt d.connection.definitions held.definition.key =
      before.documentAt d.connection.definitions held.definition.key)
    (hframe : ∀ q ∈ held.definition.collections.values,
      after.collections.get? q = before.collections.get? q) : Persists after d held := by
  refine ⟨h.standing, h.live, h.described, fun q rule hrule => ?_, hdocument.trans h.document⟩
  obtain ⟨schema, -, hvalidators⟩ := h.described
  obtain ⟨path, k, ps, hpath, -⟩ := (Layout.validators_speak hvalidators q rule hrule).titled
  rw [hframe q (Keyed.mem_values.2 ⟨path, hpath⟩)]
  exact h.installed q rule hrule

/-- To store another dataset leaves this one alone. -/
theorem Persists.stores {other : Definition} (h : Persists before d held)
    (hc : d.connection.definitions = c.definitions) (ht : held.definition.Traced guarded l s)
    (ho : other.Traced guarded l s) (hf : s.Fits c.definitions) (hs : Stores c other before after)
    (hne : other.id ≠ held.definition.id) : Persists after d held := by
  refine h.of_frame ?_ fun q hq => ?_
  · rw [hc, hs.definitions]
    exact if_neg fun hkey => hne (Uuid.text_injective hkey)
  · obtain ⟨path, ha⟩ := ht.ascribes (.inl hq)
    refine hs.frame q (hf.ne_definitions ha) fun hin => hne ?_
    obtain ⟨path', ha'⟩ := ho.ascribes (.inl hin)
    exact (hf.ascribes_unique ha' ha).1

/-- A step that is not meant for a dataset leaves it alone. -/
theorem Persists.effect (h : Persists ws.store.catalog d held)
    (he : Effect guarded c revises removes l l' ws ws')
    (hc : d.connection.definitions = c.definitions)
    (ht : held.definition.Traced guarded l ws.supply)
    (hs : ws.store.catalog.Stocked guarded c l ws.supply) (hw : ws.Commits ws')
    (hf : ws'.supply.Fits c.definitions) (hl : l.AgreeBelow ws.supply.drawn l')
    (hrevises : ¬ revises held.definition.id held.definition.name)
    (hremoves : ¬ removes held.definition.id) : Persists ws'.store.catalog d held := by
  have ht' := ht.mono hw.supply hl
  cases he with
  | nothing same => exact same ▸ h
  | creates other k traced stores stocked le lt id =>
    exact h.stores hc ht' traced hf stores fun heq =>
      ht.ne_fresh hw.supply hf le lt (heq.symm.trans id)
  | revises other latest traced stores stocked stored follows meant =>
    refine h.stores hc ht' traced hf stores fun heq => hrevises ?_
    have hstored := Stocked.stored?_of_documentAt hs.keeps ht.writable (hc ▸ h.document)
    rw [← heq, stored] at hstored
    injection hstored with hstored
    rw [← heq, ← hstored, ← follows.name]
    exact meant
  | removes id names ascribes removed meant =>
    have hne : id ≠ held.definition.id := fun heq => hremoves (heq ▸ meant)
    have hf₀ : ws.supply.Fits c.definitions := hf.of_later hw.supply
    refine h.of_frame ?_ fun q hq => ?_
    · rw [hc, removed.definitions]
      exact if_neg fun hkey => hne (Uuid.text_injective hkey)
    · obtain ⟨path, ha⟩ := ht.ascribes (.inl hq)
      refine removed.frame q (hf₀.ne_definitions ha) fun hin => hne ?_
      obtain ⟨path', ha'⟩ := ascribes q hin
      exact (hf₀.ascribes_unique ha' ha).1
  | fills p filled apart =>
    refine ⟨h.standing, h.live, h.described, filled.installs _ h.installed, ?_⟩
    rw [hc, Catalog.documentAt, filled.frame _ apart]
    exact hc ▸ h.document

/-- A dataset that the catalog has is read under its name and its identifier just as its client
holds it. -/
theorem Persists.readFrom_eq (h : Persists before d held) (hs : before.Stocked guarded c l s)
    (hc : d.connection.definitions = c.definitions) (hw : held.definition.Writable)
    (hcounted : ∀ f ∈ held.definition.fields, f.type.isCounted = true)
    (hclasses : c.classes = d.connection.classes) {key : DatasetKey}
    (hkey : key = .byName held.definition.name ∨ key = .byId held.definition.id) :
    readFrom c key before = .ok { d with connection := c } := by
  refine h.read hw hcounted hclasses ?_
  have hdocument := hc ▸ h.document
  rcases hkey with rfl | rfl
  · refine findOne_unique hdocument (Definition.get?_document_name _) fun q document hq hname => ?_
    exact hs.named _ _ _ _ hq hdocument (hname.trans (Definition.get?_document_name _).symm)
  · exact (findOne_id hs.keeps).trans hdocument

end Dataset

namespace World
variable {guarded : Prop} {c : Connection} {l : Ledger} {w w₀ : World} {deeds rest : List Deed}
  {e : Deed} {d : Dataset} {held : Holding}

/-- By the deed a client gets a dataset and persists it: it creates, loads or commits it. -/
inductive Brings (w : World) : Deed → Dataset → Prop where
  | create {c : Connection} {i : Nat} {name : String} {s : Schema} {mediaType : Option MediaType}
    {persistent : Bool} {d : Dataset} {ws : Workspace}
    (granted : Dataset.createFrom c name s mediaType persistent w.workspace = .ok d ws) :
    Brings w (.act c (.create i name s mediaType persistent)) d
  | load {c : Connection} {i : Nat} {key : DatasetKey} {d : Dataset} {ws : Workspace}
    (granted : Dataset.load c key w.workspace = .ok d ws) : Brings w (.act c (.load i key)) d
  | commit {c : Connection} {i : Nat} {x : Client} {d : Dataset} {ws : Workspace}
    (client : w.clients i = some x) (granted : x.dataset.commit w.workspace = .ok d ws) :
    Brings w (.act c (.commit i)) d

/-- None of the deeds is meant for the dataset of a definition: to commit it, to load it, which
stamps it with the time of loading, or to delete it. -/
def Spares (w : World) (definition : Definition) : List Deed → Prop
  | [] => True
  | e :: rest => ¬ e.Revises w definition.id definition.name ∧ ¬ e.Removes w definition.id ∧
    (w.does e).Spares definition rest

/-- A dataset that a deed brings is held by a client, and the catalog has it. -/
theorem Brings.persists (hd : w.Brings e d) (ho : e.Over c) (h : Steady guarded c l w)
    (hf : (w.does e).workspace.supply.Fits c.definitions) :
    ∃ i held, (w.does e).clients i = some ⟨d, d.live⟩ ∧
      Dataset.Persists (w.does e).workspace.store.catalog d held := by
  cases hd with
  | @create c' i name s mediaType persistent _ ws granted =>
    have hc : c'.definitions = c.definitions := ho.1
    rw [does_create granted] at hf ⊢
    obtain ⟨_, held, _, -, -, -, -, -, -, -, -, hpersists⟩ :=
      Dataset.createFrom_stores (h.stocked.congr hc) (hc ▸ hf) granted
    exact ⟨i, held, clients_put _ i _, hpersists⟩
  | @load c' i key _ ws granted =>
    obtain ⟨hc, hq⟩ := ho
    rw [does_load granted] at hf ⊢
    obtain ⟨_, held, -, -, -, -, -, -, -, hpersists⟩ :=
      Dataset.load_stores hq h.closed (h.stocked.congr hc) (hc ▸ hf) granted
    exact ⟨i, held, clients_put _ i _, hpersists⟩
  | @commit c' i x _ ws client granted =>
    rw [does_commit client granted]
    obtain ⟨hc, -, hholds, -⟩ := h.clients i x client
    obtain ⟨held, _, _, hheld, -⟩ := Dataset.commit_ok granted
    obtain ⟨_, held', -, -, -, -, -, hpersists⟩ :=
      Dataset.commit_stores (h.stocked.congr hc) hheld (hholds held hheld) granted
    exact ⟨i, held', clients_put _ i _, hpersists⟩

/-- Deeds that are not meant for a dataset leave it alone. -/
theorem play_persists (ho : ∀ a ∈ rest, a.Over c) (hg : guarded → ∀ a ∈ rest, a.IsActOver c)
    (h : Steady guarded c l w) (hf : (w.play rest).workspace.supply.Fits c.definitions)
    (hc : d.connection.definitions = c.definitions)
    (ht : held.definition.Traced guarded l w.workspace.supply)
    (hp : Dataset.Persists w.workspace.store.catalog d held)
    (hspares : w.Spares held.definition rest) :
    Dataset.Persists (w.play rest).workspace.store.catalog d held := by
  induction rest generalizing w l with
  | nil => exact hp
  | cons a rest ih =>
    obtain ⟨ha, hrest⟩ := List.forall_mem_cons.1 ho
    obtain ⟨hrevises, hremoves, hspares⟩ := hspares
    have hstep := does_commits ha h.closed
    have hf₁ := hf.of_later (play_commits hrest hstep.transaction).supply
    obtain ⟨l₁, htakes⟩ :=
      does_takes ha (fun hguarded => hg hguarded a List.mem_cons_self) h hf₁
    exact ih hrest (fun hguarded a' ha' => hg hguarded a' (List.mem_cons_of_mem _ ha'))
      htakes.steady hf (ht.mono hstep.supply htakes.agree)
      (hp.effect htakes.effect hc ht h.stocked hstep hf₁ htakes.agree hrevises hremoves) hspares

/-- What a deed brings is what is read from then on.  Right after it, and after any deeds that spare
the dataset, reading it by its name and by its identifier gives what the client of the deed holds:
the live schema, the definition with its collections, and the validators.  A tuple of more
positions than a word can count would be missing from the validators that are read. -/
theorem read_brought (hb : w₀.Blank) (ho : ∀ a ∈ deeds, a.Over c) (he : e.Over c)
    (hd : (w₀.play deeds).Brings e d)
    (hf : ((w₀.play deeds).does e).workspace.supply.Fits c.definitions) :
    ∃ held, d.standing = .attached held ∧ ∀ rest, (∀ a ∈ rest, a.Over c) →
      ((w₀.play deeds).does e).Spares held.definition rest →
      (((w₀.play deeds).does e).play rest).workspace.supply.Fits c.definitions →
      (∀ f ∈ held.definition.fields, f.type.isCounted = true) →
      ∀ c' : Connection, c'.definitions = c.definitions → c'.classes = d.connection.classes →
      ∀ key, key = .byName held.definition.name ∨ key = .byId held.definition.id →
        ∃ ws, Dataset.read c' key (((w₀.play deeds).does e).play rest).workspace =
          .ok { d with connection := c' } ws := by
  have hblank : Steady False c (fun k => (w₀.workspace.supply.ids k, "")) w₀ :=
    steady_of_blank hb _
  have hstep := does_commits he (play_commits ho hb.transaction).transaction
  obtain ⟨l₁, -, hsteady, -⟩ := play_carries ho False.elim hblank (hf.of_later hstep.supply)
  obtain ⟨i, held, hclient, hpersists⟩ := hd.persists he hsteady hf
  refine ⟨held, hpersists.standing,
    fun rest hrest hspares hf' hcounted c' hc' hclasses key hkey => ?_⟩
  obtain ⟨l₂, htakes⟩ := does_takes he False.elim hsteady hf
  obtain ⟨hc, -, hholds, -⟩ := htakes.steady.clients i _ hclient
  have ht := (hholds held (by rw [hpersists.standing]; rfl)).traced
  have hpersists' :=
    play_persists hrest False.elim htakes.steady hf' hc ht hpersists hspares
  obtain ⟨l₃, -, hlast, -⟩ := play_carries hrest False.elim htakes.steady hf'
  have hread := hpersists'.readFrom_eq (c := c') (hlast.stocked.congr hc') (hc.trans hc'.symm)
    ht.writable hcounted hclasses hkey
  rw [← Workspace.visible_of_closed hlast.closed] at hread
  exact (Dataset.observes_read c' key).of_ok hread

section Sample
open Layout

/-- Two clients hold one dataset, and one of them has added a field. -/
def sharedDeeds : List Deed :=
  [.create 0 "d" sampleClass.rootSchema none false, .read 1 (.byName "d"),
    .addField 1 "cover" (.document boxClass)].map (.act sampleConnection)

/-- The client commits the field. -/
def sharingDeed : Deed := .act sampleConnection (.commit 1)

/-- Another dataset comes and goes, and a record is saved. -/
def otherDeeds : List Deed :=
  [.create 2 "e" boxClass.rootSchema none false, .delete 2,
    .save 0 (.empty (Uuid.ofNat 1000) sampleClass)].map (.act sampleConnection)

theorem read_brought_sample :
    ∃ x d ws held, (sampleWorld.play sharedDeeds).clients 1 = some x ∧
      x.dataset.commit (sampleWorld.play sharedDeeds).workspace = .ok d ws ∧
      d.standing = .attached held ∧
      ∀ key, key = .byName held.definition.name ∨ key = .byId held.definition.id →
        ∃ ws, Dataset.read d.connection key
          (((sampleWorld.play sharedDeeds).does sharingDeed).play otherDeeds).workspace =
            .ok d ws := by
  have hcheck : ((sampleWorld.play sharedDeeds).granted? 1 Dataset.commit).any (fun g =>
      g.2.1.standing.holding?.any fun held => decide (
        g.2.1.connection.definitions = sampleConnection.definitions ∧
        (∀ f ∈ held.definition.fields, f.type.isCounted = true) ∧
        (((sampleWorld.play sharedDeeds).does sharingDeed).does (.act sampleConnection
          (.create 2 "e" boxClass.rootSchema none false))).heldId? 2 ≠
            some held.definition.id)) = true := by
    decide +kernel
  obtain ⟨g, hg, hcheck⟩ := (Option.any_eq_true _ _).1 hcheck
  obtain ⟨held, hheld, hcheck⟩ := (Option.any_eq_true _ _).1 hcheck
  obtain ⟨hdefinitions, hcounted, hother⟩ := of_decide_eq_true hcheck
  obtain ⟨hx, hop⟩ := granted?_eq_some hg
  have hquiet : sampleConnection.Quiet := Connection.quiet_plain _ _
  have hf : (((sampleWorld.play sharedDeeds).does sharingDeed).play
      otherDeeds).workspace.supply.Fits sampleConnection.definitions :=
    .of_isFit (by decide) (by decide +kernel)
  have hshared : ∀ a ∈ sharedDeeds, a.Over sampleConnection := over_acts hquiet _
  have hothers : ∀ a ∈ otherDeeds, a.Over sampleConnection := over_acts hquiet _
  have hblank : sampleWorld.Blank := ⟨rfl, rfl, fun _ => rfl⟩
  have hsharing : sharingDeed.Over sampleConnection := ⟨rfl, hquiet⟩
  have hcommits := does_commits hsharing (play_commits hshared hblank.transaction).transaction
  have hbrings : (sampleWorld.play sharedDeeds).Brings sharingDeed g.2.1 := .commit hx hop
  obtain ⟨held', hstanding, hreads⟩ := read_brought hblank hshared hsharing hbrings
    (hf.of_later (play_commits hothers hcommits.transaction).supply)
  rw [hstanding] at hheld
  injection hheld with hheld
  subst hheld
  refine ⟨g.1, g.2.1, g.2.2, held', hx, hop, hstanding, fun key hkey => ?_⟩
  have hspares : ((sampleWorld.play sharedDeeds).does sharingDeed).Spares held'.definition
      otherDeeds := ⟨id, id, id, hother, id, id, trivial⟩
  exact hreads otherDeeds hothers hspares hf hcounted g.2.1.connection hdefinitions rfl key hkey

end Sample

end World
end SchemaKeeper
