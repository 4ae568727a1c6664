import SchemaKeeper.Proofs.Dataset.Plain
import SchemaKeeper.Proofs.Dataset.Register
import SchemaKeeper.Proofs.Layout.Definable

/-!
# Which edits can be committed

A commit lays out what its client has edited.  It goes through if all fields are typed and all
classes that their types name are registered, provided that nobody else has edited the dataset and
that no class asks for a unique index: nothing else stops it.
-/
namespace SchemaKeeper

open Catalog Op Provision

/-- A transaction that began on a version is open. -/
def Workspace.Begun (version : Nat) (ws : Workspace) : Prop :=
  ∃ t, ws.transaction = some t ∧ t.base = version

theorem Workspace.Rests.begun {version : Nat} {ws ws' : Workspace} (h : ws.Rests ws')
    (hb : ws.Begun version) : ws'.Begun version := by
  obtain ⟨t, ht, hbase⟩ := hb
  exact ⟨t, h.transaction.trans ht, hbase⟩

namespace Op
variable {ε α β : Type} {version : Nat} {ws ws' : Workspace}

/-- The operation succeeds, and leaves the transaction open that began on a version. -/
def Proceeds (version : Nat) (op : Op ε α) (ws : Workspace) : Prop :=
  ∃ a ws', op ws = .ok a ws' ∧ ws'.Begun version

theorem Proceeds.bind {x : Op ε α} {f : α → Op ε β} (hx : Proceeds version x ws)
    (hf : ∀ a ws₁, x ws = .ok a ws₁ → ws₁.Begun version → Proceeds version (f a) ws₁) :
    Proceeds version (x >>= f) ws := by
  obtain ⟨a, ws₁, h₁, hb₁⟩ := hx
  obtain ⟨b, ws₂, h₂, hb₂⟩ := hf a ws₁ h₁ hb₁
  exact ⟨b, ws₂, bind_eq_ok.2 ⟨a, ws₁, h₁, h₂⟩, hb₂⟩

theorem Observes.proceeds {op : Op ε α} {f : Catalog → Except ε α} (h : Observes op f)
    (hb : ws.Begun version) {a : α} (hf : f ws.visible = .ok a) : Proceeds version op ws := by
  obtain ⟨ws', hop⟩ := h.of_ok hf
  exact ⟨a, ws', hop, (h.ok hop).2.begun hb⟩

theorem proceeds_pure (hb : ws.Begun version) (a : α) : Proceeds version (pure a : Op ε α) ws :=
  ⟨a, ws, rfl, hb⟩

theorem proceeds_note (hb : ws.Begun version) (severity : Severity) (event : Event)
    (fields : List (String × String)) :
    Proceeds version (note severity event fields : Op ε Unit) ws :=
  (observes_note severity event fields).proceeds hb rfl

/-- What the catalog lets happen is written. -/
theorem proceeds_write {w : Write} (hb : ws.Begun version) {answer : Bool} {next : Catalog}
    (h : ws.visible.perform w = .ok (answer, next)) :
    Proceeds version (write w : Op Refusal Bool) ws := by
  obtain ⟨t, ht, hbase⟩ := hb
  obtain ⟨t₁, hwrite, hbase₁, -⟩ := Dataset.exists_write ht h
  exact ⟨answer, _, hwrite, t₁, rfl, hbase₁.trans hbase⟩

theorem proceeds_discard_write {w : Write} (hb : ws.Begun version) {answer : Bool} {next : Catalog}
    (h : ws.visible.perform w = .ok (answer, next)) :
    Proceeds version (discard (write w) : Op Refusal Unit) ws :=
  (proceeds_write hb h).bind fun _ _ _ hb₁ => proceeds_pure hb₁ ()

/-- Work that proceeds is committed. -/
theorem Proceeds.inTransaction {work : Op Refusal α} (hw : Contained work)
    (h : Proceeds ws.store.catalog.version work ws.opened) :
    ∃ a ws', Op.inTransaction work ws = .ok a ws' := by
  obtain ⟨a, ws₁, hwork, t, ht, hbase⟩ := h
  obtain ⟨ws', hrun, -⟩ := Dataset.exists_inTransaction hw hwork ht hbase
  exact ⟨a, ws', hrun⟩

theorem after_bind_of_ok {x : Op ε α} {f : α → Op ε β} {a : α} (h : x ws = .ok a ws') :
    after (x >>= f) ws = after (f a) ws' := by
  rw [after_bind, h]

/-- Whether a transaction is committed or aborted, what its work drew stays drawn. -/
theorem supply_after_inTransaction [FromStore ε] (work : Op ε α) (ws : Workspace) :
    (after (Op.inTransaction work) ws).supply = (after work ws.opened).supply := by
  rw [after, inTransaction_eq]
  cases hwork : work ws.opened with
  | ok a ws₁ =>
    simp only [after_of_ok hwork, bind_apply, commitTransaction_eq]
    cases ws₁.store.commit (ws₁.transaction.getD ws.store.begin) <;> rfl
  | error e ws₁ =>
    simp only [after_of_error hwork, bind_apply, abortTransaction_eq]
    rfl

/-- Whatever follows on a transaction without moving the store, what its work drew stays drawn. -/
theorem supply_later_attempt {work : Op Refusal α} {next : Except Refusal α → Op Refusal β}
    (hnext : ∀ r, Idles (next r)) (ws : Workspace) :
    (after work ws.opened).supply.Later
      (after (Op.attempt (Op.inTransaction work) >>= next) ws).supply := by
  rw [← supply_after_inTransaction work ws, after_bind, attempt_eq]
  cases hrun : Op.inTransaction work ws with
  | ok a ws₁ =>
    rw [after_of_ok hrun]
    exact (hnext _ ws₁).supply
  | error e ws₁ =>
    rw [after_of_error hrun]
    exact (hnext _ ws₁).supply

theorem idles_complete (scope : Scope) (extra : List (String × String)) :
    Idles (complete scope extra : Op ε Unit) := fun ws => by
  obtain ⟨⟨⟩, ws', hop, hr⟩ := rests_complete (ε := ε) scope extra ws
  exact after_of_ok hop ▸ hr

end Op

/-! ## What is written -/

namespace Catalog
variable {catalog : Catalog} {name definitions : String}

/-- The indexes can be asked of a collection: none of them is unique, or there are no documents. -/
def Indexable (catalog : Catalog) (name : String) (indexes : List Index) : Prop :=
  (∀ i ∈ indexes, i.unique = false) ∨ catalog.documents name = .empty

theorem exists_createIndex {index : Index} (hc : catalog.collections.contains name = true)
    (hi : index.unique = true → ∀ state, catalog.collections.get? name = some state →
      state.hasDuplicate index = false) :
    ∃ answer next, catalog.perform (.createIndex name index) = .ok (answer, next) := by
  obtain ⟨state, hs⟩ := Keyed.contains_iff.1 hc
  rw [perform, collection_eq_ok.2 hs, ok_bind]
  have hfree : (index.unique && state.hasDuplicate index) = false := by
    cases hu : index.unique with
    | false => rfl
    | true => rw [hi hu state hs, Bool.and_false]
  rw [hfree]
  split
  · exact ⟨false, catalog, rfl⟩
  · exact ⟨true, _, rfl⟩

theorem hasDuplicate_of_empty {state : Collection} (h : state.documents = .empty) (i : Index) :
    state.hasDuplicate i = false := by
  rw [Collection.hasDuplicate, h]
  rfl

theorem Indexable.not_hasDuplicate {index : Index} {rest : List Index}
    (h : catalog.Indexable name (index :: rest)) :
    index.unique = true → ∀ state, catalog.collections.get? name = some state →
      state.hasDuplicate index = false := by
  intro hu state hs
  rcases h with h | h
  · rw [h index List.mem_cons_self] at hu
    cases hu
  · rw [Catalog.documents, hs] at h
    exact hasDuplicate_of_empty h index

theorem Indexable.tail {index : Index} {rest : List Index}
    (h : catalog.Indexable name (index :: rest)) : catalog.Indexable name rest :=
  h.imp_left fun h => (List.forall_mem_cons.1 h).2

theorem Indexable.congr {next : Catalog} {indexes : List Index} (h : catalog.Indexable name indexes)
    (hd : next.documents name = catalog.documents name) : next.Indexable name indexes :=
  h.imp_right hd.trans

theorem exists_setValidator {document : Json} (hc : catalog.collections.contains name = true) :
    ∃ next, catalog.perform (.setValidator name document) = .ok (true, next) := by
  obtain ⟨state, hs⟩ := Keyed.contains_iff.1 hc
  exact ⟨_, by rw [perform, collection_eq_ok.2 hs, ok_bind]; rfl⟩

theorem contains_existing {names : List String} (hn : name ∈ names) :
    (catalog.existing names).contains name = catalog.collections.contains name := by
  have hiff : (catalog.existing names).contains name = true ↔
      catalog.collections.contains name = true := by
    rw [Keyed.contains_iff]
    constructor
    · rintro ⟨⟨⟩, h⟩
      obtain ⟨q, hq, heq⟩ := List.mem_map.1 (Keyed.mem_of_get?_ofList h)
      injection heq with heq
      exact heq ▸ (List.mem_filter.1 hq).2
    · intro h
      refine ⟨(), (Keyed.get?_ofList_iff fun _ _ _ _ _ => rfl).2 ?_⟩
      exact List.mem_map.2 ⟨name, List.mem_filter.2 ⟨hn, h⟩, rfl⟩
  exact Bool.eq_iff_iff.2 hiff

/-- A definition takes the place of the stored one if no other one has its name. -/
theorem Registers.exists_replaceOne (hr : catalog.Registers definitions) {d : Definition}
    {before : Json} (hbefore : catalog.documentAt definitions d.key = some before)
    (hname : ∀ key other, catalog.documentAt definitions key = some other →
      other.get? "name" = some (.string d.name) → key = d.key) :
    ∃ next, catalog.perform (.replaceOne definitions d.key d.document false) =
      .ok (true, next) := by
  obtain ⟨state, hs, hdocument⟩ := Option.bind_eq_some_iff.1 hbefore
  have haccept : state.accept definitions d.key d.document = .ok () :=
    (hr state hs).accept d.get?_document_name fun key other hother hsame =>
      hname key other (Option.bind_eq_some_iff.2 ⟨state, hs, hother⟩) hsame
  have hid : documentId d.document = .ok d.key := documentId_eq_ok.2 d.get?_document_id
  have hcontains : state.documents.contains d.key = true := Keyed.contains_iff.2 ⟨before, hdocument⟩
  simp only [Catalog.perform, hid, collection_eq_ok.2 hs, haccept, hcontains, ok_bind, ne_eq,
    not_true_eq_false, if_false, Bool.not_true, Bool.and_false, Bool.false_eq_true, pure_eq_ok,
    Except.ok.injEq, Prod.mk.injEq, true_and, exists_eq']

end Catalog

/-- Collections apart from each other have names of their own. -/
theorem Collections.Apart.nodup {cs : Collections} (h : cs.Apart) : cs.values.Nodup := by
  refine List.pairwise_map.2 (cs.ordered.imp_of_mem fun {a b} ha hb hlt heq => ?_)
  refine Entries.key_ne_of_lt hlt (h a.1 b.1 a.2 (Keyed.mem_entries_iff.1 ha) ?_)
  exact heq ▸ Keyed.mem_entries_iff.1 hb

/-! ## Provisioning goes through -/

namespace Provision
variable {version : Nat} {ws ws' : Workspace} {name : String} {s : Schema} {r : Registry}
  {t : Transaction}

theorem Reaches.contains {p : String → Prop} (h : Reaches p ws ws') {q : String} (hq : ¬ p q) :
    ws'.visible.collections.contains q = ws.visible.collections.contains q := by
  rw [Keyed.contains, Keyed.contains, h.outfits.frame q hq]

theorem proceeds_ensureIndexes {indexes : List Index} (hb : ws.Begun version)
    (hi : ws.visible.Indexable name indexes) (hc : ws.visible.collections.contains name = true) :
    Proceeds version (ensureIndexes name indexes) ws := by
  induction indexes generalizing ws with
  | nil => exact proceeds_pure hb ()
  | cons index rest ih =>
    obtain ⟨t, ht, -⟩ := id hb
    obtain ⟨answer, next, hperform⟩ := exists_createIndex hc hi.not_hasDuplicate
    refine (proceeds_write hb hperform).bind fun answer ws₁ h₁ hb₁ => ?_
    have houtfits := (createIndex_reaches ht h₁).outfits
    have hi₁ := hi.tail.congr (houtfits.documents name)
    have hc₁ := houtfits.contains name hc
    split
    · refine (proceeds_note hb₁ _ _ _).bind fun _ ws₂ h₂ hb₂ => ?_
      have hvisible := ((observes_note _ _ _).ok h₂).2.visible
      exact ih hb₂ (hvisible.symm ▸ hi₁) (hvisible.symm ▸ hc₁)
    · exact ih hb₁ hi₁ hc₁

/-- Collections of different names are made, unless they were there before. -/
theorem proceeds_ensureCollections {existing : Keyed Unit} {es : List (String × String)}
    (hb : ws.Begun version) (hn : (es.map Prod.snd).Nodup)
    (hi : ∀ e ∈ es, ws.visible.Indexable e.2 (indexesAt s e.1))
    (hex : ∀ e ∈ es, existing.contains e.2 = ws.visible.collections.contains e.2) :
    Proceeds version (ensureCollections s existing es) ws := by
  induction es generalizing ws with
  | nil => exact proceeds_pure hb ()
  | cons e rest ih =>
    obtain ⟨path, name⟩ := e
    obtain ⟨hnew, hn⟩ := List.nodup_cons.1 hn
    obtain ⟨hindex, hi⟩ := List.forall_mem_cons.1 hi
    obtain ⟨hname, hex⟩ := List.forall_mem_cons.1 hex
    obtain ⟨t, ht, -⟩ := id hb
    have hrest : ∀ ws₁, ws₁.Begun version → Reaches (· = name) ws ws₁ →
        ws₁.visible.collections.contains name = true →
        Proceeds version (do
          ensureIndexes name (indexesAt s path)
          ensureCollections s existing rest) ws₁ := by
      intro ws₁ hb₁ h₁ hc₁
      refine (proceeds_ensureIndexes hb₁ (hindex.congr (h₁.outfits.documents name)) hc₁).bind
        fun _ ws₂ h₂ hb₂ => ?_
      obtain ⟨t₁, ht₁, -⟩ := id hb₁
      have h₂ := h₁.trans (ensureIndexes_ok ht₁ h₂)
      refine ih hb₂ hn (fun e he => (hi e he).congr (h₂.outfits.documents e.2))
        fun e he => (hex e he).trans ?_
      have hother : e.2 ≠ name := fun heq => hnew (List.mem_map.2 ⟨e, he, heq⟩)
      exact (h₂.contains hother).symm
    rw [ensureCollections]
    split
    · rename_i habsent
      have hfree : ws.visible.collections.contains name = false := by
        simpa [hname] using habsent
      have hperform : ws.visible.perform (.createCollection name) =
          .ok (true, ws.visible.setCollection name .empty) := by
        rw [perform, if_neg (by simp [hfree])]
      refine (proceeds_discard_write hb hperform).bind fun _ ws₁ h₁ hb₁ => ?_
      obtain ⟨answer, ws₀, hw, hd⟩ := bind_eq_ok.1 h₁
      cases hd
      obtain ⟨hreaches, hc⟩ := createCollection_reaches ht hw
      obtain ⟨t₁, ht₁, -⟩ := id hb₁
      refine (proceeds_note hb₁ _ _ _).bind fun _ ws₂ h₂ hb₂ => ?_
      refine hrest ws₂ hb₂ (hreaches.trans (reaches_note ht₁ h₂)) ?_
      rwa [((observes_note _ _ _).ok h₂).2.visible]
    · rename_i hpresent
      exact hrest ws hb (reaches_of_rests (.refl ws) ht) (by simpa [hname] using hpresent)

theorem proceeds_installValidator {rule : Rule} (hb : ws.Begun version)
    (hc : ws.visible.collections.contains name = true) :
    Proceeds version (installValidator name rule : Op Refusal Bool) ws := by
  obtain ⟨state, hs⟩ := Keyed.contains_iff.1 hc
  have hquery : (ws.visible.validatorOf name).mapError (FromStore.ofStore : _ → Refusal) =
      .ok state.validator := by
    rw [validatorOf, collection_eq_ok.2 hs]
    rfl
  refine ((observes_query _).proceeds hb hquery).bind fun installed ws₁ h₁ hb₁ => ?_
  split
  · exact (proceeds_note hb₁ _ _ _).bind fun _ _ _ hb₂ => proceeds_pure hb₂ false
  · rw [← ((observes_query _).ok h₁).2.visible] at hc
    obtain ⟨next, hperform⟩ : ∃ next,
        ws₁.visible.perform (.setValidator name rule.document) = .ok (true, next) :=
      exists_setValidator hc
    exact (proceeds_discard_write hb₁ hperform).bind fun _ _ _ hb₂ =>
      (proceeds_note hb₂ _ _ _).bind fun _ _ _ hb₃ => proceeds_pure hb₃ true

theorem proceeds_installValidators {rules : List (String × Rule)} (hb : ws.Begun version)
    (hc : ∀ e ∈ rules, ws.visible.collections.contains e.1 = true) :
    Proceeds version (installValidators rules) ws := by
  induction rules generalizing ws with
  | nil => exact proceeds_pure hb ()
  | cons e rest ih =>
    obtain ⟨hhead, hrest⟩ := List.forall_mem_cons.1 hc
    obtain ⟨t, ht, -⟩ := id hb
    have hone : Proceeds version (discard (installValidator e.1 e.2) : Op Refusal Unit) ws :=
      (proceeds_installValidator hb hhead).bind fun _ _ _ hb₁ => proceeds_pure hb₁ ()
    refine hone.bind fun _ ws₁ h₁ hb₁ => ih hb₁ fun e' he' => ?_
    obtain ⟨answer, ws₀, hi, hd⟩ := bind_eq_ok.1 h₁
    cases hd
    exact (installValidator_ok ht hi).1.outfits.contains _ (hrest e' he')

/-- A schema that can be laid out is laid out, if its collections get names of their own and can
have the indexes that the classes ask for. -/
theorem proceeds_make {known : Collections} (hs : s.IsDefinable r) (hb : ws.Begun version)
    (hapart : ∀ ds n, Layout.define ws.supply.ids known ws.supply.drawn s.entries = .ok (ds, n) →
      (FieldDefinition.collections ds).Apart ∧ ∀ e ∈ (FieldDefinition.collections ds).entries,
        ws.visible.Indexable e.2 (indexesAt s e.1)) : Proceeds version (make s known) ws := by
  obtain ⟨t, ht, -⟩ := id hb
  obtain ⟨ds, n, hdefine⟩ := Layout.exists_definitions hs ws.supply.ids known ws.supply.drawn
  obtain ⟨hapart, hindexable⟩ := hapart ds n hdefine
  have hwritten : define s known ws =
      .ok ds { ws with supply := { ws.supply with drawn := n } } := by
    rw [define_eq, hdefine]
  have hdefined : Proceeds version (define s known) ws := ⟨ds, _, hwritten, hb⟩
  refine hdefined.bind fun ds' ws₁ h₁ hb₁ => ?_
  rw [hwritten] at h₁
  cases h₁
  obtain ⟨v, hv⟩ := Layout.exists_validators (Layout.describes_of_define hdefine)
  refine ((observes_lift _).proceeds hb₁ hv).bind fun v' ws₂ h₂ hb₂ => ?_
  obtain ⟨hv', hws⟩ := lift_eq_ok.1 h₂
  subst hws
  refine (observes_catalog.proceeds hb₂ rfl).bind fun catalog ws₃ h₃ hb₃ => ?_
  obtain ⟨hcatalog, hrests₃⟩ := observes_catalog.ok h₃
  injection hcatalog with hcatalog
  obtain ⟨t₃, ht₃, -⟩ := id hb₃
  have hexisting : ∀ e ∈ (FieldDefinition.collections ds).entries,
      (catalog.existing (FieldDefinition.collections ds).values).contains e.2 =
        ws₃.visible.collections.contains e.2 := by
    intro e he
    rw [hrests₃.visible, hcatalog]
    exact contains_existing (Keyed.mem_values.2 ⟨e.1, Keyed.mem_entries_iff.1 he⟩)
  have hindexable₃ : ∀ e ∈ (FieldDefinition.collections ds).entries,
      ws₃.visible.Indexable e.2 (indexesAt s e.1) := fun e he => hrests₃.visible ▸ hindexable e he
  refine (proceeds_ensureCollections hb₃ hapart.nodup hindexable₃ hexisting).bind
    fun _ ws₄ h₄ hb₄ => ?_
  have hexist := (ensureCollections_ok ht₃ (fun q hq => ?_) h₄).2
  · refine (proceeds_installValidators hb₄ fun e he => ?_).bind fun _ _ _ hb₅ => proceeds_pure hb₅ _
    obtain ⟨path, k, ps, hpath, -⟩ :=
      (Layout.validators_speak hv' e.1 e.2 (Keyed.mem_entries_iff.1 he)).titled
    exact hexist (path, e.1) (Keyed.mem_entries_iff.2 hpath)
  · obtain ⟨⟨⟩, hq⟩ := Keyed.contains_iff.1 hq
    obtain ⟨name, hname, heq⟩ := List.mem_map.1 (Keyed.mem_of_get?_ofList hq)
    injection heq with heq
    obtain ⟨path, hpath⟩ := Keyed.mem_values.1 (List.mem_filter.1 hname).1
    rw [← hexisting (path, q) (Keyed.mem_entries_iff.2 (heq ▸ hpath))]
    exact Keyed.contains_iff.2 ⟨(), hq⟩

/-- What a schema draws when it is laid out stays drawn, however that goes on. -/
theorem later_of_define {α : Type} {known : Collections} {ds : List FieldDefinition} {n : Nat}
    {next : Provision → Op Refusal α} (ht : ws.transaction = some t)
    (hdefine : Layout.define ws.supply.ids known ws.supply.drawn s.entries = .ok (ds, n))
    (hnext : ∀ p, Contained (next p)) :
    ({ ws.supply with drawn := n } : Supply).Later (after (make s known >>= next) ws).supply := by
  have hwritten : define s known ws =
      .ok ds { ws with supply := { ws.supply with drawn := n } } := by
    rw [define_eq, hdefine]
  rw [make, bind_assoc, after_bind_of_ok hwritten]
  refine (Contained.bind ?_ hnext { ws with supply := { ws.supply with drawn := n } } t ht).supply
  exact (contained_lift _).bind fun _ => observes_catalog.contained.bind fun _ =>
    (contained_ensureCollections s _ _).bind fun _ =>
      (contained_installValidators _).bind fun _ => contained_pure _

end Provision

/-! ## Commits go through -/

namespace Dataset
variable {guarded : Prop} {c : Connection} {version drawn n : Nat} {ws ws' : Workspace}
  {l : Ledger} {d d' : Dataset} {held : Holding} {base : Schema} {s : Supply} {t : Transaction}
  {catalog : Catalog}

/-- The collections that a commit lays out are apart from each other and from the one of the
definitions: each was made for its path, or is made now. -/
theorem apart_of_define {latest : Definition} {schema : Schema} {ds : List FieldDefinition}
    (hf : ({ s with drawn := n } : Supply).Fits c.definitions)
    (hheld : held.definition.Traced guarded l s) (hlatest : latest.Traced guarded l s)
    (hid : latest.id = held.definition.id)
    (hdefine : Layout.define s.ids (held.definition.collections.union latest.collections) s.drawn
      schema.entries = .ok (ds, n)) :
    (FieldDefinition.collections ds).Apart ∧
      c.definitions ∉ (FieldDefinition.collections ds).values := by
  obtain ⟨l', -, ha⟩ := Layout.exists_ledger hdefine l held.definition.id fun path name hp =>
    ascribes_known hheld hlatest hid hp
  refine ⟨hf.apart ha, fun hin => ?_⟩
  obtain ⟨path, hp⟩ := Keyed.mem_values.1 hin
  exact hf.ne_definitions (ha path _ hp) rfl

/-- The definition of the dataset that is read under the identifier of the one held. -/
theorem exists_latest (hs : catalog.Stocked guarded c l s)
    (hfollows : ∀ latest, c.stored? catalog held.definition.id = some latest →
      latest.Follows held.definition)
    (hseen : (readFrom c (.byId held.definition.id) catalog).map live = .ok base) :
    ∃ latest v, readFrom c (.byId held.definition.id) catalog =
        .ok ⟨c, .attached ⟨latest, v⟩, base⟩ ∧
      latest.Traced guarded l s ∧ latest.id = held.definition.id ∧
      latest.name = held.definition.name ∧
      catalog.documentAt c.definitions held.definition.key = some latest.document := by
  obtain ⟨d₀, hread, rfl⟩ := map_eq_ok_iff.1 hseen
  obtain ⟨latest, hc, hstanding, hlatest, hdocument, hid, -⟩ := readFrom_stocked hs hread
  have hid : latest.definition.id = held.definition.id := hid _ rfl
  have hstored := Stocked.stored?_of_documentAt hs.keeps hlatest.traced.writable hdocument
  refine ⟨latest.definition, latest.validators, ?_, hlatest.traced, hid,
    (hfollows _ (hid ▸ hstored)).name, ?_⟩
  · rw [hread]
    obtain ⟨connection, standing, live⟩ := d₀
    simp only at hc hstanding
    rw [hc, hstanding]
  · rw [Definition.key, ← hid]
    exact hdocument

/-- What a commit stores takes the place of the definition that it read. -/
theorem exists_replace {ids : Nat → Uuid} {known : Collections} {schema : Schema}
    {before after : Catalog} {latest : Definition} {p : Provision}
    (hlaid : LaidOut ids known schema drawn n before after p)
    (hs : before.Stocked guarded c l s) (hregisters : before.Registers c.definitions)
    (hn : c.definitions ∉ p.collections.values) (hname : latest.name = held.definition.name)
    (hdocument : before.documentAt c.definitions held.definition.key = some latest.document) :
    ∃ next, after.perform (.replaceOne c.definitions (committed held latest p).key
      (committed held latest p).document false) = .ok (true, next) := by
  have hsame : ∀ key, after.documentAt c.definitions key = before.documentAt c.definitions key := by
    intro key
    rw [documentAt_eq, hlaid.outfits.documents, ← documentAt_eq]
  refine (hlaid.registers hn hregisters).exists_replaceOne ((hsame _).trans hdocument)
    fun key other hother hget => ?_
  refine hs.named _ _ _ _ ((hsame key).symm.trans hother) hdocument ?_
  rw [hget, Definition.get?_document_name, hname]
  rfl

theorem proceeds_merge (hs : ws.visible.Stocked True d.connection l ws.supply)
    (hregisters : ws.visible.Registers d.connection.definitions) (hplain : d.IsPlain)
    (hh : d.Holds True l ws.supply base held)
    (hfollows : ∀ latest, d.connection.stored? ws.visible held.definition.id = some latest →
      latest.Follows held.definition)
    (hseen : (readFrom d.connection (.byId held.definition.id) ws.visible).map Dataset.live =
      .ok base)
    (hdefinable : d.live.IsDefinable d.connection.classes)
    (hf : (after (merge d.connection held d.live) ws).supply.Fits d.connection.definitions)
    (hb : ws.Begun version) : Proceeds version (merge d.connection held d.live) ws := by
  obtain ⟨latest, v, hread, htraced, hid, hname, hdocument⟩ := exists_latest hs hfollows hseen
  obtain ⟨k, hroot⟩ := hh.root_document trivial
  have hroot : ((Delta.between base d.live).apply base).typeAt "" = .ok (.document k) :=
    (typeAt_congr (Delta.get?_apply_of_eq (hh.root trivial))).trans hroot
  have hreplayed : ((Delta.between base d.live).apply base).IsDefinable d.connection.classes :=
    (Schema.isDefinable_congr (Delta.entry_apply_self base d.live)).2 hdefinable
  have hmerged : ((Delta.between base d.live).apply base).IsPlain :=
    Schema.All.apply (readFrom_uses (q := fun c => c.classes.IsPlain) (fun _ h => h) hplain.classes
      hread).live hplain.live
  -- The dataset is read, and the schema that the client last saw recovered.
  refine ((observes_read _ _).proceeds hb hread).bind fun d₁ ws₁ h₁ hb₁ => ?_
  obtain ⟨hd₁, hrests₁⟩ := (observes_read _ _).ok h₁
  rw [hread] at hd₁
  injection hd₁ with hd₁
  subst hd₁
  refine ((observes_recover _ _ _).proceeds hb₁ hh.seen).bind fun base' ws₂ h₂ hb₂ => ?_
  obtain ⟨hbase, hrests₂⟩ := (observes_recover _ _ _).ok h₂
  rw [hh.seen] at hbase
  injection hbase with hbase
  subst hbase
  refine (proceeds_note hb₂ _ _ _).bind fun _ ws₃ h₃ hb₃ => ?_
  have hafter : after (merge d.connection held d.live) ws = after (make _ _ >>= _) ws₃ :=
    (after_bind_of_ok h₁).trans ((after_bind_of_ok h₂).trans (after_bind_of_ok h₃))
  rw [hafter] at hf
  have hrests := (hrests₁.trans hrests₂).trans ((observes_note _ _ _).ok h₃).2
  obtain ⟨t₃, ht₃, -⟩ := id hb₃
  -- The schema is laid out.
  have hapart : ∀ ds n, Layout.define ws₃.supply.ids (held.definition.collections.union
      latest.collections) ws₃.supply.drawn ((Delta.between base d.live).apply base).entries =
        .ok (ds, n) → (FieldDefinition.collections ds).Apart ∧
          d.connection.definitions ∉ (FieldDefinition.collections ds).values := by
    intro ds n hdefine
    refine apart_of_define (hf.of_later (later_of_define ht₃ hdefine fun p => ?_))
      (hh.traced.mono hrests.supply fun _ _ => rfl) (htraced.mono hrests.supply fun _ _ => rfl)
      hid hdefine
    refine (observes_recover _ _ _).contained.bind fun _ =>
      (contained_write _).bind fun answer => ?_
    split
    · exact contained_throw _
    · exact contained_pure _
  refine (proceeds_make hreplayed hb₃ fun ds n h =>
    ⟨(hapart ds n h).1, fun e _ => .inl (hmerged.indexesAt_not_unique e.1)⟩).bind
    fun provision ws₄ h₄ hb₄ => ?_
  obtain ⟨hstays₄, hlaid⟩ := make_ok ht₃ h₄
  obtain ⟨n', hdefine, -⟩ := id hlaid.define
  obtain ⟨hapart, hn⟩ := hapart _ _ hdefine
  obtain ⟨live, hlive⟩ := Layout.exists_schema hreplayed hlaid.describes hapart hroot
    (Layout.validators_speak hlaid.validators)
  refine ((observes_recover _ _ _).proceeds hb₄ hlive).bind fun live' ws₅ h₅ hb₅ => ?_
  have hrests₅ := ((observes_recover _ _ _).ok h₅).2
  -- The definition takes the place of the stored one.
  obtain ⟨t₅, ht₅, -⟩ := id hb₅
  rw [hrests.visible] at hlaid
  obtain ⟨next, hreplace⟩ := exists_replace hlaid hs hregisters hn hname hdocument
  rw [← hrests₅.visible] at hreplace
  refine (proceeds_write hb₅ hreplace).bind fun answer ws₆ h₆ hb₆ => ?_
  have hanswer := (write_ok ht₅ h₆).1
  rw [hreplace] at hanswer
  injection hanswer with hanswer
  injection hanswer with hanswer
  subst hanswer
  exact proceeds_pure hb₆ _

/-- A commit does its work in a transaction, and succeeds if that does. -/
theorem commit_begins (hheld : d.standing.holding? = some held) (ws : Workspace) :
    ∃ ws₁, ws.Rests ws₁ ∧
      (after (merge d.connection held d.live) ws₁.opened).supply.Later
        (after (commit d) ws).supply ∧
      ((∃ r ws₂, Op.inTransaction (merge d.connection held d.live) ws₁ = .ok r ws₂) →
        ∃ d' ws', commit d ws = .ok d' ws') := by
  obtain ⟨scope, ws₁, hscope, hrests⟩ :=
    rests_openScope (ε := Refusal) "SCHEMA_COMMIT" [("dataset", held.definition.name)] ws
  have hlift : (Op.lift d.holding : Op Refusal Holding) ws = .ok held ws :=
    lift_eq_ok.2 ⟨holding_eq_ok.2 hheld, rfl⟩
  have hafter : after (commit d) ws =
      after (Op.attempt (Op.inTransaction (merge d.connection held d.live)) >>= _) ws₁ :=
    (after_bind_of_ok hlift).trans (after_bind_of_ok hscope)
  refine ⟨ws₁, hrests, ?_, fun ⟨⟨held', live⟩, ws₂, hrun⟩ => ?_⟩
  · rw [hafter]
    refine supply_later_attempt (fun r => ?_) ws₁
    cases r with
    | ok r =>
      exact (observes_note _ _ _).idles.bind fun _ => (idles_complete _ _).bind fun _ => idles_pure _
    | error e => exact ((observes_log _).bind fun _ => observes_throw _).idles
  · have hattempt : (Op.attempt (Op.inTransaction (merge d.connection held d.live)) :
        Op Refusal (Except Refusal _)) ws₁ = .ok (.ok (held', live)) ws₂ := by
      rw [attempt_eq, hrun]
    exact ⟨_, _, bind_eq_ok.2 ⟨held, ws, hlift, bind_eq_ok.2 ⟨scope, ws₁, hscope,
      bind_eq_ok.2 ⟨.ok (held', live), ws₂, hattempt, rfl⟩⟩⟩⟩

/-- A live schema that can be laid out is committed, if what is persisted is what the client last
saw and no class asks for a unique index. -/
theorem exists_commit (hs : ws.store.catalog.Stocked True d.connection l ws.supply)
    (hregisters : ws.store.catalog.Registers d.connection.definitions) (hplain : d.IsPlain)
    (hheld : d.standing.holding? = some held) (hh : d.Holds True l ws.supply base held)
    (hfollows : ∀ latest, d.connection.stored? ws.store.catalog held.definition.id = some latest →
      latest.Follows held.definition)
    (hseen : (readFrom d.connection (.byId held.definition.id) ws.store.catalog).map
      Dataset.live = .ok base)
    (hdefinable : d.live.IsDefinable d.connection.classes)
    (hf : (after (commit d) ws).supply.Fits d.connection.definitions) :
    ∃ d' ws', commit d ws = .ok d' ws' := by
  obtain ⟨ws₁, hrests, hlater, hcommit⟩ := commit_begins hheld ws
  have hvisible : ws₁.opened.visible = ws.store.catalog := congrArg Store.catalog hrests.store
  have hsupply : ws.supply.Later ws₁.opened.supply := hrests.supply
  have hbegun : ws₁.opened.Begun ws₁.store.catalog.version := ⟨_, rfl, rfl⟩
  refine hcommit (Proceeds.inTransaction (contained_merge _ _ _) ?_)
  exact proceeds_merge (hvisible ▸ hs.mono hsupply fun _ _ => rfl) (hvisible ▸ hregisters) hplain
    (hh.mono hsupply fun _ _ => rfl) (hvisible ▸ hfollows) (hvisible ▸ hseen) hdefinable
    (hf.of_later hlater) hbegun

/-- What is committed can be laid out. -/
theorem isDefinable_of_commit (hs : ws.store.catalog.Stocked True d.connection l ws.supply)
    (hr : d.connection.classes.Named) (hheld : d.standing.holding? = some held)
    (hh : d.Holds True l ws.supply base held)
    (hseen : (readFrom d.connection (.byId held.definition.id) ws.store.catalog).map
      Dataset.live = .ok base)
    (hf : ws'.supply.Fits d.connection.definitions) (hop : commit d ws = .ok d' ws') :
    d.live.IsDefinable d.connection.classes := by
  obtain ⟨l', held', -, hc, hstanding, hholds, hid, hmerges⟩ :=
    commit_merges hs hf hr rfl hheld hh hop
  have hdefinable : d'.live.IsDefinable d.connection.classes :=
    Layout.isDefinable_schema hr hholds.traced.ascending (hc ▸ hholds.seen)
  refine (Schema.isDefinable_congr fun path => ?_).1 hdefinable
  obtain ⟨seen, hread, hmerged⟩ := hmerges.merged
  rw [hid, hseen] at hread
  injection hread with hread
  rw [hmerged path, ← hread]
  split
  · rename_i h
    exact h.symm
  · rfl

/-! ## What an edit checks -/

theorem checkRegistered_ok {r : Registry} {path : String} {type : FieldType}
    (h : checkRegistered r path type = .ok ()) :
    ∀ name ∈ type.descriptor.nested?, r.contains name = true := by
  intro name hname
  obtain ⟨k, hk, -⟩ := map_eq_ok_iff.1 h
  rw [Descriptor.nestedClass, Option.mem_def.1 hname] at hk
  obtain ⟨k', hk', -⟩ := map_eq_ok_iff.1 hk
  exact Keyed.contains_iff.2 ⟨k', Registry.resolve_eq_ok.1 hk'⟩

theorem checkAllRegistered_ok {r : Registry} {es : List (String × Field)}
    (h : checkAllRegistered r es = .ok ()) :
    ∀ e ∈ es, ∀ t ∈ e.2.type, ∀ name ∈ t.descriptor.nested?, r.contains name = true := by
  induction es with
  | nil => nofun
  | cons e rest ih =>
    obtain ⟨path, field⟩ := e
    rw [checkAllRegistered] at h
    cases htype : field.type with
    | none =>
      rw [htype] at h
      exact List.forall_mem_cons.2 ⟨fun t ht => (by rw [htype] at ht; cases ht), ih h⟩
    | some type =>
      rw [htype] at h
      obtain ⟨⟨⟩, hhead, hrest⟩ := bind_eq_ok_iff.1 h
      refine List.forall_mem_cons.2 ⟨fun t ht => ?_, ih hrest⟩
      rw [Option.mem_def, htype] at ht
      injection ht with ht
      exact ht ▸ checkRegistered_ok hhead

/-- Adding a field brings in only types that end in registered classes. -/
theorem addField_endsRegistered {path : String} {type : FieldType}
    (h : d.live.EndsRegistered d.connection.classes) (hop : d.addField path type = .ok d') :
    d'.live.EndsRegistered d.connection.classes := by
  obtain ⟨⟨⟩, -, hop⟩ := bind_eq_ok_iff.1 hop
  obtain ⟨⟨⟩, hone, hop⟩ := bind_eq_ok_iff.1 hop
  obtain ⟨⟨⟩, hall, hop⟩ := bind_eq_ok_iff.1 hop
  injection hop with hop
  subst hop
  intro q t ht
  obtain ⟨f, hf, hft⟩ := Schema.typeAt_eq_ok.1 ht
  rcases get?_of_withField hf with ⟨rfl, rfl⟩ | hkept | ⟨-, hunfolded⟩
  · injection hft with hft
    exact hft ▸ checkRegistered_ok hone
  · exact h q t (Schema.typeAt_eq_ok.2 ⟨f, hkept, hft⟩)
  · exact checkAllRegistered_ok hall (q, f) (Keyed.mem_entries_iff.2 hunfolded) t hft

theorem removeField_endsRegistered {path : String}
    (h : d.live.EndsRegistered d.connection.classes) (hop : d.removeField path = .ok d') :
    d'.live.EndsRegistered d.connection.classes := by
  obtain ⟨⟨⟩, -, hop⟩ := bind_eq_ok_iff.1 hop
  split at hop
  · cases hop
  · injection hop with hop
    subst hop
    intro q t ht
    obtain ⟨f, hf, hft⟩ := Schema.typeAt_eq_ok.1 ht
    exact h q t (Schema.typeAt_eq_ok.2 ⟨f, get?_of_removed hf, hft⟩)

end Dataset
end SchemaKeeper
