import SchemaKeeper.Proofs.Dataset.Committable
import SchemaKeeper.Proofs.Dataset.Orderly
import SchemaKeeper.Proofs.Quoted

/-!
# Which datasets can be created

A creation lays its schema out over fresh collections, which are empty, so that even unique indexes
can be asked of them, and enters its definition under a fresh identifier.  It goes through if the
root is a document, all fields are typed, all classes in their types are registered and the name is
free: nothing else stops it.
-/
namespace SchemaKeeper

open Catalog Op Provision

/-- Where no collections are known all are named with identifiers that are drawn. -/
theorem Layout.fresh_of_define {ids : Nat → Uuid} {drawn n : Nat} {s : Schema}
    {ds : List FieldDefinition} (h : define ids .empty drawn s.entries = .ok (ds, n))
    {path name : String} (hname : (FieldDefinition.collections ds).get? path = some name) :
    ∃ k className, drawn ≤ k ∧ k < n ∧ name = collectionName className (ids k) := by
  obtain ⟨-, owner, hall⟩ := define_ok h
  obtain ⟨d, hd, -, hdn⟩ := (collections_get?_iff (describes_of_define h).ascending).1 hname
  obtain ⟨e, -, -, t, -, -, ⟨-, hc⟩ | ⟨c, name', -, hc, hk | ⟨-, k, hlo, hhi, hname', -⟩⟩⟩ :=
    exists_of_mem_right hall hd
  · rw [hdn] at hc
    cases hc
  · cases hk
  · rw [hdn] at hc
    injection hc with hc
    exact ⟨k, c.name, hlo, hhi, hc.trans hname'⟩

namespace Catalog
variable {definitions : String} {l : Ledger} {s s' : Supply} {catalog : Catalog}

/-- A collection that is named with an identifier that is still to be drawn is not there. -/
theorem Made.absent (h : catalog.Made definitions s) (hs : s.Later s') (hf : s'.Fits definitions)
    {k : Nat} (hk : s.drawn ≤ k) (hk' : k < s'.drawn) (className : String) :
    catalog.collections.contains (Layout.collectionName className (s.ids k)) = false := by
  refine Bool.eq_false_iff.2 fun hin => ?_
  rw [← hs.ids] at hin
  obtain hdef | ⟨j, className', hj, hname⟩ := h _ hin
  · exact hf.named k hk' className hdef
  · rw [← hs.ids] at hname
    have hjk := hf.distinct k j hk' (Nat.lt_of_lt_of_le hj hs.drawn)
      (Layout.collectionName_injective hname)
    omega

/-- What no document has is not found. -/
theorem findOne_eq_none {name field t : String}
    (h : ∀ key document, catalog.documentAt name key = some document →
      document.get? field ≠ some (.string t)) : catalog.findOne name field (.string t) = none := by
  refine Option.eq_none_iff_forall_ne_some.2 fun document hfound => ?_
  obtain ⟨state, key, hstate, hdoc⟩ := mem_of_findOne hfound
  exact h key document (Option.bind_eq_some_iff.2 ⟨state, hstate, hdoc⟩) (get?_of_findOne hfound)

theorem documents_of_absent {name : String} (h : catalog.collections.contains name = false) :
    catalog.documents name = .empty := by
  rw [Keyed.contains, Option.isSome_eq_false_iff, Option.isNone_iff_eq_none] at h
  rw [documents, h]

/-- Stored definitions have names of their own, which the index on names can tell apart. -/
theorem Orderly.not_hasDuplicate (h : catalog.Orderly definitions l s) {state : Collection}
    (hstate : catalog.collections.get? definitions = some state) :
    state.hasDuplicate Connection.nameIndex = false := by
  have hkey : ∀ d : Definition,
      Connection.nameIndex.keyOf? d.document = some [.string d.name] := fun d => by
    simp [Connection.nameIndex, Index.single, Index.keyOf?, d.get?_document_name]
  have hat : ∀ {key document}, (key, document) ∈ state.documents.entries →
      ∃ d : Definition, document = d.document ∧
        catalog.documentAt definitions key = some d.document := by
    intro key document hin
    have hdoc : catalog.documentAt definitions key = some document :=
      Option.bind_eq_some_iff.2 ⟨state, hstate, Keyed.mem_entries_iff.1 hin⟩
    obtain ⟨d, rfl, -⟩ := h.recorded key document hdoc
    exact ⟨d, rfl, hdoc⟩
  have hnodup : ((state.documents.values.filterMap Connection.nameIndex.keyOf?).map
      fun key => (Json.array key).compact).Nodup := by
    rw [List.Nodup, List.pairwise_map, List.pairwise_filterMap, Keyed.values, List.pairwise_map]
    refine state.documents.ordered.imp_of_mem ?_
    rintro ⟨key, document⟩ ⟨key', document'⟩ hin hin' hlt k hk k' hk' hsame
    obtain ⟨d, rfl, hd⟩ := hat hin
    obtain ⟨d', rfl, hd'⟩ := hat hin'
    rw [hkey] at hk hk'
    injection hk with hk
    injection hk' with hk'
    subst hk hk'
    have hname : d.name = d'.name := by
      refine Text.quoted_injective (String.toList_inj.1 ?_)
      simpa [Json.compact, Json.compactItems, Json.separated, ← String.toList_inj] using hsame
    refine Entries.key_ne_of_lt hlt (h.named _ _ _ _ hd hd' ?_)
    rw [d.get?_document_name, d'.get?_document_name, hname]
  simpa [Collection.hasDuplicate] using hnodup

/-- A definition is entered if neither its identifier nor its name is there. -/
theorem Registers.exists_insertOne (hr : catalog.Registers definitions) {d : Definition}
    (hc : catalog.collections.contains definitions = true)
    (hkey : catalog.documentAt definitions d.key = none)
    (hname : ∀ key other, catalog.documentAt definitions key = some other →
      other.get? "name" ≠ some (.string d.name)) :
    ∃ next, catalog.perform (.insertOne definitions d.document) = .ok (true, next) := by
  obtain ⟨state, hs⟩ := Keyed.contains_iff.1 hc
  have hat : ∀ key, catalog.documentAt definitions key = state.documents.get? key := fun key => by
    rw [documentAt, hs]
    rfl
  have haccept : state.accept definitions d.key d.document = .ok () :=
    (hr state hs).accept d.get?_document_name fun key other hother hsame =>
      absurd hsame (hname key other ((hat key).trans hother))
  have hid : documentId d.document = .ok d.key := documentId_eq_ok.2 d.get?_document_id
  have hfree : state.documents.contains d.key = false := by
    rw [Keyed.contains, ← hat, hkey]
    rfl
  simp only [Catalog.perform, hid, collection_eq_ok.2 hs, haccept, hfree, ok_bind, if_false,
    Bool.false_eq_true, pure_eq_ok, Except.ok.injEq, Prod.mk.injEq, true_and, exists_eq']

end Catalog

namespace Connection
variable {version : Nat} {c : Connection} {l : Ledger} {ws ws' : Workspace} {t : Transaction}

theorem proceeds_ensureDefinitions (hb : ws.Begun version)
    (h : ws.visible.Orderly c.definitions l ws.supply) :
    Proceeds version c.ensureDefinitions ws := by
  have hindex : ∀ ws₁ : Workspace, ws₁.Begun version → ∀ state,
      ws₁.visible.collections.get? c.definitions = some state →
      state.hasDuplicate nameIndex = false →
      Proceeds version
        (discard (Op.write (.createIndex c.definitions nameIndex)) : Op Refusal Unit) ws₁ := by
    intro ws₁ hb₁ state hs hfree
    obtain ⟨answer, next, hperform⟩ : ∃ answer next,
        ws₁.visible.perform (.createIndex c.definitions nameIndex) = .ok (answer, next) :=
      exists_createIndex (Keyed.contains_iff.2 ⟨state, hs⟩) fun _ state' hs' => by
        rw [hs] at hs'
        injection hs' with hs'
        exact hs' ▸ hfree
    exact proceeds_discard_write hb₁ hperform
  refine (observes_catalog.proceeds hb rfl).bind fun catalog ws₁ h₁ hb₁ => ?_
  obtain ⟨hcatalog, hrests⟩ := observes_catalog.ok h₁
  injection hcatalog with hcatalog
  subst hcatalog
  split
  · rename_i habsent
    have hperform : ws₁.visible.perform (.createCollection c.definitions) =
        .ok (true, ws₁.visible.setCollection c.definitions .empty) := by
      rw [hrests.visible, perform, if_neg (by simpa using habsent)]
    refine (proceeds_discard_write hb₁ hperform).bind fun _ ws₂ h₂ hb₂ => ?_
    obtain ⟨answer, ws₀, hw, hd⟩ := bind_eq_ok.1 h₂
    cases hd
    obtain ⟨t₁, ht₁, -⟩ := id hb₁
    obtain ⟨hwrite, -⟩ := write_ok ht₁ hw
    rw [hperform] at hwrite
    injection hwrite with hwrite
    injection hwrite with _ hvisible
    refine hindex ws₂ hb₂ .empty ?_ rfl
    rw [← hvisible, get?_setCollection, if_pos rfl]
  · rename_i hpresent
    obtain ⟨state, hs⟩ := Keyed.contains_iff.1
      (show ws.visible.collections.contains c.definitions = true by simpa using hpresent)
    exact hindex ws₁ hb₁ state (hrests.visible ▸ hs) (h.not_hasDuplicate hs)

theorem contains_of_ensureDefinitions (ht : ws.transaction = some t)
    (h : c.ensureDefinitions ws = .ok () ws') :
    ws'.visible.collections.contains c.definitions = true := by
  have hlast : ∀ {ws₁ : Workspace}, (∃ t₁, ws₁.transaction = some t₁) →
      (discard (Op.write (.createIndex c.definitions nameIndex)) : Op Refusal Unit) ws₁ =
        .ok () ws' → ws'.visible.collections.contains c.definitions = true := by
    rintro ws₁ ⟨t₁, ht₁⟩ h
    obtain ⟨answer, ws₂, hw, hd⟩ := bind_eq_ok.1 h
    cases hd
    obtain ⟨state, indexes, -, hcollections⟩ := createIndex_ok (write_ok ht₁ hw).1
    rw [hcollections, Keyed.contains, Keyed.get?_insert, if_pos rfl]
    rfl
  obtain ⟨catalog, ws₁, hc, h⟩ := bind_eq_ok.1 h
  have ht₁ := (observes_catalog.ok hc).2.transaction.trans ht
  split at h
  · obtain ⟨⟨⟩, ws₂, hw, h⟩ := bind_eq_ok.1 h
    obtain ⟨answer, ws₃, hw, hd⟩ := bind_eq_ok.1 hw
    cases hd
    exact hlast (write_ok ht₁ hw).2.1.transaction h
  · exact hlast ⟨t, ht₁⟩ h

end Connection

namespace Dataset
variable {version n : Nat} {c : Connection} {l : Ledger} {s : Supply} {schema : Schema}
  {ds : List FieldDefinition} {name : String} {mediaType : Option MediaType} {persistent : Bool}
  {ws ws' : Workspace} {d : Dataset} {t : Transaction} {k : DocClass}

/-- Fresh collections are apart from each other and from the one of the definitions. -/
theorem apart_of_fresh {definitions : String}
    (hf : ({ s with drawn := n } : Supply).Fits definitions)
    (hdefine : Layout.define s.ids .empty s.drawn schema.entries = .ok (ds, n)) :
    (FieldDefinition.collections ds).Apart ∧
      definitions ∉ (FieldDefinition.collections ds).values := by
  obtain ⟨l, -, ha⟩ := Layout.exists_ledger hdefine (fun k => (s.ids k, "")) (s.ids 0) nofun
  refine ⟨hf.apart ha, fun hin => ?_⟩
  obtain ⟨path, hp⟩ := Keyed.mem_values.1 hin
  exact hf.ne_definitions (ha path _ hp) rfl

/-- An identifier that is still to be drawn is that of no stored definition. -/
theorem documentAt_of_fresh {definitions : String} {catalog : Catalog} {s' : Supply} {i : Nat}
    (h : catalog.Orderly definitions l s) (hs : s.Later s') (hf : s'.Fits definitions)
    (hi : s.drawn ≤ i) (hi' : i < s'.drawn) :
    catalog.documentAt definitions (s'.ids i).text = none := by
  refine Option.eq_none_iff_forall_ne_some.2 fun document hdoc => ?_
  obtain ⟨d, rfl, hrecorded⟩ := h.recorded _ _ hdoc
  obtain ⟨j, hj, hid, -⟩ := hrecorded.titled
  have hsame : d.id = s'.ids i := Uuid.text_injective (h.key_eq hdoc)
  rw [hid, ← hs.ids] at hsame
  have hji := hf.distinct j i (Nat.lt_of_lt_of_le hj hs.drawn) hi' hsame
  omega

/-- A definition with a fresh identifier is entered after its collections have been laid out. -/
theorem proceeds_enter {before : Catalog} {id : Uuid} {now : Moment} {provision : Provision}
    (hb : ws.Begun version) (hc : before.collections.contains c.definitions = true)
    (hr : before.Registers c.definitions)
    (hlaid : LaidOut s.ids .empty schema s.drawn n before ws.visible provision)
    (hn : c.definitions ∉ provision.collections.values)
    (hkey : before.documentAt c.definitions id.text = none)
    (hfree : ∀ key document, before.documentAt c.definitions key = some document →
      document.get? "name" ≠ some (.string name)) :
    Proceeds version (discard (Op.write (.insertOne c.definitions (Definition.new id now name
      provision.definitions mediaType persistent c.settings.version).document)) :
        Op Refusal Unit) ws := by
  have hat : ∀ key, ws.visible.documentAt c.definitions key =
      before.documentAt c.definitions key := fun key => by
    rw [documentAt_eq, hlaid.outfits.documents, ← documentAt_eq]
  have hcontains : ws.visible.collections.contains c.definitions = true := by
    rwa [Keyed.contains, hlaid.outfits.frame _ hn]
  obtain ⟨next, hperform⟩ := (hlaid.registers hn hr).exists_insertOne
    (d := Definition.new id now name provision.definitions mediaType persistent c.settings.version)
    hcontains ((hat _).trans hkey) fun key other hother =>
      hfree key other ((hat key).symm.trans hother)
  exact proceeds_discard_write hb hperform

/-- A schema that can be laid out is laid out where its collections are not there yet. -/
theorem proceeds_make_fresh {definitions : String} (hb : ws.Begun version)
    (hm : ws.visible.Made definitions ws.supply) (hdefinable : schema.IsDefinable c.classes)
    (hfresh : ∀ ds n, Layout.define ws.supply.ids .empty ws.supply.drawn schema.entries =
      .ok (ds, n) → ({ ws.supply with drawn := n } : Supply).Fits definitions) :
    Proceeds version (make schema .empty) ws := by
  refine proceeds_make hdefinable hb fun ds n hdefine =>
    ⟨(apart_of_fresh (hfresh ds n hdefine) hdefine).1, fun e he => .inr ?_⟩
  obtain ⟨i, className, hi, hi', hname⟩ :=
    Layout.fresh_of_define hdefine (Keyed.mem_entries_iff.1 he)
  have hlater : ws.supply.Later { ws.supply with drawn := n } :=
    ⟨rfl, rfl, Nat.le_of_lt (Nat.lt_of_le_of_lt hi hi'), Nat.le_refl _⟩
  rw [hname]
  exact documents_of_absent (hm.absent hlater (hfresh ds n hdefine) hi hi' className)

theorem proceeds_build (hb : ws.Begun version)
    (h : ws.visible.Orderly c.definitions l ws.supply)
    (hroot : schema.typeAt "" = .ok (.document k)) (hdefinable : schema.IsDefinable c.classes)
    (hfree : ∀ key document, ws.visible.documentAt c.definitions key = some document →
      document.get? "name" ≠ some (.string name))
    (hf : (after (build c name schema mediaType persistent) ws).supply.Fits c.definitions) :
    Proceeds version (build c name schema mediaType persistent) ws := by
  obtain ⟨t, ht, -⟩ := id hb
  -- The collection of the definitions is there, and no definition has the name.
  refine (Connection.proceeds_ensureDefinitions hb h).bind fun _ ws₁ h₁ hb₁ => ?_
  have hreach₁ := Connection.ensureDefinitions_ok ht h₁
  have hcontains := Connection.contains_of_ensureDefinitions ht h₁
  have hregisters := Connection.ensureDefinitions_registers ht h₁ h.registers
  have hat : ∀ key, ws₁.visible.documentAt c.definitions key =
      ws.visible.documentAt c.definitions key := fun key => by
    rw [documentAt_eq, hreach₁.outfits.documents, ← documentAt_eq]
  have hnone : ws₁.visible.findOne c.definitions "name" (.string name) = none :=
    findOne_eq_none fun key document hdoc => hfree key document ((hat key).symm.trans hdoc)
  refine ((c.observes_hasDataset name).proceeds hb₁ rfl).bind fun found ws₂ h₂ hb₂ => ?_
  obtain ⟨hfound, hrests₂⟩ := (c.observes_hasDataset name).ok h₂
  rw [hnone] at hfound
  injection hfound with hfound
  subst hfound
  show Proceeds version (make schema .empty >>= _) ws₂
  have hafter : after (build c name schema mediaType persistent) ws =
      after (make schema .empty >>= _) ws₂ :=
    (after_bind_of_ok h₁).trans (after_bind_of_ok h₂)
  rw [hafter] at hf
  -- The schema is laid out over collections that are not there yet.
  obtain ⟨t₂, ht₂, -⟩ := id hb₂
  have hlater₂ : ws.supply.Later ws₂.supply := hreach₁.stays.supply.trans hrests₂.supply
  have hmade₂ : ws₂.visible.Made c.definitions ws₂.supply := by
    have hmade := (h.mono hlater₂ fun _ _ => rfl).made
    exact hrests₂.visible ▸ hreach₁.outfits.made hmade fun q hq => .inl hq
  have hfresh : ∀ ds n, Layout.define ws₂.supply.ids .empty ws₂.supply.drawn schema.entries =
      .ok (ds, n) → ({ ws₂.supply with drawn := n } : Supply).Fits c.definitions := by
    intro ds n hdefine
    refine hf.of_later (later_of_define ht₂ hdefine fun p => ?_)
    exact (observes_recover _ _ _).contained.bind fun _ => contained_freshId.bind fun _ =>
      contained_now.bind fun _ => ((contained_write _).bind fun _ => contained_pure ()).bind
        fun _ => contained_pure _
  refine (proceeds_make_fresh hb₂ hmade₂ hdefinable hfresh).bind fun provision ws₃ h₃ hb₃ => ?_
  obtain ⟨hstays₃, hlaid⟩ := make_ok ht₂ h₃
  obtain ⟨n, hdefine, -⟩ := id hlaid.define
  obtain ⟨hapart, hn⟩ := apart_of_fresh (hfresh _ _ hdefine) hdefine
  obtain ⟨live, hlive⟩ := Layout.exists_schema hdefinable hlaid.describes hapart hroot
    (Layout.validators_speak hlaid.validators)
  refine ((observes_recover _ _ _).proceeds hb₃ hlive).bind fun live' ws₄ h₄ hb₄ => ?_
  have hrests₄ := ((observes_recover _ _ _).ok h₄).2
  -- The definition is entered under an identifier that is drawn for it.
  have hdraws : Proceeds version (freshId : Op Refusal Uuid) ws₄ := ⟨_, _, rfl, hb₄⟩
  refine hdraws.bind fun i ws₅ h₅ hb₅ => ?_
  obtain ⟨hid, hdrawn, hrests₅⟩ := freshId_ok h₅
  have hreads : Proceeds version (Op.now : Op Refusal Moment) ws₅ := ⟨_, _, rfl, hb₅⟩
  refine hreads.bind fun now ws₆ h₆ hb₆ => ?_
  have hrests₆ := (now_ok h₆).2.2
  obtain ⟨t₅, ht₅, -⟩ := id hb₅
  have hf₅ : ws₅.supply.Fits c.definitions := by
    refine hf.of_later ?_
    rw [after_bind_of_ok h₃, after_bind_of_ok h₄, after_bind_of_ok h₅]
    refine (Contained.bind contained_now (fun now => ?_) ws₅ t₅ ht₅).supply
    exact ((contained_write _).bind fun _ => contained_pure ()).bind fun _ => contained_pure _
  have hlater₅ : ws.supply.Later ws₅.supply :=
    ((hlater₂.trans hstays₃.supply).trans hrests₄.supply).trans hrests₅.supply
  have hkey := documentAt_of_fresh h hlater₅ hf₅
    ((hlater₂.trans hstays₃.supply).trans hrests₄.supply).drawn (by omega : _ < ws₅.supply.drawn)
  rw [hrests₅.supply.ids, ← hid, ← hat, ← hrests₂.visible] at hkey
  rw [← hrests₆.visible.trans (hrests₅.visible.trans hrests₄.visible)] at hlaid
  exact (proceeds_enter hb₆ (hrests₂.visible ▸ hcontains) (hrests₂.visible ▸ hregisters) hlaid hn
    hkey fun key document hdoc => hfree key document (by rw [← hat, ← hrests₂.visible, hdoc])).bind
      fun _ _ _ hb₇ => proceeds_pure hb₇ _

/-- A creation does its work in a transaction, and succeeds if that does. -/
theorem createFrom_begins (mediaType : Option MediaType) (persistent : Bool)
    (hroot : rootClass schema = .ok k)
    (hfree : ws.visible.findOne c.definitions "name" (.string name) = none) :
    ∃ ws₁, ws.Rests ws₁ ∧
      (after (build c name schema mediaType persistent) ws₁.opened).supply.Later
        (after (createFrom c name schema mediaType persistent) ws).supply ∧
      ((∃ d ws₂, Op.inTransaction (build c name schema mediaType persistent) ws₁ = .ok d ws₂) →
        ∃ d ws', createFrom c name schema mediaType persistent ws = .ok d ws') := by
  have hlift : (discard (Op.lift (rootClass schema)) : Op Refusal Unit) ws = .ok () ws :=
    bind_eq_ok.2 ⟨k, ws, lift_eq_ok.2 ⟨hroot, rfl⟩, rfl⟩
  obtain ⟨ws₁, hhas⟩ : ∃ ws₁, c.hasDataset name ws =
      .ok (ws.visible.findOne c.definitions "name" (.string name)).isSome ws₁ :=
    (c.observes_hasDataset name).of_ok rfl
  have hrests₁ := ((c.observes_hasDataset name).ok hhas).2
  rw [hfree] at hhas
  obtain ⟨scope, ws₂, hscope, hrests₂⟩ :=
    rests_openScope (ε := Refusal) "DATASET_CREATE" [("dataset", name)] ws₁
  have hafter : after (createFrom c name schema mediaType persistent) ws =
      after (Op.attempt (Op.inTransaction (build c name schema mediaType persistent)) >>= _) ws₂ :=
    (after_bind_of_ok hlift).trans ((after_bind_of_ok hhas).trans (after_bind_of_ok hscope))
  refine ⟨ws₂, hrests₁.trans hrests₂, ?_, fun ⟨d, ws₃, hrun⟩ => ?_⟩
  · rw [hafter]
    refine supply_later_attempt (fun r => ?_) ws₂
    cases r with
    | ok d =>
      exact (idles_complete _ _).bind fun _ =>
        (observes_note _ _ _).idles.bind fun _ => idles_pure _
    | error e => exact ((observes_log _).bind fun _ => observes_throw _).idles
  · have hattempt : (Op.attempt (Op.inTransaction (build c name schema mediaType persistent)) :
        Op Refusal (Except Refusal _)) ws₂ = .ok (.ok d) ws₃ := by
      rw [attempt_eq, hrun]
    exact ⟨_, _, bind_eq_ok.2 ⟨(), ws, hlift, bind_eq_ok.2 ⟨false, ws₁, hhas, bind_eq_ok.2
      ⟨scope, ws₂, hscope, bind_eq_ok.2 ⟨.ok d, ws₃, hattempt, rfl⟩⟩⟩⟩⟩

/-- Identifiers that were drawn before a creation stay drawn. -/
theorem createFrom_later (mediaType : Option MediaType) (persistent : Bool)
    (ht : ws.transaction = none) :
    ws.supply.Later (after (createFrom c name schema mediaType persistent) ws).supply := by
  cases hop : createFrom c name schema mediaType persistent ws with
  | ok d ws' =>
    obtain ⟨-, _, _, hran⟩ := createFrom_ok hop
    exact after_of_ok hop ▸ hran.supply_later
  | error e ws' => exact after_of_error hop ▸ (createFrom_error ht hop).supply

/-- A schema of documents that can be laid out makes a dataset, under a name that is free. -/
theorem exists_createFrom (ht : ws.transaction = none)
    (h : ws.store.catalog.Orderly c.definitions l ws.supply)
    (hroot : schema.typeAt "" = .ok (.document k)) (hdefinable : schema.IsDefinable c.classes)
    (hfree : ∀ key document, ws.store.catalog.documentAt c.definitions key = some document →
      document.get? "name" ≠ some (.string name))
    (hf : (after (createFrom c name schema mediaType persistent) ws).supply.Fits c.definitions) :
    ∃ d ws', createFrom c name schema mediaType persistent ws = .ok d ws' := by
  have hnone : ws.visible.findOne c.definitions "name" (.string name) = none := by
    rw [Workspace.visible_of_closed ht]
    exact findOne_eq_none hfree
  obtain ⟨ws₁, hrests, hlater, hcreate⟩ :=
    createFrom_begins mediaType persistent (rootClass_eq_ok.2 hroot) hnone
  have hvisible : ws₁.opened.visible = ws.store.catalog := congrArg Store.catalog hrests.store
  have hsupply : ws.supply.Later ws₁.opened.supply := hrests.supply
  have hbegun : ws₁.opened.Begun ws₁.store.catalog.version := ⟨_, rfl, rfl⟩
  refine hcreate (Proceeds.inTransaction (contained_build _ _ _ _ _) ?_)
  exact proceeds_build hbegun (hvisible ▸ h.mono hsupply fun _ _ => rfl) hroot hdefinable
    (hvisible ▸ hfree) (hf.of_later hlater)

/-- What is created has the paths and the types of its schema, its fields named by their paths; and
this schema is one of documents that can be laid out, under a name that was free. -/
theorem createFrom_mirrors (hr : c.classes.Named) (hf : ws'.supply.Fits c.definitions)
    (hop : createFrom c name schema mediaType persistent ws = .ok d ws') :
    (∃ k, schema.typeAt "" = .ok (.document k)) ∧
      (∀ key document, ws.store.catalog.documentAt c.definitions key = some document →
        document.get? "name" ≠ some (.string name)) ∧
      schema.IsDefinable c.classes ∧
      ∀ path, (d.live.get? path).map (fun f => (f.name, f.type.map FieldType.descriptor)) =
        (schema.get? path).map fun f => (Path.leaf path, f.type.map FieldType.descriptor) := by
  obtain ⟨⟨k, hroot⟩, ws₁, ws₂, hran⟩ := createFrom_ok hop
  have hroot := rootClass_eq_ok.1 hroot
  obtain ⟨ws₃, ws₄, provision, definition, i, j, hreach, hfree, hlaid, hi, hi', -, -, hlive, -, -,
    -⟩ := build_ok rfl hran.work
  have hids : ws₁.opened.supply.ids = ws'.supply.ids := by
    rw [hran.supply_later.ids]
    exact hran.start.supply.ids
  rw [hids] at hlaid
  obtain ⟨l, -, ha⟩ :=
    hlaid.exists_ledger (fun k => (ws'.supply.ids k, "")) (ws'.supply.ids 0) nofun
  have hdrawn : ws₄.supply.drawn ≤ ws'.supply.drawn :=
    Nat.le_trans (Nat.le_of_lt (Nat.lt_of_le_of_lt hi hi')) hran.supply.drawn
  have hapart : provision.collections.Apart :=
    hf.apart fun path name hp => (ha path name hp).mono hdrawn fun _ _ => rfl
  have hschema : Layout.schema provision.definitions .empty c.classes = .ok d.live := by
    rw [← Layout.schema_of_speak hlaid.describes hapart hroot
      (Layout.validators_speak hlaid.validators)]
    exact hlive
  refine ⟨⟨k, hroot⟩, fun key document hdoc => ?_, ?_,
    Layout.get?_schema hr hlaid.describes hschema⟩
  · have hat : ws₃.visible.documentAt c.definitions key = some document := by
      rw [documentAt_eq, hreach.outfits.documents, ← documentAt_eq, hran.visible]
      exact hdoc
    exact ne_of_findOne_eq_none hfree hat
  · exact (Schema.isDefinable_congr (Layout.entry_schema hr hlaid.describes hschema)).1
      (Layout.isDefinable_schema hr hlaid.describes.ascending hschema)

end Dataset
end SchemaKeeper
