import SchemaKeeper.Dataset.Lifecycle
import SchemaKeeper.Proofs.Dataset.Definition
import SchemaKeeper.Proofs.Dataset.Provision

/-!
# What the operations on datasets do

For each operation one lemma says what its success means: what was read from the catalog, what
was written to it, and what the client holds afterwards.
-/
namespace SchemaKeeper

open Catalog Op Provision

namespace Connection

theorem observes_find? (c : Connection) (field text : String) :
    Observes (c.find? field text) fun catalog =>
      .ok (catalog.findOne c.definitions field (.string text)) :=
  observes_catalog.bind fun catalog =>
    observes_pure (catalog.findOne c.definitions field (.string text))

theorem observes_hasDataset (c : Connection) (name : String) :
    Observes (c.hasDataset name) fun catalog =>
      .ok (catalog.findOne c.definitions "name" (.string name)).isSome :=
  (c.observes_find? "name" name).bind fun found => observes_pure found.isSome

theorem contained_ensureDefinitions (c : Connection) : Contained c.ensureDefinitions := by
  have hindex : Contained (discard (Op.write (.createIndex c.definitions nameIndex)) :
      Op Refusal Unit) := (contained_write _).bind fun _ => contained_pure ()
  refine observes_catalog.contained.bind fun catalog => ?_
  split
  · exact ((contained_write _).bind fun _ => contained_pure ()).bind fun _ => hindex
  · exact hindex

variable {ws ws' : Workspace} {t : Transaction}

theorem ensureDefinitions_ok {c : Connection} (ht : ws.transaction = some t)
    (h : c.ensureDefinitions ws = .ok () ws') : Reaches (· = c.definitions) ws ws' := by
  obtain ⟨catalog, ws₁, hc, h⟩ := bind_eq_ok.1 h
  have h₁ : Reaches (· = c.definitions) ws ws₁ := reaches_of_rests (observes_catalog.ok hc).2 ht
  obtain ⟨t₁, ht₁⟩ := h₁.stays.transaction
  have hlast : ∀ {ws₂ : Workspace} {t₂}, ws₂.transaction = some t₂ →
      (discard (Op.write (.createIndex c.definitions nameIndex)) : Op Refusal Unit) ws₂ =
        .ok () ws' → Reaches (· = c.definitions) ws₂ ws' := by
    intro ws₂ t₂ ht₂ h
    obtain ⟨answer, ws₃, hw, hd⟩ := bind_eq_ok.1 h
    cases hd
    exact createIndex_reaches ht₂ hw
  split at h
  · obtain ⟨⟨⟩, ws₂, hw, h⟩ := bind_eq_ok.1 h
    obtain ⟨answer, ws₃, hw, hd⟩ := bind_eq_ok.1 hw
    cases hd
    have h₂ := (createCollection_reaches ht₁ hw).1
    obtain ⟨t₂, ht₂⟩ := h₂.stays.transaction
    exact (h₁.trans h₂).trans (hlast ht₂ h)
  · exact h₁.trans (hlast ht₁ h)

end Connection

namespace Dataset
variable {c : Connection} {ws ws' : Workspace} {t : Transaction}

/-! ## Reading -/

/-- The dataset that a stored definition describes over a catalog. -/
def ofDefinition (c : Connection) (catalog : Catalog) (definition : Definition) :
    Except Refusal Dataset := do
  let validators := loadedValidators catalog definition.collections
  let live ← Layout.schema definition.fields validators c.classes
  return ⟨c, .attached ⟨definition, validators⟩, live⟩

/-- The dataset that is found in a catalog under a key. -/
def readFrom (c : Connection) (key : DatasetKey) (catalog : Catalog) : Except Refusal Dataset :=
  match catalog.findOne c.definitions key.field (.string key.text) with
  | none => .error (.datasetNotFound key.text)
  | some document => do
    let definition ← Definition.ofDocument document
    ofDefinition c catalog definition

theorem observes_ofDefinition (c : Connection) (definition : Definition) :
    Observes (do
      let validators := loadedValidators (← Op.catalog) definition.collections
      let live ← Provision.recover definition.fields validators c.classes
      return (⟨c, .attached ⟨definition, validators⟩, live⟩ : Dataset))
      fun catalog => ofDefinition c catalog definition :=
  observes_catalog.bind fun _ => (observes_recover _ _ _).bind fun _ => observes_pure _

/-- A dataset is read from the catalog alone. -/
theorem observes_read (c : Connection) (key : DatasetKey) :
    Observes (read c key) (readFrom c key) := by
  have hfound : ∀ found : Option Json, Observes (match found with
      | none => throw (.datasetNotFound key.text)
      | some document => do
        let definition ← Op.lift (Definition.ofDocument document)
        let validators := loadedValidators (← Op.catalog) definition.collections
        let live ← Provision.recover definition.fields validators c.classes
        return (⟨c, .attached ⟨definition, validators⟩, live⟩ : Dataset))
      fun catalog => match found with
        | none => .error (.datasetNotFound key.text)
        | some document => Definition.ofDocument document >>= ofDefinition c catalog := by
    intro found
    cases found with
    | none => exact observes_throw _
    | some document => exact (observes_lift _).bind fun definition => observes_ofDefinition c _
  exact (c.observes_find? key.field key.text).bind hfound

theorem readFrom_ok {key : DatasetKey} {catalog : Catalog} {d : Dataset}
    (h : readFrom c key catalog = .ok d) :
    ∃ document definition live,
      catalog.findOne c.definitions key.field (.string key.text) = some document ∧
      Definition.ofDocument document = .ok definition ∧
      Layout.schema definition.fields (loadedValidators catalog definition.collections) c.classes =
        .ok live ∧
      d = ⟨c, .attached ⟨definition, loadedValidators catalog definition.collections⟩, live⟩ := by
  unfold readFrom at h
  split at h
  · cases h
  · rename_i document hfound
    obtain ⟨definition, hdef, h⟩ := bind_eq_ok_iff.1 h
    obtain ⟨live, hlive, h⟩ := bind_eq_ok_iff.1 h
    injection h with h
    exact ⟨document, definition, live, hfound, hdef, hlive, h.symm⟩

/-! ## Creation -/

/-- How a creation went: it found no dataset of the name, made what the schema asks for without
known collections and stored a definition with a fresh identifier. -/
theorem build_made {name : String} {s : Schema} {mediaType : Option MediaType} {persistent : Bool}
    {d : Dataset} (ht : ws.transaction = some t)
    (h : build c name s mediaType persistent ws = .ok d ws') :
    ∃ (ws₁ ws₂ : Workspace) (provision : Provision) (definition : Definition) (k l : Nat),
      Reaches (· = c.definitions) ws ws₁ ∧
      ws₁.visible.findOne c.definitions "name" (.string name) = none ∧
      make s .empty ws₁ = .ok provision ws₂ ∧
      ws₂.supply.drawn ≤ k ∧ k < ws'.supply.drawn ∧ l < ws'.supply.read ∧
      definition = .new (ws.supply.ids k) (ws.supply.clock l) name provision.definitions mediaType
        persistent c.settings.version ∧
      Layout.schema provision.definitions provision.validators c.classes = .ok d.live ∧
      d.connection = c ∧ d.standing = .attached ⟨definition, provision.validators⟩ ∧
      ∃ answer, ws₂.visible.perform (.insertOne c.definitions definition.document) =
        .ok (answer, ws'.visible) := by
  obtain ⟨⟨⟩, ws₁, he, h₁⟩ := bind_eq_ok.1 h
  have hr₁ := Connection.ensureDefinitions_ok ht he
  obtain ⟨found, ws₂, hf, h₂⟩ := bind_eq_ok.1 h₁
  obtain ⟨hfound, hr₂⟩ := (c.observes_hasDataset name).ok hf
  split at h₂
  · cases h₂
  · rename_i hnone
    have hr₃ : Reaches (· = c.definitions) ws ws₂ :=
      hr₁.trans (reaches_of_rests hr₂ hr₁.stays.transaction.choose_spec)
    obtain ⟨t₂, ht₂⟩ := hr₃.stays.transaction
    obtain ⟨provision, ws₃, hm, h₃⟩ := bind_eq_ok.1 h₂
    obtain ⟨hs₃, -⟩ := make_ok ht₂ hm
    obtain ⟨live, ws₄, hl, h₄⟩ := bind_eq_ok.1 h₃
    obtain ⟨hlive, hr₄⟩ := (observes_recover _ _ _).ok hl
    obtain ⟨id, ws₅, hi, h₅⟩ := bind_eq_ok.1 h₄
    obtain ⟨now, ws₆, hn, h₆⟩ := bind_eq_ok.1 h₅
    obtain ⟨⟨⟩, ws₇, hw, h₇⟩ := bind_eq_ok.1 h₆
    obtain ⟨answer, ws₈, hw, hd⟩ := bind_eq_ok.1 hw
    cases hd
    cases h₇
    obtain ⟨hid, hdrawn, hr₅⟩ := freshId_ok hi
    obtain ⟨hnow, hread, hr₆⟩ := now_ok hn
    obtain ⟨t₃, ht₃⟩ := hs₃.transaction
    have hr := hr₄.trans (hr₅.trans hr₆)
    obtain ⟨hwrite, -, hsupply⟩ := write_ok (hr.transaction.trans ht₃) hw
    have hsource : ws.supply.Later ws₄.supply :=
      hr₃.stays.supply.trans (hs₃.supply.trans hr₄.supply)
    refine ⟨ws₂, ws₃, provision, _, ws₄.supply.drawn, ws₅.supply.read, hr₃, ?_, hm,
      hr₄.supply.drawn, ?_, ?_, rfl, hlive, rfl, ?_, answer, ?_⟩
    · rw [hr₂.visible]
      injection hfound with hfound
      simpa [← hfound] using hnone
    · rw [hsupply]
      exact Nat.lt_of_lt_of_le (by omega) hr₆.supply.drawn
    · rw [hsupply]
      omega
    · rw [hid, hnow, hsource.ids, (hsource.trans hr₅.supply).clock]
    · rw [← hsource.ids, ← (hsource.trans hr₅.supply).clock, ← hid, ← hnow, ← hr.visible]
      exact hwrite

/-- What a creation did: it found no dataset of the name, laid the schema out without known
collections and stored a definition with a fresh identifier. -/
theorem build_ok {name : String} {s : Schema} {mediaType : Option MediaType} {persistent : Bool}
    {d : Dataset} (ht : ws.transaction = some t)
    (h : build c name s mediaType persistent ws = .ok d ws') :
    ∃ (ws₁ ws₂ : Workspace) (provision : Provision) (definition : Definition) (k l : Nat),
      Reaches (· = c.definitions) ws ws₁ ∧
      ws₁.visible.findOne c.definitions "name" (.string name) = none ∧
      LaidOut ws.supply.ids .empty s ws₁.supply.drawn ws₂.supply.drawn ws₁.visible ws₂.visible
        provision ∧
      ws₂.supply.drawn ≤ k ∧ k < ws'.supply.drawn ∧ l < ws'.supply.read ∧
      definition = .new (ws.supply.ids k) (ws.supply.clock l) name provision.definitions mediaType
        persistent c.settings.version ∧
      Layout.schema provision.definitions provision.validators c.classes = .ok d.live ∧
      d.connection = c ∧ d.standing = .attached ⟨definition, provision.validators⟩ ∧
      ∃ answer, ws₂.visible.perform (.insertOne c.definitions definition.document) =
        .ok (answer, ws'.visible) := by
  obtain ⟨ws₁, ws₂, provision, definition, k, l, hreach, hnone, hmake, hrest⟩ := build_made ht h
  obtain ⟨t₁, ht₁⟩ := hreach.stays.transaction
  have hlaid := (make_ok ht₁ hmake).2
  rw [hreach.stays.supply.ids] at hlaid
  exact ⟨ws₁, ws₂, provision, definition, k, l, hreach, hnone, hlaid, hrest⟩

theorem contained_build (c : Connection) (name : String) (s : Schema)
    (mediaType : Option MediaType) (persistent : Bool) :
    Contained (build c name s mediaType persistent) := by
  refine c.contained_ensureDefinitions.bind fun _ =>
    (c.observes_hasDataset name).contained.bind fun found => ?_
  split
  · exact contained_throw _
  · exact (contained_make s .empty).bind fun _ => (observes_recover _ _ _).contained.bind fun _ =>
      contained_freshId.bind fun _ => contained_now.bind fun _ =>
        ((contained_write _).bind fun _ => contained_pure ()).bind fun _ => contained_pure _

/-! ## Commits -/

/-- The definition that a commit stores: the fields of the provision, and as retired all names
that the dataset had and does not use any more. -/
def committed (h : Holding) (latest : Definition) (provision : Provision) : Definition :=
  ({ h.definition with retired := latest.retired }.retire
    (h.definition.collections.union latest.collections).values provision.collections).setFields
    provision.definitions

/-- How a commit went: it replayed the edits since the schema that the client last saw onto the
schema that it read, made what the result asks for over the known collections, and replaced the
stored definition. -/
theorem merge_made {h h' : Holding} {edited live : Schema} (ht : ws.transaction = some t)
    (hop : merge c h edited ws = .ok (h', live) ws') :
    ∃ (ws₁ ws₂ : Workspace) (latest : Definition) (seen base : Schema) (v : Validators)
      (provision : Provision),
      readFrom c (.byId h.definition.id) ws.visible = .ok ⟨c, .attached ⟨latest, v⟩, seen⟩ ∧
      Layout.schema h.definition.fields h.validators c.classes = .ok base ∧ ws.Rests ws₁ ∧
      make ((Delta.between base edited).apply seen)
        (h.definition.collections.union latest.collections) ws₁ = .ok provision ws₂ ∧
      Layout.schema provision.definitions provision.validators c.classes = .ok live ∧
      h' = ⟨committed h latest provision, provision.validators⟩ ∧
      ws₂.supply.drawn ≤ ws'.supply.drawn ∧
      ws₂.visible.perform (.replaceOne c.definitions h'.definition.key h'.definition.document
        false) = .ok (true, ws'.visible) := by
  obtain ⟨read, ws₁, hread, h₁⟩ := bind_eq_ok.1 hop
  obtain ⟨hfrom, hr₁⟩ := (observes_read c _).ok hread
  obtain ⟨document, latest, seen, -, -, -, rfl⟩ := readFrom_ok hfrom
  obtain ⟨base, ws₂, hbase, h₂⟩ := bind_eq_ok.1 h₁
  obtain ⟨hbase, hr₂⟩ := (observes_recover _ _ _).ok hbase
  obtain ⟨⟨⟩, ws₃, hnote, h₃⟩ := bind_eq_ok.1 h₂
  have hr₃ := ((observes_note _ _ _).ok hnote).2
  have hr := (hr₁.trans hr₂).trans hr₃
  obtain ⟨provision, ws₄, hmake, h₄⟩ := bind_eq_ok.1 h₃
  obtain ⟨hs₄, -⟩ := make_ok (hr.transaction.trans ht) hmake
  obtain ⟨live', ws₅, hlive, h₅⟩ := bind_eq_ok.1 h₄
  obtain ⟨hlive, hr₅⟩ := (observes_recover _ _ _).ok hlive
  obtain ⟨answer, ws₆, hwrite, h₆⟩ := bind_eq_ok.1 h₅
  obtain ⟨t₄, ht₄⟩ := hs₄.transaction
  obtain ⟨hperform, -, hsupply⟩ := write_ok (hr₅.transaction.trans ht₄) hwrite
  split at h₆
  · cases h₆
  · rename_i hanswer
    cases h₆
    rw [hr₅.visible] at hperform
    refine ⟨ws₃, ws₄, latest, seen, base, _, provision, hfrom, hbase, hr, hmake, hlive, rfl, ?_, ?_⟩
    · rw [hsupply]
      exact hr₅.supply.drawn
    · have htrue : answer = true := by simpa using hanswer
      exact htrue ▸ hperform

/-- What a commit did: it replayed the edits since the schema that the client last saw onto the
schema that it read, laid the result out over the known collections, and replaced the stored
definition. -/
theorem merge_ok {h h' : Holding} {edited live : Schema} (ht : ws.transaction = some t)
    (hop : merge c h edited ws = .ok (h', live) ws') :
    ∃ (ws₁ ws₂ : Workspace) (latest : Definition) (seen base : Schema) (v : Validators)
      (provision : Provision),
      readFrom c (.byId h.definition.id) ws.visible = .ok ⟨c, .attached ⟨latest, v⟩, seen⟩ ∧
      Layout.schema h.definition.fields h.validators c.classes = .ok base ∧ ws.Rests ws₁ ∧
      LaidOut ws.supply.ids (h.definition.collections.union latest.collections)
        ((Delta.between base edited).apply seen) ws₁.supply.drawn ws₂.supply.drawn ws.visible
        ws₂.visible provision ∧
      Layout.schema provision.definitions provision.validators c.classes = .ok live ∧
      h' = ⟨committed h latest provision, provision.validators⟩ ∧
      ws₂.supply.drawn ≤ ws'.supply.drawn ∧
      ws₂.visible.perform (.replaceOne c.definitions h'.definition.key h'.definition.document
        false) = .ok (true, ws'.visible) := by
  obtain ⟨ws₁, ws₂, latest, seen, base, v, provision, hread, hbase, hrests, hmake, hrest⟩ :=
    merge_made ht hop
  have hlaid := (make_ok (hrests.transaction.trans ht) hmake).2
  rw [hrests.supply.ids, hrests.visible] at hlaid
  exact ⟨ws₁, ws₂, latest, seen, base, v, provision, hread, hbase, hrests, hlaid, hrest⟩

theorem contained_merge (c : Connection) (h : Holding) (edited : Schema) :
    Contained (merge c h edited) := by
  refine (observes_read c _).contained.bind fun latest =>
    (observes_recover _ _ _).contained.bind fun base => (contained_note _ _ _).bind fun _ =>
      (contained_make _ _).bind fun provision => (observes_recover _ _ _).contained.bind fun _ =>
        (contained_write _).bind fun answer => ?_
  split
  · exact contained_throw _
  · exact contained_pure _

/-! ## Deletion -/

/-- The names that a deletion drops: those that the client's own definition uses, and those that
are retired in the stored definition, or in its own where there is no stored one. -/
def dropped (definition : Definition) (stored : Option Definition) : List String :=
  definition.collections.values ++ (stored.getD definition).retired

/-- The stored definition that a deletion finds. -/
def storedFrom (c : Connection) (key : String) (catalog : Catalog) :
    Except Refusal (Option Definition) :=
  match catalog.findOne c.definitions "_id" (.string key) with
  | none => .ok none
  | some document => (Definition.ofDocument document).map some

/-- From one catalog to another certain collections are gone, and nothing else changed. -/
def Drops (names : List String) (c c' : Catalog) : Prop :=
  ∀ q, c'.collections.get? q = if q ∈ names then none else c.collections.get? q

theorem Drops.append {a b : List String} {c₁ c₂ c₃ : Catalog} (h : Drops a c₁ c₂)
    (h' : Drops b c₂ c₃) : Drops (a ++ b) c₁ c₃ := by
  intro q
  rw [h' q, h q]
  by_cases ha : q ∈ a <;> by_cases hb : q ∈ b <;> simp [ha, hb]

/-- One collection is dropped, which may be noted, before the rest. -/
theorem drop_ok {name : String} {fields : List (String × String)} {rest : Op Refusal Unit}
    (ht : ws.transaction = some t)
    (h : (do
      if ← Op.write (.dropCollection name) then Op.note .info .collectionDropped fields
      rest) ws = .ok () ws') :
    ∃ ws₁, ws.Stays ws₁ ∧ Drops [name] ws.visible ws₁.visible ∧ rest ws₁ = .ok () ws' := by
  obtain ⟨answer, ws₁, hw, h₁⟩ := bind_eq_ok.1 h
  obtain ⟨hp, hs, -⟩ := write_ok ht hw
  have hdrops : Drops [name] ws.visible ws₁.visible := by
    intro q
    rw [dropCollection_ok hp]
    simp [eq_comm]
  split at h₁
  · obtain ⟨⟨⟩, ws₂, hn, h₂⟩ := bind_eq_ok.1 h₁
    have hr := ((observes_note _ _ _).ok hn).2
    obtain ⟨t₁, ht₁⟩ := hs.transaction
    exact ⟨ws₂, hs.trans (hr.stays ht₁), hr.visible ▸ hdrops, h₂⟩
  · exact ⟨ws₁, hs, hdrops, h₁⟩

theorem dropLive_ok {es : List (String × String)} (ht : ws.transaction = some t)
    (h : dropLive es ws = .ok () ws') :
    ws.Stays ws' ∧ Drops (es.map Prod.snd) ws.visible ws'.visible := by
  induction es generalizing ws t with
  | nil =>
    cases h
    exact ⟨(Workspace.Rests.refl _).stays ht, fun q => by simp⟩
  | cons e rest ih =>
    obtain ⟨ws₁, hs₁, hd₁, h₁⟩ := drop_ok ht h
    obtain ⟨t₁, ht₁⟩ := hs₁.transaction
    obtain ⟨hs₂, hd₂⟩ := ih ht₁ h₁
    exact ⟨hs₁.trans hs₂, hd₁.append hd₂⟩

theorem dropRetired_ok {names : List String} (ht : ws.transaction = some t)
    (h : dropRetired names ws = .ok () ws') :
    ws.Stays ws' ∧ Drops names ws.visible ws'.visible := by
  induction names generalizing ws t with
  | nil =>
    cases h
    exact ⟨(Workspace.Rests.refl _).stays ht, fun q => by simp⟩
  | cons e rest ih =>
    obtain ⟨ws₁, hs₁, hd₁, h₁⟩ := drop_ok ht h
    obtain ⟨t₁, ht₁⟩ := hs₁.transaction
    obtain ⟨hs₂, hd₂⟩ := ih ht₁ h₁
    exact ⟨hs₁.trans hs₂, hd₁.append hd₂⟩

/-- What a deletion did: it dropped the collections, and then deleted the stored definition. -/
theorem demolish_ok {definition : Definition} (ht : ws.transaction = some t)
    (h : demolish c definition ws = .ok () ws') :
    ∃ (stored : Option Definition) (dropped₁ dropped₂ : Catalog) (answer : Bool),
      Drops definition.collections.values ws.visible dropped₁ ∧
      storedFrom c definition.key dropped₁ = .ok stored ∧
      Drops (stored.getD definition).retired dropped₁ dropped₂ ∧
      dropped₂.perform (.deleteOne c.definitions definition.key) = .ok (answer, ws'.visible) := by
  obtain ⟨⟨⟩, ws₁, hlive, h₁⟩ := bind_eq_ok.1 h
  obtain ⟨hs₁, hd₁⟩ := dropLive_ok ht hlive
  obtain ⟨t₁, ht₁⟩ := hs₁.transaction
  obtain ⟨found, ws₂, hf, h₂⟩ := bind_eq_ok.1 h₁
  obtain ⟨hfound, hr⟩ := (c.observes_find? _ _).ok hf
  injection hfound with hfound
  have hlast : ∀ {names : List String} {ws₃ : Workspace}, ws₁.Rests ws₃ →
      (do
        dropRetired names
        discard <| Op.write (.deleteOne c.definitions definition.key)) ws₃ = .ok () ws' →
      ∃ c₂ answer, Drops names ws₁.visible c₂ ∧
        c₂.perform (.deleteOne c.definitions definition.key) = .ok (answer, ws'.visible) := by
    intro names ws₃ hr₃ hrest
    obtain ⟨⟨⟩, ws₄, hretired, hrest⟩ := bind_eq_ok.1 hrest
    obtain ⟨hs₄, hd₄⟩ := dropRetired_ok (hr₃.transaction.trans ht₁) hretired
    obtain ⟨t₄, ht₄⟩ := hs₄.transaction
    obtain ⟨answer, ws₅, hw, hd⟩ := bind_eq_ok.1 hrest
    cases hd
    obtain ⟨hp, -, -⟩ := write_ok ht₄ hw
    exact ⟨ws₄.visible, answer, hr₃.visible ▸ hd₄, hp⟩
  cases found with
  | none =>
    obtain ⟨c₂, answer, hd₂, hp⟩ := hlast hr h₂
    exact ⟨none, ws₁.visible, c₂, answer, hd₁, by simp [storedFrom, hfound], hd₂, hp⟩
  | some document =>
    obtain ⟨stored, ws₃, hl, h₃⟩ := bind_eq_ok.1 h₂
    obtain ⟨hstored, hws⟩ := lift_eq_ok.1 hl
    subst hws
    obtain ⟨c₂, answer, hd₂, hp⟩ := hlast hr h₃
    exact ⟨some stored, ws₁.visible, c₂, answer, hd₁,
      by simp [storedFrom, hfound, hstored, Except.map], hd₂, hp⟩

theorem contained_dropLive : ∀ es : List (String × String), Contained (dropLive es)
  | [] => contained_pure ()
  | (_, _) :: rest => by
    refine (contained_write _).bind fun answer => ?_
    split
    · exact (contained_note _ _ _).bind fun _ => contained_dropLive rest
    · exact contained_dropLive rest

theorem contained_dropRetired : ∀ names : List String, Contained (dropRetired names)
  | [] => contained_pure ()
  | _ :: rest => by
    refine (contained_write _).bind fun answer => ?_
    split
    · exact (contained_note _ _ _).bind fun _ => contained_dropRetired rest
    · exact contained_dropRetired rest

theorem contained_demolish (c : Connection) (definition : Definition) :
    Contained (demolish c definition) := by
  have hlast : ∀ names : List String, Contained (do
      dropRetired names
      discard <| Op.write (.deleteOne c.definitions definition.key) : Op Refusal Unit) :=
    fun names => (contained_dropRetired names).bind fun _ =>
      (contained_write _).bind fun _ => contained_pure ()
  refine (contained_dropLive _).bind fun _ => (c.observes_find? _ _).contained.bind fun found => ?_
  cases found with
  | none => exact hlast _
  | some document => exact (contained_lift _).bind fun stored => hlast _

/-! ## Whole operations -/

theorem holding_eq_ok {d : Dataset} {held : Holding} :
    d.holding = .ok held ↔ d.standing.holding? = some held := by
  unfold Dataset.holding
  cases d.standing.holding? <;> simp

/-- A creation that succeeded ran in a transaction. -/
theorem createFrom_ok {name : String} {s : Schema} {mediaType : Option MediaType}
    {persistent : Bool} {d : Dataset}
    (h : createFrom c name s mediaType persistent ws = .ok d ws') :
    (∃ k, rootClass s = .ok k) ∧
      ∃ ws₁ ws₂, Ran (build c name s mediaType persistent) d ws ws₁ ws₂ ws' := by
  obtain ⟨⟨⟩, ws₁, hroot, h₁⟩ := bind_eq_ok.1 h
  obtain ⟨k, ws₀, hlift, hd⟩ := bind_eq_ok.1 hroot
  cases hd
  obtain ⟨hk, hws⟩ := lift_eq_ok.1 hlift
  subst hws
  obtain ⟨found, ws₂, hf, h₂⟩ := bind_eq_ok.1 h₁
  have hr₂ := ((c.observes_hasDataset name).ok hf).2
  refine ⟨⟨k, hk⟩, ?_⟩
  split at h₂
  · cases h₂
  · obtain ⟨scope, ws₃, hs, h₃⟩ := bind_eq_ok.1 h₂
    have hr₃ := (rests_openScope _ _).ok hs
    rcases attempt_bind_eq h₃ with ⟨d', ws₄, hrun, h₄⟩ | ⟨e, ws₄, -, h₄⟩
    · obtain ⟨⟨⟩, ws₅, hc, h₅⟩ := bind_eq_ok.1 h₄
      obtain ⟨⟨⟩, ws₆, hn, h₆⟩ := bind_eq_ok.1 h₅
      cases h₆
      have hr := ((rests_complete _ _).ok hc).trans ((observes_note _ _ _).ok hn).2
      obtain ⟨ws₇, hran⟩ := ran_of_inTransaction (contained_build _ _ _ _ _) (hr₂.trans hr₃) hrun hr
      exact ⟨_, ws₇, hran⟩
    · obtain ⟨⟨⟩, ws₅, -, h₅⟩ := bind_eq_ok.1 h₄
      cases h₅

theorem createFrom_error {name : String} {s : Schema} {mediaType : Option MediaType}
    {persistent : Bool} {e : Refusal} (ht : ws.transaction = none)
    (h : createFrom c name s mediaType persistent ws = .error e ws') : ws.Unchanged ws' := by
  have hroot : Observes (discard (Op.lift (rootClass s)) : Op Refusal Unit) _ :=
    (observes_lift (rootClass s)).bind fun _ => observes_pure ()
  refine hroot.unchanged_bind ht h fun _ ws₁ ht₁ h₁ => ?_
  refine (c.observes_hasDataset name).unchanged_bind ht₁ h₁ fun found ws₂ ht₂ h₂ => ?_
  split at h₂
  · exact ((observes_throw _).error h₂).unchanged ht₂
  · refine (rests_openScope _ _).unchanged_bind ht₂ h₂ fun scope ws₃ ht₃ h₃ => ?_
    refine unchanged_attempt (contained_build _ _ _ _ _) h₃ (fun d ws₄ h₄ => ?_)
      fun e' ws₄ h₄ => ?_
    · rcases bind_eq_error h₄ with h₅ | ⟨⟨⟩, ws₅, -, h₅⟩
      · exact (rests_complete _ _).not_error h₅
      · rcases bind_eq_error h₅ with h₆ | ⟨⟨⟩, ws₆, -, h₆⟩ <;> cases h₆
    · exact ((observes_log _).bind fun _ => observes_throw _).error h₄

/-- A commit that succeeded ran in a transaction. -/
theorem commit_ok {d d' : Dataset} (h : commit d ws = .ok d' ws') :
    ∃ held held' live, d.standing.holding? = some held ∧
      d' = { d with standing := .attached held', live := live } ∧
      ∃ ws₁ ws₂, Ran (merge d.connection held d.live) (held', live) ws ws₁ ws₂ ws' := by
  obtain ⟨held, ws₁, hh, h₁⟩ := bind_eq_ok.1 h
  obtain ⟨hheld, hws⟩ := lift_eq_ok.1 hh
  subst hws
  obtain ⟨scope, ws₂, hs, h₂⟩ := bind_eq_ok.1 h₁
  have hr₂ := (rests_openScope _ _).ok hs
  rcases attempt_bind_eq h₂ with ⟨⟨held', live⟩, ws₃, hrun, h₃⟩ | ⟨e, ws₃, -, h₃⟩
  · obtain ⟨⟨⟩, ws₄, hn, h₄⟩ := bind_eq_ok.1 h₃
    obtain ⟨⟨⟩, ws₅, hc, h₅⟩ := bind_eq_ok.1 h₄
    cases h₅
    have hr := ((observes_note _ _ _).ok hn).2.trans ((rests_complete _ _).ok hc)
    obtain ⟨ws₆, hran⟩ := ran_of_inTransaction (contained_merge _ _ _) hr₂ hrun hr
    exact ⟨held, held', live, holding_eq_ok.1 hheld, rfl, _, ws₆, hran⟩
  · obtain ⟨⟨⟩, ws₄, -, h₄⟩ := bind_eq_ok.1 h₃
    cases h₄

theorem commit_error {d : Dataset} {e : Refusal} (ht : ws.transaction = none)
    (h : commit d ws = .error e ws') : ws.Unchanged ws' := by
  refine (observes_lift _).unchanged_bind ht h fun held ws₁ ht₁ h₁ => ?_
  refine (rests_openScope _ _).unchanged_bind ht₁ h₁ fun scope ws₂ ht₂ h₂ => ?_
  refine unchanged_attempt (contained_merge _ _ _) h₂ (fun d ws₄ h₄ => ?_) fun e' ws₄ h₄ => ?_
  · rcases bind_eq_error h₄ with h₅ | ⟨⟨⟩, ws₅, -, h₅⟩
    · cases h₅
    · rcases bind_eq_error h₅ with h₆ | ⟨⟨⟩, ws₆, -, h₆⟩
      · exact (rests_complete _ _).not_error h₆
      · cases h₆
  · exact ((observes_log _).bind fun _ => observes_throw _).error h₄

/-- A deletion that succeeded ran in a transaction. -/
theorem delete_ok {d d' : Dataset} (h : delete d ws = .ok d' ws') :
    ∃ held, d.standing.holding? = some held ∧ d' = { d with standing := .deleted } ∧
      ∃ ws₁ ws₂, Ran (demolish d.connection held.definition) () ws ws₁ ws₂ ws' := by
  obtain ⟨held, ws₁, hh, h₁⟩ := bind_eq_ok.1 h
  obtain ⟨hheld, hws⟩ := lift_eq_ok.1 hh
  subst hws
  obtain ⟨⟨⟩, ws₂, hrun, h₂⟩ := bind_eq_ok.1 h₁
  obtain ⟨⟨⟩, ws₃, hn, h₃⟩ := bind_eq_ok.1 h₂
  cases h₃
  obtain ⟨ws₄, hran⟩ := ran_of_inTransaction (contained_demolish _ _) (.refl _) hrun
    ((observes_note _ _ _).ok hn).2
  exact ⟨held, holding_eq_ok.1 hheld, rfl, _, ws₄, hran⟩

theorem delete_error {d : Dataset} {e : Refusal} (ht : ws.transaction = none)
    (h : delete d ws = .error e ws') : ws.Unchanged ws' := by
  refine (observes_lift _).unchanged_bind ht h fun held ws₁ ht₁ h₁ => ?_
  rcases bind_eq_error h₁ with h₂ | ⟨⟨⟩, ws₂, -, h₂⟩
  · exact inTransaction_error (contained_demolish _ _) h₂
  · rcases bind_eq_error h₂ with h₃ | ⟨⟨⟩, ws₃, -, h₃⟩ <;> cases h₃

end Dataset
end SchemaKeeper
