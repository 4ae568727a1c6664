import Mathlib.Logic.Relation
import SchemaKeeper.Proofs.Dataset.Uses
import SchemaKeeper.Proofs.Dataset.Records
import SchemaKeeper.Proofs.Store.Furnishing

/-!
# Which writes the operations make

Whatever an operation on a dataset does to the store is a chain of writes of a few kinds.  What each
of these keeps, every operation keeps, so an invariant of catalogs asks for one lemma about writes
and none about operations.
-/
namespace SchemaKeeper

open Catalog Op Provision

/-- The kinds of writes that operations on datasets make.  An index is that of the names of datasets
or one that a class asks for; a validator is the document of a rule; what is stored is a definition
or a document of a record. -/
inductive Write.Usual (definitions : String) (p : DocClass → Prop) (q : Json → Prop) :
    Write → Prop where
  | createCollection (name : String) : Usual definitions p q (.createCollection name)
  | dropCollection (name : String) : Usual definitions p q (.dropCollection name)
  | nameIndex : Usual definitions p q (.createIndex definitions Connection.nameIndex)
  | classIndex (name : String) {k : DocClass} {index : Index} (asks : p k)
    (asked : index ∈ k.indexes) : Usual definitions p q (.createIndex name index)
  | setValidator (name : String) (rule : Rule) :
    Usual definitions p q (.setValidator name rule.document)
  | insertOne (d : Definition) : Usual definitions p q (.insertOne definitions d.document)
  | replaceDefinition (d : Definition) :
    Usual definitions p q (.replaceOne definitions d.key d.document false)
  | replaceDocument (name : String) (id : Uuid) {document : Json} (formed : q document) :
    Usual definitions p q (.replaceOne name id.text document true)
  | deleteOne (name id : String) : Usual definitions p q (.deleteOne name id)

namespace Catalog
variable {W : Write → Prop} {P : Catalog → Prop} {c c' : Catalog}

/-- From one catalog to another by a write of a kind. -/
def Moves (W : Write → Prop) (c c' : Catalog) : Prop :=
  ∃ w answer, W w ∧ c.perform w = .ok (answer, c')

/-- Writes of a kind keep what is told of a catalog, which is told of its collections alone. -/
structure KeptBy (W : Write → Prop) (P : Catalog → Prop) : Prop where
  step : ∀ {c c' : Catalog} {w : Write} {answer : Bool}, W w → c.perform w = .ok (answer, c') →
    P c → P c'
  congr : ∀ {c c' : Catalog}, c'.collections = c.collections → P c → P c'

theorem KeptBy.chain (hk : KeptBy W P) (h : Relation.ReflTransGen (Moves W) c c') (hp : P c) :
    P c' := by
  induction h with
  | refl => exact hp
  | tail _ hmove ih =>
    obtain ⟨w, answer, hw, hperform⟩ := hmove
    exact hk.step hw hperform ih

/-- Catalogs of finite numbers stay so where finite numbers are written. -/
theorem keptBy_isFinite {definitions : String} {p : DocClass → Prop} :
    KeptBy (Write.Usual definitions p fun document => document.isFinite = true) IsFinite := by
  refine ⟨fun {c c' w answer} hw h hp => hp.perform ?_ h, fun hc hp name state hs =>
    hp name state (hc ▸ hs)⟩
  cases hw with
  | setValidator name rule => exact Json.isFinite_of_floatFree rule.floatFree_document
  | insertOne d | replaceDefinition d => exact Json.isFinite_of_floatFree d.floatFree_document
  | replaceDocument name id formed => exact formed
  | _ => rfl

/-- In the collections of some names each document is as a property of it and of its key says. -/
def AllIn (p : String → Prop) (q : String → Json → Prop) (c : Catalog) : Prop :=
  ∀ name state, p name → c.collections.get? name = some state →
    ∀ key document, state.documents.get? key = some document → q key document

/-- What holds of each document of a record that is written holds of each document of collections
among which that of the definitions is not. -/
theorem keptBy_allIn {definitions : String} {known : DocClass → Prop} {p : String → Prop}
    {q : String → Json → Prop} {q' : Json → Prop} (hp : ¬ p definitions)
    (hq : ∀ (id : Uuid) {document : Json}, q' document → q id.text document) :
    KeptBy (Write.Usual definitions known q') (AllIn p q) := by
  refine ⟨fun {c c' w answer} hw h hc name state hn hs key document hd => ?_,
    fun hc hall name state hn hs => hall name state hn (hc ▸ hs)⟩
  obtain hs | ⟨rfl, hmakes⟩ := kept_or_made h hs
  · exact hc name state hn hs key document hd
  cases hmakes with
  | createCollection => cases hd
  | createIndex found | setValidator found => exact hc _ _ hn found key document hd
  | insertOne found =>
    cases hw
    exact absurd hn hp
  | replaceOne found =>
    cases hw with
    | replaceDefinition => exact absurd hn hp
    | replaceDocument _ id formed =>
      rw [Keyed.get?_insert] at hd
      split at hd
      · rename_i hkey
        injection hd with hd
        exact hkey ▸ hd ▸ hq id formed
      · exact hc _ _ hn found key document hd
  | deleteOne found =>
    rw [Keyed.get?_erase] at hd
    split at hd
    · cases hd
    · exact hc _ _ hn found key document hd

end Catalog

namespace Op
variable {ε α β : Type} {W : Write → Prop} {P : Catalog → Prop} {ws ws' : Workspace}

/-- Inside a transaction the operation, where it succeeds, moves the catalog by writes of a kind
alone. -/
def Performs (W : Write → Prop) (op : Op ε α) : Prop :=
  ∀ (ws ws' : Workspace) (t : Transaction) (a : α), ws.transaction = some t →
    op ws = .ok a ws' → (∃ t', ws'.transaction = some t') ∧
      Relation.ReflTransGen (Moves W) ws.visible ws'.visible

theorem performs_of_rests {op : Op ε α}
    (h : ∀ {ws ws' : Workspace} {a : α}, op ws = .ok a ws' → ws.Rests ws') : Performs W op :=
  fun _ _ _ _ ht hop => ⟨⟨_, (h hop).transaction.trans ht⟩, (h hop).visible ▸ .refl⟩

theorem Observes.performs {op : Op ε α} {f : Catalog → Except ε α} (h : Observes op f) :
    Performs W op := performs_of_rests fun hop => (h.ok hop).2

theorem performs_pure (a : α) : Performs W (pure a : Op ε α) := (observes_pure a).performs

theorem performs_note (severity : Severity) (event : Event) (fields : List (String × String)) :
    Performs W (note severity event fields : Op ε Unit) :=
  (observes_note severity event fields).performs

/-- What comes next may build on the answer that was given. -/
theorem Performs.bind {x : Op ε α} {f : α → Op ε β} (hx : Performs W x)
    (hf : ∀ a, (∃ ws ws', x ws = .ok a ws') → Performs W (f a)) : Performs W (x >>= f) := by
  intro ws ws' t b ht h
  obtain ⟨a, ws₁, h₁, h₂⟩ := bind_eq_ok.1 h
  obtain ⟨⟨t₁, ht₁⟩, hm₁⟩ := hx ws ws₁ t a ht h₁
  obtain ⟨ht₂, hm₂⟩ := hf a ⟨ws, ws₁, h₁⟩ ws₁ ws' t₁ b ht₁ h₂
  exact ⟨ht₂, hm₁.trans hm₂⟩

theorem performs_write [FromStore ε] {w : Write} (hw : W w) :
    Performs W (write w : Op ε Bool) := by
  intro ws ws' t a ht h
  obtain ⟨hperform, hstays, -⟩ := write_ok ht h
  exact ⟨hstays.transaction, .single ⟨w, a, hw, hperform⟩⟩

theorem performs_discard_write [FromStore ε] {w : Write} (hw : W w) :
    Performs W (discard (write w) : Op ε Unit) :=
  (performs_write hw).bind fun _ _ => performs_pure ()

/-- What writes of a kind keep is kept by a transaction of such writes. -/
theorem Ran.preserves {work : Op ε α} {a : α} {ws₁ ws₂ : Workspace}
    (h : Ran work a ws ws₁ ws₂ ws') (hw : Performs W work) (hk : KeptBy W P)
    (hp : P ws.store.catalog) : P ws'.store.catalog := by
  have hworking : P ws₂.visible := hk.chain (hw _ _ _ _ rfl h.work).2 (h.visible ▸ hp)
  rcases h.settles with ⟨heq, -⟩ | heq
  · exact heq ▸ hp
  · exact hk.congr heq hworking

end Op

namespace Provision
variable {definitions : String} {p : DocClass → Prop} {q : Json → Prop}

theorem performs_ensureIndexes {name : String} : ∀ {indexes : List Index},
    (∀ i ∈ indexes, ∃ k, p k ∧ i ∈ k.indexes) →
      Performs (Write.Usual definitions p q) (ensureIndexes name indexes)
  | [], _ => performs_pure ()
  | index :: rest, h => by
    obtain ⟨⟨k, hk, hindex⟩, hrest⟩ := List.forall_mem_cons.1 h
    refine (performs_write (.classIndex name hk hindex)).bind fun answer _ => ?_
    split
    · exact (performs_note _ _ _).bind fun _ _ => performs_ensureIndexes hrest
    · exact performs_ensureIndexes hrest

theorem performs_ensureCollections {s : Schema} (hs : s.All p) (existing : Keyed Unit) :
    ∀ es : List (String × String),
      Performs (Write.Usual definitions p q) (ensureCollections s existing es)
  | [] => performs_pure ()
  | (path, name) :: rest => by
    have hrest : Performs (Write.Usual definitions p q) (do
        ensureIndexes name (indexesAt s path)
        ensureCollections s existing rest) :=
      (performs_ensureIndexes fun _ hi => hs.indexesAt hi).bind fun _ _ =>
        performs_ensureCollections hs existing rest
    rw [ensureCollections]
    split
    · exact (performs_discard_write (.createCollection name)).bind fun _ _ =>
        (performs_note _ _ _).bind fun _ _ => hrest
    · exact hrest

theorem performs_installValidator (name : String) (rule : Rule) :
    Performs (Write.Usual definitions p q) (installValidator name rule : Op Refusal Bool) := by
  refine (observes_query _).performs.bind fun installed _ => ?_
  split
  · exact (performs_note _ _ _).bind fun _ _ => performs_pure false
  · exact (performs_discard_write (.setValidator name rule)).bind fun _ _ =>
      (performs_note _ _ _).bind fun _ _ => performs_pure true

theorem performs_installValidators (rules : List (String × Rule)) :
    Performs (Write.Usual definitions p q) (installValidators rules) := by
  induction rules with
  | nil => exact performs_pure ()
  | cons rule rest ih =>
    exact ((performs_installValidator rule.1 rule.2).bind fun _ _ => performs_pure ()).bind
      fun _ _ => ih

theorem performs_define (s : Schema) (known : Collections) :
    Performs (Write.Usual definitions p q) (define s known) := by
  refine performs_of_rests fun {ws ws' ds} h => ?_
  rw [define_eq] at h
  split at h
  · rename_i hd
    cases h
    exact ⟨rfl, rfl, rfl, rfl, (Layout.define_ok hd).1, Nat.le_refl _⟩
  · cases h

theorem performs_make {s : Schema} (hs : s.All p) (known : Collections) :
    Performs (Write.Usual definitions p q) (make s known) :=
  (performs_define s known).bind fun _ _ => (observes_lift _).performs.bind fun _ _ =>
    observes_catalog.performs.bind fun _ _ => (performs_ensureCollections hs _ _).bind
      fun _ _ => (performs_installValidators _).bind fun _ _ => performs_pure _

end Provision

namespace Dataset
variable {definitions : String} {p : DocClass → Prop} {q : Json → Prop} {c : Connection}

theorem performs_build {name : String} {s : Schema} (hs : s.All p)
    (mediaType : Option MediaType) (persistent : Bool) :
    Performs (Write.Usual c.definitions p q) (build c name s mediaType persistent) := by
  have hensure : Performs (Write.Usual c.definitions p q) c.ensureDefinitions := by
    have hindex : Performs (Write.Usual c.definitions p q)
        (discard <| Op.write (.createIndex c.definitions Connection.nameIndex) : Op Refusal Unit) :=
      performs_discard_write .nameIndex
    refine observes_catalog.performs.bind fun catalog _ => ?_
    split
    · exact (performs_discard_write (.createCollection _)).bind fun _ _ => hindex
    · exact hindex
  refine hensure.bind fun _ _ => (c.observes_hasDataset name).performs.bind fun found _ => ?_
  split
  · exact (observes_throw _).performs
  · refine (performs_make hs .empty).bind fun _ _ =>
      (observes_recover _ _ _).performs.bind fun _ _ => ?_
    exact (performs_of_rests fun h => (freshId_ok h).2.2).bind fun _ _ =>
      (performs_of_rests fun h => (now_ok h).2.2).bind fun _ _ =>
        (performs_discard_write (.insertOne _)).bind fun _ _ => performs_pure _

theorem performs_merge (hr : c.classes.All p) {h : Holding} {edited : Schema} (he : edited.All p) :
    Performs (Write.Usual c.definitions p q) (merge c h edited) := by
  refine (observes_read c _).performs.bind fun latest ⟨_, _, hread⟩ => ?_
  have hlatest : latest.live.All p :=
    (readFrom_uses (q := fun c => c.classes.All p) (fun _ h => h) hr
      ((observes_read c _).ok hread).1).live
  refine (observes_recover _ _ _).performs.bind fun base _ =>
    (performs_note _ _ _).bind fun _ _ => (performs_make (hlatest.apply he) _).bind
      fun _ _ => (observes_recover _ _ _).performs.bind fun _ _ =>
        (performs_write (.replaceDefinition _)).bind fun answer _ => ?_
  split
  · exact (observes_throw _).performs
  · exact performs_pure _

theorem performs_drop {name : String} {fields : List (String × String)} {rest : Op Refusal Unit}
    (h : Performs (Write.Usual definitions p q) rest) : Performs (Write.Usual definitions p q) (do
      if ← Op.write (.dropCollection name) then Op.note .info .collectionDropped fields
      rest) := by
  refine (performs_write (.dropCollection name)).bind fun answer _ => ?_
  split
  · exact (performs_note _ _ _).bind fun _ _ => h
  · exact h

theorem performs_demolish (definition : Definition) :
    Performs (Write.Usual definitions p q) (demolish c definition) := by
  have hlive : ∀ es, Performs (Write.Usual definitions p q) (dropLive es) := by
    intro es
    induction es with
    | nil => exact performs_pure ()
    | cons e rest ih => exact performs_drop ih
  have hretired : ∀ names, Performs (Write.Usual definitions p q) (dropRetired names) := by
    intro names
    induction names with
    | nil => exact performs_pure ()
    | cons name rest ih => exact performs_drop ih
  have hlast : ∀ names : List String, Performs (Write.Usual definitions p q) (do
      dropRetired names
      discard <| Op.write (.deleteOne c.definitions definition.key) : Op Refusal Unit) :=
    fun names => (hretired names).bind fun _ _ => performs_discard_write (.deleteOne _ _)
  refine (hlive _).bind fun _ _ => (c.observes_find? _ _).performs.bind fun found _ => ?_
  cases found with
  | none => exact hlast _
  | some document => exact (observes_lift _).performs.bind fun _ _ => hlast _

/-- To save a record writes its documents alone. -/
theorem performs_writeRecord {W : Write → Prop} {r : Record} (cs : Collections)
    (hparts : ∀ part ∈ r.parts, ∀ name, W (.replaceOne name part.id.text part.document true))
    (hroot : ∀ name, W (.replaceOne name r.id.text r.document true)) :
    Performs W (writeRecord cs r) := by
  have hall : ∀ parts : List Part,
      (∀ part ∈ parts, ∀ name, W (.replaceOne name part.id.text part.document true)) →
      Performs W (writeParts cs parts) := by
    intro parts
    induction parts with
    | nil => exact fun _ => performs_pure ()
    | cons part rest ih =>
      intro h
      obtain ⟨hpart, hrest⟩ := List.forall_mem_cons.1 h
      exact (observes_lift _).performs.bind fun _ _ =>
        (performs_discard_write (hpart _)).bind fun _ _ => ih hrest
  exact (observes_lift _).performs.bind fun _ _ => (hall _ hparts).bind fun _ _ =>
    performs_discard_write (hroot _)

/-! ## Whole operations -/

variable {P : Catalog → Prop} {ws ws' : Workspace} {d d' : Dataset} {known : Connection → Prop}

theorem createFrom_preserves {name : String} {s : Schema} {mediaType : Option MediaType}
    {persistent : Bool} (hk : KeptBy (Write.Usual c.definitions p q) P) (hs : s.All p)
    (h : createFrom c name s mediaType persistent ws = .ok d ws') (hp : P ws.store.catalog) :
    P ws'.store.catalog := by
  obtain ⟨-, ws₁, ws₂, hran⟩ := createFrom_ok h
  exact hran.preserves (performs_build hs mediaType persistent) hk hp

theorem Uses.commit_preserves (hd : d.Uses known p) (hknown : ∀ c, known c → c.classes.All p)
    (hk : KeptBy (Write.Usual d.connection.definitions p q) P)
    (h : d.commit ws = .ok d' ws') (hp : P ws.store.catalog) : P ws'.store.catalog := by
  obtain ⟨held, held', live, -, -, ws₁, ws₂, hran⟩ := commit_ok h
  exact hran.preserves (performs_merge (hknown _ hd.connection) hd.live) hk hp

theorem load_preserves {key : DatasetKey} (hquiet : c.Quiet) (ht : ws.transaction = none)
    (hknown : ∀ c, known c → c.classes.All p) (hc : known c)
    (hk : KeptBy (Write.Usual c.definitions p q) P) (h : load c key ws = .ok d ws')
    (hp : P ws.store.catalog) : P ws'.store.catalog := by
  obtain ⟨d₀, ws₁, ws₂, i, hfrom, hu, -, -, hcommit, hrests⟩ := load_ok hquiet ht h
  have hconnection : (d₀.stamped (ws₁.supply.clock i)).connection = c := by
    obtain ⟨_, _, _, -, -, -, rfl⟩ := readFrom_ok hfrom
    rfl
  have hp₂ := ((readFrom_uses hknown hc hfrom).stamped (ws₁.supply.clock i)).commit_preserves hknown
    (hconnection.symm ▸ hk) hcommit (hu.catalog ▸ hp)
  exact hrests.store ▸ hp₂

theorem delete_preserves (hk : KeptBy (Write.Usual definitions p q) P)
    (h : d.delete ws = .ok d' ws') (hp : P ws.store.catalog) : P ws'.store.catalog := by
  obtain ⟨held, -, -, ws₁, ws₂, hran⟩ := delete_ok h
  exact hran.preserves (performs_demolish _) hk hp

theorem saveRecord_preserves {r : Record} (hk : KeptBy (Write.Usual definitions p q) P)
    (hparts : ∀ part ∈ r.parts, q part.document) (hroot : q r.document)
    (h : d.saveRecord r ws = .ok () ws') (hp : P ws.store.catalog) : P ws'.store.catalog := by
  obtain ⟨held, -, ws₁, ws₂, hran⟩ := saveRecord_ok h
  exact hran.preserves (performs_writeRecord _
    (fun part hpart name => .replaceDocument name _ (hparts part hpart))
    fun name => .replaceDocument name _ hroot) hk hp

/-- To save a record leaves the collections with their indexes and validators. -/
theorem saveRecord_furnishedAs {r : Record} (h : d.saveRecord r ws = .ok () ws') :
    ws.store.catalog.FurnishedAs ws'.store.catalog := by
  obtain ⟨held, -, ws₁, ws₂, hran⟩ := saveRecord_ok h
  have hk : KeptBy (fun w => w.isOfDocument = true) ws.store.catalog.FurnishedAs :=
    ⟨fun hw hperform hf => hf.trans (furnishedAs_of_perform hw hperform),
      fun hc hf => hf.trans (furnishedAs_of_collections hc)⟩
  exact hran.preserves (performs_writeRecord _ (fun _ _ _ => rfl) fun _ => rfl) hk (.refl _)

end Dataset
end SchemaKeeper
