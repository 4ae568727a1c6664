import SchemaKeeper.Proofs.Dataset.Stock

/-!
# What the operations do to the stored datasets

A creation stores a definition with an identifier that no dataset had, a commit replaces the
definition that it read, a deletion removes one.  Each is told here of the committed catalog, with
what the client holds afterwards.
-/
namespace SchemaKeeper

open Catalog Op Provision

namespace Catalog
variable {c : Connection} {d : Definition} {before mid after : Catalog} {p : String → Prop}

theorem documentAt_insert {state : Collection} {name id : String} {document : Json}
    (hs : mid.collections.get? name = some state) (key : String) :
    (mid.setCollection name
        { state with documents := state.documents.insert id document }).documentAt name key =
      if id = key then some document else mid.documentAt name key := by
  simp [documentAt, hs]

/-- A definition is put down after its collections have been laid out. -/
theorem stores_of_outfits {state : Collection} (ho : Outfits p before mid)
    (hp : ∀ q, p q → q = c.definitions ∨ q ∈ d.collections.values)
    (hlive : ∀ q ∈ d.collections.values, mid.collections.contains q = true)
    (hs : mid.collections.get? c.definitions = some state)
    (ha : after = mid.setCollection c.definitions
      { state with documents := state.documents.insert d.key d.document }) :
    Stores c d before after := by
  subst ha
  refine ⟨fun key => ?_, fun q hq => Keyed.contains_insert (ho.contains q hq), fun q hq =>
    Keyed.contains_insert (hlive q hq), fun q hn hq => ?_⟩
  · rw [documentAt_insert hs, documentAt_eq before, ← ho.documents, ← documentAt_eq]
  · rw [get?_setCollection, if_neg (Ne.symm hn)]
    exact ho.frame q fun h => (hp q h).elim hn hq

/-- The identifier of a stored definition. -/
theorem eq_key_of_documentId {id : String} (h : documentId d.document = .ok id) : id = d.key := by
  have hget := documentId_eq_ok.1 h
  rw [Definition.get?_document_id] at hget
  injection hget with hget
  injection hget with hget
  exact hget.symm

/-- A stored definition has no fractions in its document. -/
theorem Stocked.floatFree {guarded : Prop} {l : Ledger} {s : Supply}
    (h : before.Stocked guarded c l s) {key : String} {j : Json}
    (hj : before.documentAt c.definitions key = some j) : j.FloatFree := by
  obtain ⟨d, rfl, -, -⟩ := h.stored key j hj
  exact d.floatFree_document

end Catalog

namespace Dataset
variable {guarded : Prop} {c : Connection} {ws ws' : Workspace} {l : Ledger}

/-- The client holds a definition that a dataset can have; the schema that it had when it last
saw the dataset is the given one.  As long as it guards the root, it has not edited it. -/
structure Holds (guarded : Prop) (l : Ledger) (s : Supply) (base : Schema) (d : Dataset)
    (h : Holding) : Prop where
  traced : h.definition.Traced guarded l s
  seen : Layout.schema h.definition.fields h.validators d.connection.classes = .ok base
  root : guarded → d.live.get? "" = base.get? ""

theorem Holds.mono {l' : Ledger} {s s' : Supply} {base : Schema} {d : Dataset} {h : Holding}
    (hh : d.Holds guarded l s base h) (hs : s.Later s') (hl : l.AgreeBelow s.drawn l') :
    d.Holds guarded l' s' base h := ⟨hh.traced.mono hs hl, hh.seen, hh.root⟩

/-- The catalog has what the client holds: the definition is stored, the validators of the schema
that it describes are installed, and both say the live schema. -/
structure Persists (catalog : Catalog) (d : Dataset) (h : Holding) : Prop where
  standing : d.standing = .attached h
  live : Layout.schema h.definition.fields h.validators d.connection.classes = .ok d.live
  described : ∃ s : Schema, Layout.Describes h.definition.fields s ∧
    Layout.validators h.definition.collections s = .ok h.validators
  installed : catalog.Installs h.validators
  document : catalog.documentAt d.connection.definitions h.definition.key =
    some h.definition.document

/-! ## Creation -/

/-- The root of a schema that is accepted for a new dataset. -/
theorem rootClass_eq_ok {s : Schema} {k : DocClass} :
    rootClass s = .ok k ↔ s.typeAt "" = .ok (.document k) := by
  unfold rootClass
  cases h : s.typeAt "" with
  | error e => simp
  | ok t => cases t <;> simp

/-- A definition of what was laid out is put down and committed: the catalog then stores it, and has
the dataset. -/
theorem stores_of_laidOut {ids : Nat → Uuid} {known : Collections} {s : Schema}
    {drawn drawn' : Nat} {before mid₀ mid working after : Catalog} {provision : Provision}
    {definition : Definition} {state : Collection} {d : Dataset}
    (hlaid : LaidOut ids known s drawn drawn' mid₀ mid provision)
    (hfields : definition.fields = provision.definitions)
    (houtfits : Outfits (fun q => q = c.definitions ∨ q ∈ provision.collections.values) before mid)
    (hstate : mid.collections.get? c.definitions = some state)
    (hworking : working = mid.setCollection c.definitions
      { state with documents := state.documents.insert definition.key definition.document })
    (hsettles : Settles before working after)
    (hfloat : ∀ key j, before.documentAt c.definitions key = some j → j.FloatFree)
    (hc : d.connection = c) (hstanding : d.standing = .attached ⟨definition, provision.validators⟩)
    (hlive : Layout.schema provision.definitions provision.validators c.classes = .ok d.live) :
    Stores c definition before after ∧ Persists after d ⟨definition, provision.validators⟩ := by
  subst hc
  have hcollections : definition.collections = provision.collections :=
    congrArg FieldDefinition.collections hfields
  have hput : Stores d.connection definition before working :=
    stores_of_outfits houtfits (fun q hq => hcollections ▸ hq)
      (fun q hq => hlaid.exist q (hcollections ▸ hq)) hstate hworking
  have hstores := hsettles.stores hfloat hput
  have hinstalled : after.Installs provision.validators := by
    refine hsettles.installs ?_
    rw [hworking]
    exact Installs.setDocuments hlaid.installed hstate _
  have hkept := hstores.definitions definition.key
  rw [if_pos rfl] at hkept
  exact ⟨hstores, hstanding, hfields.symm ▸ hlive,
    ⟨s, hfields.symm ▸ hlaid.describes, hcollections.symm ▸ hlaid.validators⟩, hinstalled, hkept⟩

/-- A creation stores a definition with the next identifier, under a name that no other definition
has. -/
theorem createFrom_stores {name : String} {s : Schema} {mediaType : Option MediaType}
    {persistent : Bool} {d : Dataset} (h : ws.store.catalog.Stocked guarded c l ws.supply)
    (hf : ws'.supply.Fits c.definitions)
    (hop : createFrom c name s mediaType persistent ws = .ok d ws') :
    ∃ (l' : Ledger) (held : Holding) (k : Nat), l.AgreeBelow ws.supply.drawn l' ∧
      d.connection = c ∧ d.Holds guarded l' ws'.supply d.live held ∧
      ws.supply.drawn ≤ k ∧ k < ws'.supply.drawn ∧ held.definition.id = ws'.supply.ids k ∧
      Stores c held.definition ws.store.catalog ws'.store.catalog ∧
      ws'.store.catalog.Stocked guarded c l' ws'.supply ∧
      Persists ws'.store.catalog d held := by
  obtain ⟨⟨k, hroot⟩, ws₁, ws₂, hran⟩ := createFrom_ok hop
  obtain ⟨ws₃, ws₄, provision, definition, i, j, hreach, hfree, hlaid, hi, hi', hj, hdef, hlive,
    hc, hstanding, answer, hinsert⟩ := build_ok rfl hran.work
  have hlater := hran.supply_later
  have hsource : ws.supply.Later ws₁.opened.supply := hran.start.supply
  have hids : ws₁.opened.supply.ids = ws'.supply.ids := by rw [hlater.ids, hsource.ids]
  have hclock : ws₁.opened.supply.clock = ws'.supply.clock := by rw [hlater.clock, hsource.clock]
  have hstart : ws.supply.drawn ≤ ws₃.supply.drawn :=
    Nat.le_trans hsource.drawn hreach.stays.supply.drawn
  have hi'' := Nat.lt_of_lt_of_le hi' hran.supply.drawn
  have hnow := hf.writable j (Nat.lt_of_lt_of_le hj hran.supply.read)
  rw [hids, hclock] at hdef
  rw [hids] at hlaid
  obtain ⟨l', hl', htraced⟩ :=
    Definition.exists_traced_new hlaid (rootClass_eq_ok.1 hroot) hi hi'' hnow l
  have hagree : l.AgreeBelow ws.supply.drawn l' :=
    fun k hk => hl' k (Nat.lt_of_lt_of_le hk hstart)
  have hfields : definition.fields = provision.definitions := by
    rw [hdef]
    exact FieldDefinition.sorted_of_ascending hlaid.describes.ascending
  rw [← hdef] at htraced
  obtain ⟨id, state, hid, hstate, -, -, hafter⟩ := insertOne_ok hinsert
  rw [eq_key_of_documentId hid] at hafter
  have houtfits : Outfits (fun q => q = c.definitions ∨ q ∈ provision.collections.values)
      ws.store.catalog ws₄.visible := by
    rw [← hran.visible]
    exact (hreach.outfits.mono fun q hq => .inl hq).trans (hlaid.outfits.mono fun q hq => .inr hq)
  obtain ⟨hstores, hpersists⟩ := stores_of_laidOut hlaid hfields houtfits hstate hafter hran.settles
    (fun _ _ hj => h.floatFree hj) hc hstanding hlive
  have hstocked : ws'.store.catalog.Stocked guarded c l' ws'.supply := by
    refine (h.mono hlater hagree).stores htraced (hran.keeps h.keeps) hstores (fun name hn => ?_)
      fun key document hdoc hname => ?_
    · rcases hn with hn | hn
      · exact hstores.live name hn
      · rw [hdef] at hn
        cases hn
    · -- Nothing of this name was found among the definitions.
      have hat : ws₃.visible.documentAt c.definitions key = some document := by
        rw [documentAt_eq, hreach.outfits.documents, ← documentAt_eq, hran.visible]
        exact hdoc
      rw [hdef] at hname
      exact absurd hname (ne_of_findOne_eq_none hfree hat)
  have hdrawn := Nat.le_trans hstart (Nat.le_trans hlaid.drawn_le hi)
  exact ⟨l', ⟨definition, provision.validators⟩, i, hagree, hc,
    ⟨htraced, hpersists.live, fun _ => rfl⟩, hdrawn, hi'', congrArg Definition.id hdef, hstores,
    hstocked, hpersists⟩

/-! ## Reading -/

/-- What is read under a key is a stored definition. -/
theorem readFrom_stocked {key : DatasetKey} {catalog : Catalog} {s : Supply} {d : Dataset}
    (h : catalog.Stocked guarded c l s) (hr : readFrom c key catalog = .ok d) :
    ∃ held : Holding, d.connection = c ∧ d.standing = .attached held ∧
      d.Holds guarded l s d.live held ∧
      catalog.documentAt c.definitions held.definition.key = some held.definition.document ∧
      (∀ id, key = .byId id → held.definition.id = id) ∧
      ∀ name, key = .byName name → held.definition.name = name := by
  obtain ⟨document, definition, live, hfound, hdef, hlive, rfl⟩ := readFrom_ok hr
  obtain ⟨state, id, hstate, hdoc⟩ := mem_of_findOne hfound
  have hat : catalog.documentAt c.definitions id = some document := by
    rw [documentAt, hstate]
    exact hdoc
  obtain ⟨stored, rfl, htraced, -⟩ := h.stored id document hat
  rw [Definition.ofDocument_document htraced.writable] at hdef
  injection hdef with hdef
  subst hdef
  have hkey := h.key_eq hat
  refine ⟨_, rfl, rfl, ⟨htraced, hlive, fun _ => rfl⟩, by rw [hkey]; exact hat, ?_, ?_⟩
  · rintro id' rfl
    have hat' := hfound
    rw [show DatasetKey.field (.byId id') = "_id" from rfl, findOne_id h.keeps] at hat'
    exact Uuid.text_injective (h.key_eq hat')
  · rintro name rfl
    have hname := get?_of_findOne hfound
    rw [show DatasetKey.field (.byName name) = "name" from rfl,
      Definition.get?_document_name] at hname
    injection hname with hname
    injection hname

/-- What is read under an identifier is what is stored under it. -/
theorem stored_of_readFrom {id : Uuid} {catalog : Catalog} {s : Supply} {c' : Connection}
    {held : Holding} {seen : Schema} (h : catalog.Stocked guarded c l s)
    (hr : readFrom c (.byId id) catalog = .ok ⟨c', .attached held, seen⟩) :
    Holds guarded l s seen ⟨c', .attached held, seen⟩ held ∧ held.definition.id = id ∧
      c.stored? catalog id = some held.definition := by
  obtain ⟨held₁, -, hstanding, hholds, hdocument, hid, -⟩ := readFrom_stocked h hr
  injection hstanding with hstanding
  subst hstanding
  have hid : held.definition.id = id := hid _ rfl
  exact ⟨hholds, hid,
    hid ▸ Stocked.stored?_of_documentAt h.keeps hholds.traced.writable hdocument⟩

end Dataset
end SchemaKeeper
