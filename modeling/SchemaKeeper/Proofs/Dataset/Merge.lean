import SchemaKeeper.Proofs.Dataset.Reading

/-!
# What a commit leaves

A commit puts the paths that its client edited as the client has them, and leaves every other path
as it was persisted.  What is read afterwards, from definitions and validators, is the schema that
the client is left with.
-/
namespace SchemaKeeper

open Catalog Op Provision

namespace Dataset
variable {guarded : Prop} {c : Connection} {ws ws' : Workspace} {l : Ledger} {s : Supply}
  {base : Schema} {d d' : Dataset} {held held' : Holding} {before after : Catalog}

/-- The schema that a client last saw has a document at its root. -/
theorem Holds.root_document (h : d.Holds guarded l s base held) (hg : guarded) :
    ∃ k, base.typeAt "" = .ok (.document k) := by
  obtain ⟨f, hf, hp, ⟨name, hname⟩, -⟩ := h.traced.root hg
  exact Layout.typeAt_root_of_schema h.seen h.traced.ascending hf hp hname

theorem typeAt_congr {s t : Schema} {path : String} (h : s.get? path = t.get? path) :
    s.typeAt path = t.typeAt path := by
  rw [Schema.typeAt, Schema.typeAt, h]

/-- What a commit made of the stored definition: one of the same dataset with the names of both and
of what it laid out, which describes the edits of the client on top of what was read. -/
structure Replays (c : Connection) (base live : Schema) (held held' : Holding)
    (before : Catalog) : Prop where
  id : held'.definition.id = held.definition.id
  name : held'.definition.name = held.definition.name
  latest : ∃ latest, c.stored? before held.definition.id = some latest ∧
    (∀ name, latest.Names name → held'.definition.Names name) ∧
    ∀ name, held'.definition.Names name → name ∈ held'.definition.collections.values ∨
      latest.Names name ∨ held.definition.Names name
  seen : ∃ seen, (readFrom c (.byId held.definition.id) before).map Dataset.live = .ok seen ∧
    Layout.Describes held'.definition.fields ((Delta.between base live).apply seen) ∧
    Layout.validators held'.definition.collections ((Delta.between base live).apply seen) =
      .ok held'.validators

/-- A commit stores the definition that the client holds afterwards. -/
theorem commit_stores (h : ws.store.catalog.Stocked guarded d.connection l ws.supply)
    (hheld : d.standing.holding? = some held) (hh : d.Holds guarded l ws.supply base held)
    (hop : commit d ws = .ok d' ws') :
    ∃ (l' : Ledger) (held' : Holding), l.AgreeBelow ws.supply.drawn l' ∧
      d'.connection = d.connection ∧ d'.Holds guarded l' ws'.supply d'.live held' ∧
      Replays d.connection base d.live held held' ws.store.catalog ∧
      Stores d.connection held'.definition ws.store.catalog ws'.store.catalog ∧
      Persists ws'.store.catalog d' held' := by
  obtain ⟨held₀, held', live, hheld₀, rfl, ws₁, ws₂, hran⟩ := commit_ok hop
  rw [hheld] at hheld₀
  injection hheld₀ with hheld₀
  subst hheld₀
  obtain ⟨ws₃, ws₄, latest, seen, base', v, provision, hread, hbase, hrests, hlaid, hlive, rfl,
    hdrawn, hreplace⟩ := merge_ok rfl hran.work
  have hbase : base' = base := by
    have := hh.seen
    rw [hbase] at this
    injection this
  subst hbase
  rw [hran.visible] at hread
  obtain ⟨hlatest, hid, hstored⟩ := stored_of_readFrom h hread
  -- The root is the one that was read, since no edit of a guarded client reaches it.
  have hroot : guarded → ∃ k,
      ((Delta.between base' d.live).apply seen).typeAt "" = .ok (.document k) := fun hg => by
    obtain ⟨k, hk⟩ := hlatest.root_document hg
    exact ⟨k, (typeAt_congr (Delta.get?_apply_of_eq (hh.root hg))).trans hk⟩
  have hlater := hran.supply_later
  have hopened : ws.supply.Later ws₁.opened.supply := hran.start.supply
  have hids : ws₁.opened.supply.ids = ws'.supply.ids := by rw [hlater.ids, hopened.ids]
  rw [hids] at hlaid
  obtain ⟨l', hl, htraced⟩ := exists_traced_committed hlaid hh.traced hlatest.traced hid hlater
    (hopened.trans hrests.supply).drawn (Nat.le_trans hdrawn hran.supply.drawn) hroot
  have hfields : (committed held latest provision).fields = provision.definitions :=
    FieldDefinition.sorted_of_ascending hlaid.describes.ascending
  obtain ⟨-, state, hstate, ⟨-, -, -, hafter⟩ | ⟨hfalse, -⟩⟩ := replaceOne_ok hreplace
  · have houtfits : Outfits (fun q => q = d.connection.definitions ∨
        q ∈ provision.collections.values) ws.store.catalog ws₄.visible := by
      rw [← hran.visible]
      exact hlaid.outfits.mono fun q hq => .inr hq
    obtain ⟨hstores, hpersists⟩ := stores_of_laidOut
      (d := ⟨d.connection, .attached ⟨committed held latest provision, provision.validators⟩, live⟩)
      hlaid hfields houtfits hstate hafter hran.settles (fun _ _ hj => h.floatFree hj) rfl rfl hlive
    refine ⟨l', ⟨committed held latest provision, provision.validators⟩, hl, rfl,
      ⟨htraced, hpersists.live, fun _ => rfl⟩, ⟨rfl, rfl, ⟨latest, hstored, fun name hn =>
        names_committed hlaid.describes hn, fun name hn => names_of_committed hn⟩, ?_⟩, hstores,
      hpersists⟩
    refine ⟨seen, ?_, hfields.symm ▸ hlaid.describes, ?_⟩
    · rw [hread]
      rfl
    · rw [collections_committed hlaid.describes]
      exact hlaid.validators
  · cases hfalse

/-- What a commit stores keeps the catalog in order, if the stored definition follows the one that
the client held. -/
theorem Replays.stocked {live : Schema} (hr : Replays c base live held held' before)
    (h : before.Stocked guarded c l s) (ht : held'.definition.Traced guarded l s)
    (hk : after.Keeps) (hs : Stores c held'.definition before after)
    (hfollows : ∀ latest, c.stored? before held.definition.id = some latest →
      latest.Follows held.definition) :
    after.Stocked guarded c l s ∧ ∃ latest,
      c.stored? before held'.definition.id = some latest ∧ held'.definition.Follows latest := by
  obtain ⟨latest, hlatest, hnames, hfrom⟩ := hr.latest
  have hfollows := hfollows latest hlatest
  obtain ⟨hdoc, hid, -, -⟩ := h.stored?_eq_some hlatest
  refine ⟨h.stores ht hk hs (fun name hn => ?_) fun key document hdoc' hname => ?_, latest,
    hr.id ▸ hlatest, hr.name.trans hfollows.name.symm, hnames⟩
  · rcases hfrom name hn with hn | hn | hn
    · exact hs.live name hn
    · exact hs.contains name (h.contains_of_names hlatest hn)
    · exact hs.contains name (h.contains_of_names hlatest (hfollows.keeps name hn))
  · -- A definition of this name is the stored one.
    have hkey := h.named _ _ _ _ hdoc' hdoc (by
      rw [hname, Definition.get?_document_name, hr.name, hfollows.name])
    rw [hkey, Definition.key, Definition.key, hr.id, hid]

/-- What a commit leaves of a dataset: the definition that the client then holds is stored with
its collections, it names what the stored definition named before, and what is read from it is the
edits of the client on top of what was read before. -/
structure Merges (c : Connection) (base : Schema) (d d' : Dataset) (held' : Holding)
    (before after : Catalog) : Prop where
  definition : ∃ latest, c.stored? before held'.definition.id = some latest ∧
    ∀ name, latest.Names name → held'.definition.Names name
  stores : Stores c held'.definition before after
  merged : ∃ seen, (readFrom c (.byId held'.definition.id) before).map live = .ok seen ∧
    ∀ path, d'.live.entry path =
      if d.live.entry path = base.entry path then seen.entry path else d.live.entry path
  persisted : (readFrom c (.byId held'.definition.id) after).map live = .ok d'.live

theorem commit_merges (h : ws.store.catalog.Stocked True c l ws.supply)
    (hf : ws'.supply.Fits c.definitions) (hr : c.classes.Named) (hc : d.connection = c)
    (hheld : d.standing.holding? = some held) (hh : d.Holds True l ws.supply base held)
    (hop : commit d ws = .ok d' ws') :
    ∃ (l' : Ledger) (held' : Holding), l.AgreeBelow ws.supply.drawn l' ∧
      d'.connection = c ∧ d'.standing = .attached held' ∧
      d'.Holds True l' ws'.supply d'.live held' ∧
      held'.definition.id = held.definition.id ∧
      Merges c base d d' held' ws.store.catalog ws'.store.catalog := by
  subst hc
  obtain ⟨l', held', hl, hc, hholds, hreplays, hstores, hpersists⟩ :=
    commit_stores h hheld hh hop
  obtain ⟨latest, hlatest, hnames, -⟩ := hreplays.latest
  obtain ⟨seen, hseen, hdescribes, hvalidators⟩ := hreplays.seen
  obtain ⟨_, _, _, _, _, _, _, hran⟩ := commit_ok hop
  rw [← hreplays.id] at hlatest hseen
  refine ⟨l', held', hl, hc, hpersists.standing, hholds, hreplays.id, ⟨latest, hlatest, hnames⟩,
    hstores, ⟨seen, hseen, fun path => ?_⟩, ?_⟩
  · obtain ⟨k, hroot⟩ := root_of_describes hholds.traced trivial hdescribes
    have hlive := hpersists.live
    rw [hc, Layout.schema_of_speak hdescribes (hf.apart hholds.traced.live) hroot
      (Layout.validators_speak hvalidators)] at hlive
    rw [Layout.entry_schema hr hdescribes hlive, Delta.entry_apply]
  · rw [← hc] at hf ⊢
    exact hpersists.read_live (hran.keeps h.keeps) hholds.traced trivial hf

end Dataset
end SchemaKeeper
