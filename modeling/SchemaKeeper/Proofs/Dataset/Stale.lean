import SchemaKeeper.Proofs.Dataset.Load
import SchemaKeeper.Proofs.Dataset.Records

/-!
# Clients that have been left behind

A client that holds a definition which is not stored any more cannot commit, since it finds nothing
to replace; where the collection of its root is gone it cannot save either.  What it still may do
is to delete, which drops what its own definition names.  While the definition is stored a commit
goes on with the collections that it knows.
-/
namespace SchemaKeeper

open Catalog Op Provision

/-- Nothing stands under an identifier under which no definition is stored. -/
theorem Catalog.Stocked.documentAt_eq_none {guarded : Prop} {c : Connection} {l : Ledger}
    {s : Supply} {catalog : Catalog} {id : Uuid} (h : catalog.Stocked guarded c l s)
    (hgone : c.stored? catalog id = none) : catalog.documentAt c.definitions id.text = none := by
  refine Option.eq_none_iff_forall_ne_some.2 fun document hdoc => ?_
  obtain ⟨d, rfl, ht, -⟩ := h.stored _ _ hdoc
  have hid : d.id = id := Uuid.text_injective (h.key_eq hdoc)
  subst hid
  rw [Stocked.stored?_of_documentAt h.keeps ht.writable hdoc] at hgone
  cases hgone

namespace Dataset
variable {guarded : Prop} {c : Connection} {ws ws' : Workspace} {l : Ledger} {t : Transaction}
  {d d' : Dataset} {held : Holding} {base : Schema} {cs : Collections} {r : Record}

/-- Without a stored definition a commit is refused, and changes nothing. -/
theorem commit_refused (ht : ws.transaction = none)
    (h : ws.store.catalog.Stocked guarded d.connection l ws.supply)
    (hheld : d.standing.holding? = some held)
    (hgone : d.connection.stored? ws.store.catalog held.definition.id = none) :
    ∃ e ws', commit d ws = .error e ws' ∧ ws'.store.catalog = ws.store.catalog := by
  cases hop : commit d ws with
  | error e ws' => exact ⟨e, ws', rfl, (commit_error ht hop).catalog⟩
  | ok d' ws' =>
    obtain ⟨held₀, held', live, hheld₀, -, ws₁, ws₂, hran⟩ := commit_ok hop
    rw [hheld] at hheld₀
    injection hheld₀ with hheld₀
    subst hheld₀
    obtain ⟨_, _, latest, seen, base, v, provision, hread, -⟩ := merge_ok rfl hran.work
    rw [hran.visible] at hread
    obtain ⟨document, _, _, hfound, -⟩ := readFrom_ok hread
    have hat := h.documentAt_eq_none hgone
    rw [← findOne_id h.keeps] at hat
    rw [show DatasetKey.field (.byId held.definition.id) = "_id" from rfl,
      show DatasetKey.text (.byId held.definition.id) = held.definition.id.text from rfl,
      hat] at hfound
    cases hfound

/-- A record is written only where the collection of the root is there. -/
theorem writeRecord_root (ht : ws.transaction = some t) (h : writeRecord cs r ws = .ok () ws') :
    ∃ root, cs.get? "" = some root ∧ ws.visible.collections.contains root = true := by
  obtain ⟨root, ws₁, hlift, h₁⟩ := bind_eq_ok.1 h
  obtain ⟨hroot, hws⟩ := lift_eq_ok.1 hlift
  subst hws
  obtain ⟨⟨⟩, ws₂, hparts, h₂⟩ := bind_eq_ok.1 h₁
  obtain ⟨hstays, hfills⟩ := writeParts_ok ht hparts
  obtain ⟨t₂, ht₂⟩ := hstays.transaction
  obtain ⟨answer, ws₃, hw, -⟩ := bind_eq_ok.1 h₂
  obtain ⟨-, state, hstate, -⟩ := replaceOne_ok (write_ok ht₂ hw).1
  exact ⟨root, collectionFor_eq_ok.1 hroot, hfills.contains root ▸
    Keyed.contains_iff.2 ⟨state, hstate⟩⟩

/-- Saving is refused, and changes nothing, or the collection of the root is there and only
collections of the definition are filled. -/
theorem saveRecord_refused_or (ht : ws.transaction = none)
    (hheld : d.standing.holding? = some held) (r : Record) :
    (∃ e ws', saveRecord d r ws = .error e ws' ∧ ws'.store.catalog = ws.store.catalog) ∨
      ∃ ws' root, saveRecord d r ws = .ok () ws' ∧
        held.definition.collections.get? "" = some root ∧
        ws.store.catalog.collections.contains root = true ∧
        Fills (· ∈ held.definition.collections.values) ws.store.catalog ws'.store.catalog := by
  cases hop : saveRecord d r ws with
  | error e ws' => exact .inl ⟨e, ws', rfl, (saveRecord_error ht hop).catalog⟩
  | ok _ ws' =>
    obtain ⟨held₀, hheld₀, ws₁, ws₂, hran⟩ := saveRecord_ok hop
    rw [hheld] at hheld₀
    injection hheld₀ with hheld₀
    subst hheld₀
    obtain ⟨root, hroot, hthere⟩ := writeRecord_root rfl hran.work
    exact .inr ⟨ws', root, rfl, hroot, hran.visible ▸ hthere, fills_of_ran hran⟩

/-- Where its definition is not stored a client drops, if anything, what its own definition
names. -/
theorem delete_refused_or (ht : ws.transaction = none)
    (h : ws.store.catalog.Stocked guarded c l ws.supply) (hf : ws.supply.Fits c.definitions)
    (hc : d.connection = c) (hheld : d.standing.holding? = some held)
    (htraced : held.definition.Traced guarded l ws.supply)
    (hgone : c.stored? ws.store.catalog held.definition.id = none) :
    (∃ e ws', delete d ws = .error e ws' ∧ ws'.store.catalog = ws.store.catalog) ∨
      ∃ d' ws' names, delete d ws = .ok d' ws' ∧ (∀ name ∈ names, held.definition.Names name) ∧
        Removes c held.definition.key names ws.store.catalog ws'.store.catalog := by
  cases hop : delete d ws with
  | error e ws' => exact .inl ⟨e, ws', rfl, (delete_error ht hop).catalog⟩
  | ok d' ws' =>
    obtain ⟨-, hremoves⟩ := delete_removes h hf hc hheld htraced hop
    rw [hgone] at hremoves
    exact .inr ⟨d', ws', _, rfl, fun name hn => (List.mem_append.1 hn).imp id id, hremoves⟩

/-! ## Collections that commits go on with -/

/-- A commit gives no path another collection than the one that is known for it. -/
theorem commit_collections (hheld : d.standing.holding? = some held)
    (h : ws.store.catalog.Stocked guarded d.connection l ws.supply)
    (hop : commit d ws = .ok d' ws') :
    ∃ held' latest, d'.standing = .attached held' ∧ held'.definition.id = held.definition.id ∧
      d.connection.stored? ws.store.catalog held.definition.id = some latest ∧
      ∀ path name name', held'.definition.collections.get? path = some name →
        (held.definition.collections.union latest.collections).get? path = some name' →
        name = name' := by
  obtain ⟨held₀, held', live, hheld₀, rfl, ws₁, ws₂, hran⟩ := commit_ok hop
  rw [hheld] at hheld₀
  injection hheld₀ with hheld₀
  subst hheld₀
  obtain ⟨ws₃, ws₄, latest, seen, base', v, provision, hread, -, -, hlaid, -, rfl, -⟩ :=
    merge_ok rfl hran.work
  rw [hran.visible] at hread
  obtain ⟨hlatest, hid, hstored⟩ := stored_of_readFrom h hread
  refine ⟨_, latest, rfl, rfl, hstored, fun path name name' hname hknown => ?_⟩
  rw [collections_committed hlaid.describes] at hname
  obtain ⟨n, hdefine, -⟩ := hlaid.define
  obtain ⟨f, hf, rfl, hfn⟩ := (Layout.collections_get?_iff hlaid.describes.ascending).1 hname
  rcases Layout.collection_of_define hdefine hf hfn with hsame | hnone
  · rw [hknown] at hsame
    injection hsame with hsame
    exact hsame.symm
  · rw [hknown] at hnone
    cases hnone

/-- What is loaded has no other collections than those that were stored. -/
theorem load_collections {key : DatasetKey} (hq : c.Quiet) (ht : ws.transaction = none)
    (h : ws.store.catalog.Stocked guarded c l ws.supply) (hop : load c key ws = .ok d ws') :
    ∃ held latest, d.standing = .attached held ∧
      c.stored? ws.store.catalog held.definition.id = some latest ∧
      ∀ path name name', held.definition.collections.get? path = some name →
        latest.collections.get? path = some name' → name = name' := by
  obtain ⟨d₀, ws₁, ws₂, i, hfrom, hu, -, -, hcommit, -⟩ := load_ok hq ht hop
  obtain ⟨held₀, hc, hstanding, -⟩ := readFrom_stocked h hfrom
  have hstocked : ws₁.store.catalog.Stocked guarded c l ws₁.supply :=
    hu.catalog ▸ h.mono hu.supply fun _ _ => rfl
  rw [stamped, hstanding] at hcommit
  obtain ⟨held, latest, hattached, hid, hlatest, hknown⟩ :=
    commit_collections rfl (hc.symm ▸ hstocked) hcommit
  rw [hc, hu.catalog] at hlatest
  refine ⟨held, latest, hattached, hid ▸ hlatest, fun path name name' hname hname' => ?_⟩
  exact hknown path name name' hname (by rw [Keyed.get?_union, hname']; rfl)

end Dataset
end SchemaKeeper
