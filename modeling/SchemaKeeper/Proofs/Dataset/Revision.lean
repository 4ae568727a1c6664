import SchemaKeeper.Proofs.Dataset.Backed
import SchemaKeeper.Proofs.Dataset.Load

/-!
# How a stored definition is revised

A commit stores what its client holds of a definition, apart from the fields and the names that are
no longer used: those it makes of the stored definition.  A path keeps the collection that the
stored definition has for it; if there is none, it gets the one that the client knows, and else a
new one.  To load a dataset is to commit the stored definition with the time of loading.
-/
namespace SchemaKeeper

open Catalog Op Provision

namespace Definition

/-- What a dataset was created with: all of its definition that no commit and no loading touches. -/
def origin (d : Definition) : Definition :=
  { d with fields := [], retired := [], lastLoadedAt := d.createdAt }

theorem origin_eq_iff {d d' : Definition} : d'.origin = d.origin ↔ d' =
    { d with fields := d'.fields, retired := d'.retired, lastLoadedAt := d'.lastLoadedAt } := by
  obtain ⟨id, name, created, loaded, fields, mediaType, persistent, root, version, retired⟩ := d
  obtain ⟨id', name', created', loaded', fields', mediaType', persistent', root', version',
    retired'⟩ := d'
  simp only [origin, Definition.mk.injEq, true_and, and_true]
  constructor
  · rintro ⟨rfl, rfl, rfl, -, rfl, rfl, rfl, rfl⟩
    exact ⟨rfl, rfl, rfl, rfl, rfl, rfl, rfl⟩
  · rintro ⟨rfl, rfl, rfl, rfl, rfl, rfl, rfl⟩
    exact ⟨rfl, rfl, rfl, rfl, rfl, rfl, rfl, rfl⟩

/-- The stored definition `latest` is replaced by `next`, in a commit of `own` that draws
identifiers from `lo` up to `hi`. -/
structure Revises (ids : Nat → Uuid) (lo hi : Nat) (own latest next : Definition) : Prop where
  origin : next.origin = own.origin
  lastLoadedAt : next.lastLoadedAt = own.lastLoadedAt
  allotted : ∀ path name, next.collections.get? path = some name →
    latest.collections.get? path = some name ∨
      latest.collections.get? path = none ∧ (own.collections.get? path = some name ∨
        own.collections.get? path = none ∧
          ∃ k className, lo ≤ k ∧ k < hi ∧ name = Layout.collectionName className (ids k))

theorem Revises.id {ids : Nat → Uuid} {lo hi : Nat} {own latest next : Definition}
    (h : Revises ids lo hi own latest next) : next.id = own.id := by
  have hid := congrArg Definition.id h.origin
  exact hid

theorem Revises.mono {ids : Nat → Uuid} {lo hi lo' hi' : Nat} {own latest next : Definition}
    (h : Revises ids lo hi own latest next) (hlo : lo' ≤ lo) (hhi : hi ≤ hi') :
    Revises ids lo' hi' own latest next := by
  refine ⟨h.origin, h.lastLoadedAt, fun path name hname => ?_⟩
  rcases h.allotted path name hname with
    hkept | ⟨hnone, hown | ⟨hunknown, k, className, hk, hk', heq⟩⟩
  · exact .inl hkept
  · exact .inr ⟨hnone, .inl hown⟩
  · exact .inr ⟨hnone, .inr ⟨hunknown, k, className, by omega, by omega, heq⟩⟩

end Definition

/-- A path of a provision has the collection that was known for it, or a new one. -/
theorem Provision.LaidOut.allotted {ids : Nat → Uuid} {known : Collections} {s : Schema}
    {lo hi : Nat} {before after : Catalog} {p : Provision}
    (h : LaidOut ids known s lo hi before after p) {path name : String}
    (hname : p.collections.get? path = some name) :
    known.get? path = some name ∨ known.get? path = none ∧
      ∃ k className, lo ≤ k ∧ k < hi ∧ name = Layout.collectionName className (ids k) := by
  obtain ⟨n, hdefine, hn⟩ := h.define
  obtain ⟨-, owner, hall⟩ := Layout.define_ok hdefine
  obtain ⟨d, hd, rfl, hcollection⟩ :=
    (Layout.collections_get?_iff h.describes.ascending).1 hname
  obtain ⟨e, -, hpath, t, -, -, ⟨-, hnone⟩ | ⟨k, name', -, hsome, hk⟩⟩ :=
    Layout.exists_of_mem_right hall hd
  · rw [hcollection] at hnone
    cases hnone
  · rw [hcollection] at hsome
    injection hsome with hsome
    subst hsome
    rw [hpath]
    rcases hk with hk | ⟨hunknown, j, hlo, hhi, heq, -⟩
    · exact .inl hk
    · exact .inr ⟨hunknown, j, k.name, hlo, by omega, heq⟩

namespace Dataset
variable {guarded : Prop} {c : Connection} {ws ws' : Workspace} {l : Ledger} {d d' : Dataset}
  {held : Holding} {key : DatasetKey}

theorem revises_committed {ids : Nat → Uuid} {s : Schema} {lo hi : Nat} {before after : Catalog}
    {latest : Definition} {provision : Provision}
    (h : LaidOut ids (held.definition.collections.union latest.collections) s lo hi before after
      provision) :
    Definition.Revises ids lo hi held.definition latest (committed held latest provision) := by
  refine ⟨rfl, rfl, fun path name hname => ?_⟩
  rw [collections_committed h.describes] at hname
  rcases h.allotted hname with hknown | ⟨hunknown, hnew⟩
  · rw [Keyed.get?_union, Option.or_eq_some_iff] at hknown
    rcases hknown with hkept | ⟨hnone, hown⟩
    · exact .inl hkept
    · exact .inr ⟨hnone, .inl hown⟩
  · rw [Keyed.get?_union, Option.or_eq_none_iff] at hunknown
    exact .inr ⟨hunknown.1, .inr ⟨hunknown.2, hnew⟩⟩

/-- A commit revises the stored definition with the one that its client holds. -/
theorem commit_revises (h : ws.store.catalog.Stocked guarded d.connection l ws.supply)
    (hheld : d.standing.holding? = some held) (hop : commit d ws = .ok d' ws') :
    ∃ held' latest, d'.standing = .attached held' ∧
      d.connection.stored? ws.store.catalog held.definition.id = some latest ∧
      Definition.Revises ws.supply.ids ws.supply.drawn ws'.supply.drawn held.definition latest
        held'.definition := by
  obtain ⟨held₀, held', live, hheld₀, rfl, ws₁, ws₂, hran⟩ := commit_ok hop
  rw [hheld] at hheld₀
  injection hheld₀ with hheld₀
  subst hheld₀
  obtain ⟨ws₃, ws₄, latest, seen, base, v, provision, hread, -, hrests, hlaid, -, rfl, hdrawn, -⟩ :=
    merge_ok rfl hran.work
  rw [hran.visible] at hread
  obtain ⟨hlatest, hid, hstored⟩ := stored_of_readFrom h hread
  have hopened : ws.supply.Later ws₁.opened.supply := hran.start.supply
  have hrevises := revises_committed hlaid
  rw [hopened.ids] at hrevises
  exact ⟨_, latest, rfl, hstored, hrevises.mono (hopened.trans hrests.supply).drawn
    (Nat.le_trans hdrawn hran.supply.drawn)⟩

/-- A commit without edits gives no path a collection that the stored definition has none for. -/
theorem Replays.collections_of_unedited {before : Catalog} {s : Supply} {live : Schema}
    {held' : Holding} {latest : Definition} (hr : Replays c live live held held' before)
    (h : before.Stocked guarded c l s) (hf : s.Fits c.definitions) (hb : before.Backed c)
    (hlatest : c.stored? before held.definition.id = some latest) {path name : String}
    (hname : held'.definition.collections.get? path = some name) :
    latest.collections.get? path ≠ none := by
  intro hnone
  obtain ⟨hdoc, hid, ht, -⟩ := h.stored?_eq_some hlatest
  obtain ⟨schema, v, hdescribes, hvalidators, hinstalls⟩ := hb _ _ hlatest
  obtain ⟨seen, hseen, hdescribes', -⟩ := hr.seen
  rw [← hid, readFrom_stored h.keeps ht.writable hdoc, ofDefinition] at hseen
  obtain ⟨x, hx, rfl⟩ := map_eq_ok_iff.1 hseen
  obtain ⟨live', hschema, hlive⟩ := bind_eq_ok_iff.1 hx
  cases hlive
  have hspeak : Layout.Speak schema latest.collections
      (loadedValidators before latest.collections) := fun name rule hrule =>
    Layout.validators_speak hvalidators name rule (Layout.get?_loaded hvalidators hinstalls hrule)
  obtain ⟨f, hmem, rfl, hcollection⟩ :=
    (Layout.collections_get?_iff hdescribes'.ascending).1 hname
  obtain ⟨t, htype, -, hnest⟩ := hdescribes'.sound f hmem
  rw [typeAt_congr (Delta.get?_apply_of_eq rfl)] at htype
  have hplain := Layout.nested?_of_schema hdescribes (hf.apart ht.live) hspeak hschema hnone htype
  rw [hnest.2 hplain] at hcollection
  cases hcollection

/-- Loading revises the stored definition with itself at a time that is read meanwhile, and gives
no path a new collection. -/
theorem load_revises (hq : c.Quiet) (ht : ws.transaction = none)
    (h : ws.store.catalog.Stocked guarded c l ws.supply) (hf : ws'.supply.Fits c.definitions)
    (hb : ws.store.catalog.Backed c) (hop : load c key ws = .ok d ws') :
    ∃ held latest k, d.standing = .attached held ∧
      c.stored? ws.store.catalog held.definition.id = some latest ∧
      ws.supply.read ≤ k ∧ k < ws'.supply.read ∧
      Definition.Revises ws.supply.ids ws.supply.drawn ws'.supply.drawn
        { latest with lastLoadedAt := ws.supply.clock k } latest held.definition ∧
      ∀ path name, held.definition.collections.get? path = some name →
        latest.collections.get? path = some name := by
  obtain ⟨d₀, ws₁, ws₂, k, hfrom, hu, hk, hk', hcommit, hrests⟩ := load_ok hq ht hop
  obtain ⟨_, _, _, _, _, _, _, hran⟩ := commit_ok hcommit
  have hlater := hran.supply_later
  have hf₁ := (hf.of_later hrests.supply).of_later hlater
  obtain ⟨held₀, hc, hstanding, hholds, hdoc, -⟩ := readFrom_stocked h hfrom
  obtain ⟨held₁, hstanding₁, hholds₁, hdefinition, hc₁, hlive⟩ :=
    hholds.stamped hstanding (hf₁.writable k hk')
  have hheld₁ : (d₀.stamped (ws₁.supply.clock k)).standing.holding? = some held₁ := by
    rw [hstanding₁]
    rfl
  have hc₁ : (d₀.stamped (ws₁.supply.clock k)).connection = c := hc₁.trans hc
  have hstocked : ws₁.store.catalog.Stocked guarded c l ws₁.supply := by
    rw [hu.catalog]
    exact h.mono hu.supply fun _ _ => rfl
  obtain ⟨held, latest, hstanding₂, hlatest, hrevises⟩ :=
    commit_revises (hc₁.symm ▸ hstocked) hheld₁ hcommit
  obtain ⟨-, held₂, -, -, -, hreplays, -, hpersists⟩ := commit_stores (hc₁.symm ▸ hstocked) hheld₁
    (hholds₁.mono hu.supply fun _ _ => rfl) hcommit
  have hsame := hpersists.standing
  rw [hstanding₂] at hsame
  injection hsame with hsame
  subst hsame
  have hnew : ∀ path name, held.definition.collections.get? path = some name →
      latest.collections.get? path ≠ none := fun path name =>
    (hc₁ ▸ hlive ▸ hreplays).collections_of_unedited hstocked hf₁ (hu.catalog ▸ hb)
      (hc₁ ▸ hlatest)
  have hid : held₁.definition.id = held₀.definition.id := by rw [hdefinition]
  have hstored := Stocked.stored?_of_documentAt h.keeps hholds.traced.writable hdoc
  rw [hc₁, hu.catalog, hid, hstored] at hlatest
  injection hlatest with hlatest
  subst hlatest
  rw [hdefinition, hu.supply.ids, hu.supply.clock] at hrevises
  have hsame : held.definition.id = held₀.definition.id := hrevises.id
  refine ⟨held, held₀.definition, k, hstanding₂, hsame ▸ hstored, hk, ?_,
    hrevises.mono hu.supply.drawn hrests.supply.drawn, fun path name hname => ?_⟩
  · exact Nat.lt_of_lt_of_le hk' (Nat.le_trans hlater.read hrests.supply.read)
  · rcases hrevises.allotted path name hname with hkept | ⟨hnone, -⟩
    · exact hkept
    · exact absurd hnone (hnew path name hname)

/-- A dataset that is created was last loaded at a time that is read meanwhile. -/
theorem createFrom_dated {name : String} {s : Schema} {mediaType : Option MediaType}
    {persistent : Bool} (hop : createFrom c name s mediaType persistent ws = .ok d ws') :
    ∃ held k, d.standing = .attached held ∧ k < ws'.supply.read ∧
      held.definition.lastLoadedAt = ws'.supply.clock k := by
  obtain ⟨-, ws₁, ws₂, hran⟩ := createFrom_ok hop
  obtain ⟨_, _, provision, _, _, k, -, -, -, -, -, hk, rfl, -, -, hstanding, -⟩ :=
    build_ok rfl hran.work
  refine ⟨_, k, hstanding, Nat.lt_of_lt_of_le hk hran.supply.read, ?_⟩
  show ws₁.opened.supply.clock k = ws'.supply.clock k
  rw [hran.supply_later.clock, ← hran.start.supply.clock]
  rfl

end Dataset
end SchemaKeeper
