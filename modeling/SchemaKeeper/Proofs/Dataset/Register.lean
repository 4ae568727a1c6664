import SchemaKeeper.Proofs.Dataset.Load

/-!
# The collection of definitions

The collection in which the definitions stand has no validator and no index but the one on names.
A definition that keeps its name is therefore always accepted there, since no other one has it.
-/
namespace SchemaKeeper

open Catalog Op Provision

/-- The collection has no validator, and no index but the one on the names of datasets. -/
structure Collection.IsRegister (state : Collection) : Prop where
  validator : state.validator = none
  indexes : ∀ i ∈ state.indexes, i = Connection.nameIndex

/-- A write that leaves the collection of definitions without validator and further indexes. -/
def Write.KeepsRegister (definitions : String) : Write → Prop
  | .createIndex name index => name = definitions → index = Connection.nameIndex
  | .setValidator name _ => name ≠ definitions
  | _ => True

namespace Catalog
variable {definitions : String} {catalog next : Catalog}

/-- The collection of definitions, if there is one, is a register. -/
def Registers (definitions : String) (catalog : Catalog) : Prop :=
  ∀ state, catalog.collections.get? definitions = some state → state.IsRegister

theorem Registers.congr (h : catalog.Registers definitions)
    (hc : next.collections.get? definitions = catalog.collections.get? definitions) :
    next.Registers definitions := fun state hs => h state (hc ▸ hs)

theorem Registers.perform {w : Write} (hw : w.KeepsRegister definitions) {answer : Bool}
    (hr : catalog.Registers definitions) (h : catalog.perform w = .ok (answer, next)) :
    next.Registers definitions := by
  intro state hs
  obtain hs | ⟨rfl, hmakes⟩ := kept_or_made h hs
  · exact hr state hs
  cases hmakes with
  | createCollection => exact ⟨rfl, fun i hi => absurd hi List.not_mem_nil⟩
  | createIndex found =>
    exact ⟨(hr _ found).validator, List.forall_mem_append.2
      ⟨(hr _ found).indexes, List.forall_mem_singleton.2 (hw rfl)⟩⟩
  | setValidator found => exact absurd rfl hw
  | insertOne found | replaceOne found | deleteOne found =>
    exact ⟨(hr _ found).validator, (hr _ found).indexes⟩

end Catalog

/-- A register accepts a document with a name that no other document in it has. -/
theorem Collection.IsRegister.accept {state : Collection} (h : state.IsRegister)
    {name id text : String} {document : Json} (hname : document.get? "name" = some (.string text))
    (hother : ∀ key other, state.documents.get? key = some other →
      other.get? "name" = some (.string text) → key = id) :
    state.accept name id document = .ok () := by
  have hclash : ∀ i ∈ state.indexes, ¬ (i.unique && state.clashes id document i) = true := by
    intro i hi hclash
    rw [h.indexes i hi] at hclash
    have hkey : Connection.nameIndex.keyOf? document = some [.string text] := by
      simp [Connection.nameIndex, Index.single, Index.keyOf?, hname]
    obtain ⟨-, hclash⟩ := Bool.and_eq_true_iff.1 hclash
    simp only [Collection.clashes, hkey, List.any_eq_true, Bool.and_eq_true, bne_iff_ne] at hclash
    obtain ⟨⟨key, other⟩, hmem, hne, hsame⟩ := hclash
    refine hne (hother key other (Keyed.mem_entries_iff.1 hmem) ?_)
    cases hget : other.get? "name" with
    | none => simp [Connection.nameIndex, Index.single, Index.keyOf?, hget] at hsame
    | some j =>
      simp only [Connection.nameIndex, Index.single, Index.keyOf?, hget, List.mapM_cons,
        List.mapM_nil, Option.pure_def, Option.bind_eq_bind, Option.bind_some,
        Collection.sameKey, Json.sameItems, Bool.and_true] at hsame
      rw [same_string.1 hsame]
  have hnone : (state.indexes.find? fun i => i.unique && state.clashes id document i) = none :=
    List.find?_eq_none.2 hclash
  simp only [Collection.accept, h.validator, hnone, pure_eq_ok]

/-! ## What the operations do to it -/

namespace Connection
variable {c : Connection} {ws ws' : Workspace} {t : Transaction}

theorem ensureDefinitions_registers (ht : ws.transaction = some t)
    (h : c.ensureDefinitions ws = .ok () ws') (hr : ws.visible.Registers c.definitions) :
    ws'.visible.Registers c.definitions := by
  have hindex : ∀ {ws₁ : Workspace} {t₁}, ws₁.transaction = some t₁ →
      (discard (Op.write (.createIndex c.definitions nameIndex)) : Op Refusal Unit) ws₁ =
        .ok () ws' → ws₁.visible.Registers c.definitions → ws'.visible.Registers c.definitions := by
    intro ws₁ t₁ ht₁ h hr
    obtain ⟨answer, ws₂, hw, hd⟩ := bind_eq_ok.1 h
    cases hd
    exact hr.perform (w := .createIndex c.definitions nameIndex) (fun _ => rfl) (write_ok ht₁ hw).1
  obtain ⟨catalog, ws₁, hc, h⟩ := bind_eq_ok.1 h
  have hrests := (observes_catalog.ok hc).2
  have ht₁ := hrests.transaction.trans ht
  rw [← hrests.visible] at hr
  split at h
  · obtain ⟨⟨⟩, ws₂, hw, h⟩ := bind_eq_ok.1 h
    obtain ⟨answer, ws₃, hw, hd⟩ := bind_eq_ok.1 hw
    cases hd
    obtain ⟨hperform, hstays, -⟩ := write_ok ht₁ hw
    obtain ⟨t₂, ht₂⟩ := hstays.transaction
    exact hindex ht₂ h (hr.perform (by trivial) hperform)
  · exact hindex ht₁ h hr

end Connection

theorem Op.Ran.registers {α : Type} {definitions : String} {work : Op Refusal α} {a : α}
    {ws ws₁ ws₂ ws' : Workspace} (h : Ran work a ws ws₁ ws₂ ws')
    (hr : ws.store.catalog.Registers definitions)
    (hw : ws₁.opened.visible.Registers definitions → ws₂.visible.Registers definitions) :
    ws'.store.catalog.Registers definitions := by
  rcases h.settles with ⟨heq, -⟩ | heq
  · exact heq ▸ hr
  · exact (hw (h.visible ▸ hr)).congr (by rw [heq])

/-- A schema that is laid out elsewhere leaves the collection of definitions alone. -/
theorem Provision.LaidOut.registers {definitions : String} {ids : Nat → Uuid} {known : Collections}
    {s : Schema} {drawn drawn' : Nat} {before after : Catalog} {p : Provision}
    (h : LaidOut ids known s drawn drawn' before after p) (hn : definitions ∉ p.collections.values)
    (hr : before.Registers definitions) : after.Registers definitions :=
  hr.congr (h.outfits.frame _ hn)

namespace Dataset
variable {guarded : Prop} {c : Connection} {ws ws' : Workspace} {t : Transaction} {l : Ledger}
  {d d' : Dataset} {held : Holding} {base : Schema}

theorem build_registers {name : String} {s : Schema} {mediaType : Option MediaType}
    {persistent : Bool} (ht : ws.transaction = some t)
    (h : build c name s mediaType persistent ws = .ok d ws')
    (hn : ∀ held, d.standing = .attached held →
      c.definitions ∉ held.definition.collections.values)
    (hr : ws.visible.Registers c.definitions) : ws'.visible.Registers c.definitions := by
  obtain ⟨⟨⟩, ws₁, hensure, h₁⟩ := bind_eq_ok.1 h
  have hr₁ := Connection.ensureDefinitions_registers ht hensure hr
  obtain ⟨t₁, ht₁⟩ := (Connection.ensureDefinitions_ok ht hensure).stays.transaction
  obtain ⟨found, ws₂, hfound, h₂⟩ := bind_eq_ok.1 h₁
  have hrests₂ := ((c.observes_hasDataset name).ok hfound).2
  split at h₂
  · cases h₂
  · obtain ⟨provision, ws₃, hmake, h₃⟩ := bind_eq_ok.1 h₂
    obtain ⟨hstays₃, hlaid⟩ := make_ok (hrests₂.transaction.trans ht₁) hmake
    obtain ⟨t₃, ht₃⟩ := hstays₃.transaction
    obtain ⟨live, ws₄, hlive, h₄⟩ := bind_eq_ok.1 h₃
    have hrests₄ := ((observes_recover _ _ _).ok hlive).2
    obtain ⟨id, ws₅, hid, h₅⟩ := bind_eq_ok.1 h₄
    obtain ⟨now, ws₆, hnow, h₆⟩ := bind_eq_ok.1 h₅
    have hrests := (hrests₄.trans (freshId_ok hid).2.2).trans (now_ok hnow).2.2
    obtain ⟨⟨⟩, ws₇, hw, h₇⟩ := bind_eq_ok.1 h₆
    obtain ⟨answer, ws₈, hw, hd⟩ := bind_eq_ok.1 hw
    cases hd
    cases h₇
    have hsorted := FieldDefinition.sorted_of_ascending hlaid.describes.ascending
    have hapart : c.definitions ∉ provision.collections.values := by
      have hin := hn _ rfl
      rwa [Definition.collections, Definition.new, hsorted] at hin
    refine Registers.perform (by trivial) ?_ (write_ok (hrests.transaction.trans ht₃) hw).1
    rw [hrests.visible]
    exact hlaid.registers hapart (hrests₂.visible.symm ▸ hr₁)

theorem createFrom_registers {name : String} {s : Schema} {mediaType : Option MediaType}
    {persistent : Bool} (h : ws.store.catalog.Stocked guarded c l ws.supply)
    (hf : ws'.supply.Fits c.definitions) (hr : ws.store.catalog.Registers c.definitions)
    (hop : createFrom c name s mediaType persistent ws = .ok d ws') :
    ws'.store.catalog.Registers c.definitions := by
  obtain ⟨l', held, k, -, -, hholds, -, -, -, -, -, hpersists⟩ := createFrom_stores h hf hop
  obtain ⟨-, ws₁, ws₂, hran⟩ := createFrom_ok hop
  refine hran.registers hr (build_registers rfl hran.work fun held' hstanding hin => ?_)
  rw [hpersists.standing] at hstanding
  injection hstanding with hstanding
  subst hstanding
  obtain ⟨path, ha⟩ := hholds.traced.ascribes (.inl hin)
  exact hf.ne_definitions ha rfl

theorem commit_registers (h : ws.store.catalog.Stocked guarded d.connection l ws.supply)
    (hf : ws'.supply.Fits d.connection.definitions) (hheld : d.standing.holding? = some held)
    (hh : d.Holds guarded l ws.supply base held)
    (hr : ws.store.catalog.Registers d.connection.definitions)
    (hop : commit d ws = .ok d' ws') : ws'.store.catalog.Registers d.connection.definitions := by
  obtain ⟨l', held', -, -, hholds', -, -, hpersists⟩ := commit_stores h hheld hh hop
  obtain ⟨held₀, held₁, live, hheld₀, rfl, ws₁, ws₂, hran⟩ := commit_ok hop
  refine hran.registers hr fun hr => ?_
  obtain ⟨ws₃, ws₄, latest, seen, base', v, provision, -, -, -, hlaid, -, rfl, -, hreplace⟩ :=
    merge_ok rfl hran.work
  have hstanding := hpersists.standing
  injection hstanding with hstanding
  subst hstanding
  have hapart : d.connection.definitions ∉ provision.collections.values := fun hin => by
    have hcollections : (committed held₀ latest provision).collections = provision.collections :=
      collections_committed hlaid.describes
    rw [← hcollections] at hin
    obtain ⟨path, ha⟩ := hholds'.traced.ascribes (.inl hin)
    exact hf.ne_definitions ha rfl
  exact (hlaid.registers hapart hr).perform (by trivial) hreplace

theorem load_registers {key : DatasetKey} (hq : c.Quiet) (ht : ws.transaction = none)
    (h : ws.store.catalog.Stocked guarded c l ws.supply) (hf : ws'.supply.Fits c.definitions)
    (hr : ws.store.catalog.Registers c.definitions) (hop : load c key ws = .ok d ws') :
    ws'.store.catalog.Registers c.definitions := by
  obtain ⟨d₀, ws₁, ws₂, i, hfrom, hu, -, hi, hcommit, hrests⟩ := load_ok hq ht hop
  obtain ⟨_, _, _, _, _, _, _, hran⟩ := commit_ok hcommit
  have hf₂ := hf.of_later hrests.supply
  obtain ⟨held, hc, hstanding, hholds, -⟩ := readFrom_stocked h hfrom
  obtain ⟨held', hstanding', hholds', -, hc', -⟩ := hholds.stamped hstanding
    ((hf₂.of_later hran.supply_later).writable i hi)
  have hc₀ : (d₀.stamped (ws₁.supply.clock i)).connection = c := hc'.trans hc
  have hstocked : ws₁.store.catalog.Stocked guarded (d₀.stamped (ws₁.supply.clock i)).connection l
      ws₁.supply := by
    rw [hc₀, hu.catalog]
    exact h.mono hu.supply fun _ _ => rfl
  have hregisters := commit_registers hstocked (hc₀.symm ▸ hf₂) (by rw [hstanding']; rfl)
    (hholds'.mono hu.supply fun _ _ => rfl) (by rw [hc₀, hu.catalog]; exact hr) hcommit
  rw [hc₀] at hregisters
  exact hrests.store.symm ▸ hregisters

theorem delete_registers (hr : ws.store.catalog.Registers d.connection.definitions)
    (hop : delete d ws = .ok d' ws') : ws'.store.catalog.Registers d.connection.definitions := by
  obtain ⟨held, -, -, ws₁, ws₂, hran⟩ := delete_ok hop
  refine hran.registers hr fun hr => ?_
  have hdrops : ∀ {names : List String} {before after : Catalog}, Drops names before after →
      before.Registers d.connection.definitions → after.Registers d.connection.definitions := by
    intro names before after hdrops hr state hs
    rw [hdrops] at hs
    split at hs
    · cases hs
    · exact hr state hs
  obtain ⟨stored, mid₁, mid₂, answer, hdrop₁, -, hdrop₂, hdelete⟩ := demolish_ok rfl hran.work
  exact (hdrops hdrop₂ (hdrops hdrop₁ hr)).perform (by trivial) hdelete

end Dataset
end SchemaKeeper
