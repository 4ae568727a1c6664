import SchemaKeeper.Proofs.Session.Sound

/-!
# Who owns the collections

Over all stored definitions together each collection is named once, by one path that uses it or as
retired, and what is named exists.  As long as no dataset is deleted every collection is named,
the collection of the definitions apart: no step loses one.
-/
namespace SchemaKeeper

open Catalog Op

namespace Definition
variable {guarded : Prop} {l : Ledger} {s : Supply} {d : Definition}

/-- The collections that a definition names, once for each path that uses one and once for each
time that one is retired. -/
def names (d : Definition) : List String :=
  d.fields.filterMap FieldDefinition.collection ++ d.retired

theorem Traced.mem_values (h : d.Traced guarded l s) {name : String} :
    name ∈ d.collections.values ↔ name ∈ d.fields.filterMap FieldDefinition.collection := by
  rw [Keyed.mem_values, List.mem_filterMap]
  constructor
  · rintro ⟨path, hp⟩
    obtain ⟨f, hf, -, hname⟩ := (Layout.collections_get?_iff h.ascending).1 hp
    exact ⟨f, hf, hname⟩
  · rintro ⟨f, hf, hname⟩
    exact ⟨f.path, (Layout.collections_get?_iff h.ascending).2 ⟨f, hf, rfl, hname⟩⟩

theorem Traced.mem_names (h : d.Traced guarded l s) {name : String} :
    name ∈ d.names ↔ d.Names name := by
  rw [names, List.mem_append, ← h.mem_values]
  rfl

/-- One definition names no collection twice. -/
theorem Traced.nodup_names (h : d.Traced guarded l s) {definitions : String}
    (hf : s.Fits definitions) : d.names.Nodup := by
  have hlive : ∀ f ∈ d.fields, ∀ name, f.collection = some name →
      l.Ascribes s.ids s.drawn name d.id f.path := fun f hmem name hname =>
    h.live _ _ ((Layout.collections_get?_iff h.ascending).2 ⟨f, hmem, rfl, hname⟩)
  refine List.nodup_append.2 ⟨?_, h.distinct, fun name hn name' hn' heq => ?_⟩
  · refine List.pairwise_filterMap.2 (h.ascending.imp_of_mem fun {f g} hf' hg hlt => ?_)
    rintro name hname name' hname' rfl
    -- Two paths of one name would be the path for which it was made.
    have hpath := (hf.ascribes_unique (hlive f hf' name hname) (hlive g hg name hname')).2
    exact absurd (hpath ▸ hlt) (String.lt_irrefl _)
  · exact h.apart name' hn' (h.mem_values.2 (heq ▸ hn))

theorem mapM_ofDocument {ds : List Definition} (h : ∀ d ∈ ds, d.Writable) :
    (ds.map document).mapM ofDocument = .ok ds := by
  induction ds with
  | nil => rfl
  | cons d ds ih =>
    obtain ⟨hd, hds⟩ := List.forall_mem_cons.1 h
    rw [List.map_cons, List.mapM_cons, ofDocument_document hd, ok_bind, ih hds, ok_bind]
    rfl

end Definition

namespace Catalog
variable {guarded : Prop} {c : Connection} {l l' : Ledger} {s : Supply} {catalog : Catalog}
  {revises : Uuid → String → Prop} {removes : Uuid → Prop} {ws ws' : Workspace}

/-- The stored definitions are those of the list; together they name each collection once, and the
collections that they name exist. -/
structure Owns (c : Connection) (catalog : Catalog) (ds : List Definition) : Prop where
  stored : (catalog.documents c.definitions).values.mapM Definition.ofDocument = .ok ds
  once : (ds.flatMap Definition.names).Nodup
  exist : ∀ name ∈ ds.flatMap Definition.names, catalog.collections.contains name = true

theorem exists_map_of_forall {α β : Type} {f : α → β} {p : α → Prop} :
    ∀ {bs : List β}, (∀ b ∈ bs, ∃ a, b = f a ∧ p a) → ∃ as : List α, bs = as.map f ∧ ∀ a ∈ as, p a
  | [], _ => ⟨[], rfl, nofun⟩
  | b :: bs, h => by
    obtain ⟨⟨a, hb, ha⟩, hbs⟩ := List.forall_mem_cons.1 h
    obtain ⟨as, rfl, has⟩ := exists_map_of_forall hbs
    exact ⟨a :: as, by rw [hb]; rfl, List.forall_mem_cons.2 ⟨ha, has⟩⟩

/-- The entries of the collection of definitions. -/
theorem Stocked.entries (h : catalog.Stocked guarded c l s) :
    ∃ ds : List Definition,
      (catalog.documents c.definitions).entries = ds.map (fun d => (d.key, d.document)) ∧
      ∀ d ∈ ds, d.Traced guarded l s ∧ ∀ name, d.Names name →
        catalog.collections.contains name = true := by
  refine exists_map_of_forall fun e he => ?_
  have hat : catalog.documentAt c.definitions e.1 = some e.2 := by
    rw [documentAt_eq]
    exact Keyed.mem_entries_iff.1 he
  obtain ⟨d, hd, ht, hexist⟩ := h.stored e.1 e.2 hat
  exact ⟨d, Prod.ext (h.key_eq (hd ▸ hat)).symm hd, ht, hexist⟩

/-- A catalog in order has each collection in one place. -/
theorem Stocked.owns (h : catalog.Stocked guarded c l s) (hf : s.Fits c.definitions) :
    ∃ ds, Owns c catalog ds ∧ ∀ id d, c.stored? catalog id = some d →
      ∀ name, d.Names name → name ∈ ds.flatMap Definition.names := by
  obtain ⟨ds, hentries, hds⟩ := h.entries
  have hordered : ds.Pairwise fun a b => a.key < b.key := by
    have ho : ((catalog.documents c.definitions).entries).Pairwise fun a b => a.1 < b.1 :=
      (catalog.documents c.definitions).ordered
    rw [hentries, List.pairwise_map] at ho
    exact ho
  refine ⟨ds, ⟨?_, ?_, ?_⟩, fun id d hd name hn => ?_⟩
  · rw [Keyed.values, hentries, List.map_map]
    exact Definition.mapM_ofDocument fun d hd => (hds d hd).1.writable
  · refine List.nodup_flatMap.2 ⟨fun d hd => (hds d hd).1.nodup_names hf,
      hordered.imp_of_mem fun {a b} ha hb hlt => ?_⟩
    intro name hna hnb
    obtain ⟨path, hpa⟩ := (hds a ha).1.ascribes ((hds a ha).1.mem_names.1 hna)
    obtain ⟨path', hpb⟩ := (hds b hb).1.ascribes ((hds b hb).1.mem_names.1 hnb)
    have hid := (hf.ascribes_unique hpa hpb).1
    rw [Definition.key, Definition.key, hid] at hlt
    exact String.lt_irrefl _ hlt
  · intro name hn
    obtain ⟨d, hd, hn⟩ := List.mem_flatMap.1 hn
    exact (hds d hd).2 name ((hds d hd).1.mem_names.1 hn)
  · obtain ⟨hdoc, -, ht, -⟩ := h.stored?_eq_some hd
    rw [documentAt_eq] at hdoc
    have hmem := Keyed.mem_entries_iff.2 hdoc
    rw [hentries] at hmem
    obtain ⟨d', hd', heq⟩ := List.mem_map.1 hmem
    have hread := congrArg (fun e => Definition.ofDocument e.2) heq
    simp only at hread
    rw [Definition.ofDocument_document ht.writable,
      Definition.ofDocument_document (hds d' hd').1.writable] at hread
    injection hread with hread
    exact List.mem_flatMap.2 ⟨d', hd', (hds d' hd').1.mem_names.2 (hread ▸ hn)⟩

/-- Every collection is named by a stored definition, the one that holds the definitions apart. -/
def Covers (c : Connection) (catalog : Catalog) : Prop :=
  ∀ name, catalog.collections.contains name = true → name = c.definitions ∨
    ∃ id d, c.stored? catalog id = some d ∧ d.Names name

theorem contains_congr {catalog catalog' : Catalog} {name : String}
    (h : catalog'.collections.get? name = catalog.collections.get? name) :
    catalog'.collections.contains name = catalog.collections.contains name := by
  rw [Keyed.contains, Keyed.contains, h]

/-- What storing a definition does leaves no collection unnamed, if the definition names what the
one named that was stored before. -/
theorem Covers.stores {d : Definition} {before after : Catalog} (h : Covers c before)
    (hb : before.Keeps) (ha : after.Keeps) (hw : d.Writable) (hs : Stores c d before after)
    (hd : ∀ latest, c.stored? before d.id = some latest →
      ∀ name, latest.Names name → d.Names name) : Covers c after := by
  intro name hname
  have hhere : ∀ {name}, d.Names name → ∃ id d, c.stored? after id = some d ∧ d.Names name :=
    fun hn => ⟨d.id, d, by rw [hs.stored? hb ha hw, if_pos rfl], hn⟩
  by_cases hdef : name = c.definitions
  · exact .inl hdef
  by_cases hlive : name ∈ d.collections.values
  · exact .inr (hhere (.inl hlive))
  rw [contains_congr (hs.frame name hdef hlive)] at hname
  rcases h name hname with hdef | ⟨id, d₀, hd₀, hn⟩
  · exact .inl hdef
  · by_cases hid : d.id = id
    · subst hid
      exact .inr (hhere (hd d₀ hd₀ name hn))
    · exact .inr ⟨id, d₀, by rw [hs.stored? hb ha hw, if_neg hid, hd₀], hn⟩

/-- A step that removes no definition leaves no collection unnamed. -/
theorem Covers.effect (h : Covers c ws.store.catalog)
    (he : Effect guarded c revises removes l l' ws ws') (hno : ∀ id, ¬ removes id)
    (hs : ws.store.catalog.Stocked guarded c l ws.supply) (hw : ws.Commits ws')
    (hf : ws'.supply.Fits c.definitions) : Covers c ws'.store.catalog := by
  have hkeeps := hw.keeps hs.keeps
  cases he with
  | nothing same => exact same ▸ h
  | creates d k traced stores stocked le lt id =>
    refine h.stores hs.keeps hkeeps traced.writable stores fun latest hlatest => ?_
    obtain ⟨-, hid, ht, -⟩ := hs.stored?_eq_some hlatest
    exact absurd (hid.trans id) (ht.ne_fresh hw.supply hf le lt)
  | revises d latest traced stores stocked stored follows =>
    refine h.stores hs.keeps hkeeps traced.writable stores fun latest' hlatest => ?_
    rw [stored] at hlatest
    injection hlatest with hlatest
    exact hlatest ▸ follows.keeps
  | removes id names ascribes removed meant => exact absurd meant (hno id)
  | fills p filled apart =>
    intro name hname
    rw [filled.contains] at hname
    refine (h name hname).imp_right fun ⟨id, d, hd, hn⟩ => ⟨id, d, ?_, hn⟩
    rw [filled.stored? hs.keeps hkeeps apart, hd]

end Catalog

/-- The deed deletes a dataset. -/
def Deed.IsDeletion : Deed → Prop
  | .act _ (.delete _) => True
  | _ => False

theorem Deed.not_removes {e : Deed} (h : ¬ e.IsDeletion) (w : World) (id : Uuid) :
    ¬ e.Removes w id := by
  intro hr
  cases e with
  | assign i live => exact hr
  | act c a =>
    cases a with
    | delete i => exact h trivial
    | _ => exact hr

namespace World
variable {guarded : Prop} {c : Connection} {l : Ledger} {w w₀ : World} {deeds : List Deed}

/-- Deeds without deletions leave no collection unnamed. -/
theorem play_covers (ho : ∀ e ∈ deeds, e.Over c) (hg : guarded → ∀ e ∈ deeds, e.IsActOver c)
    (hno : ∀ e ∈ deeds, ¬ e.IsDeletion) (h : Steady guarded c l w)
    (hf : (w.play deeds).workspace.supply.Fits c.definitions)
    (hc : Covers c w.workspace.store.catalog) :
    Covers c (w.play deeds).workspace.store.catalog := by
  induction deeds generalizing w l with
  | nil => exact hc
  | cons e deeds ih =>
    obtain ⟨he, hrest⟩ := List.forall_mem_cons.1 ho
    obtain ⟨hne, hno⟩ := List.forall_mem_cons.1 hno
    have hstep := does_commits he h.closed
    have hf₁ := hf.of_later (play_commits hrest hstep.transaction).supply
    obtain ⟨l₁, htakes⟩ :=
      does_takes he (fun hguarded => hg hguarded e List.mem_cons_self) h hf₁
    exact ih hrest (fun hguarded e' he' => hg hguarded e' (List.mem_cons_of_mem _ he')) hno
      htakes.steady hf (hc.effect htakes.effect (e.not_removes hne w) h.stocked hstep hf₁)

/-- In a session that begins with an empty store each collection belongs to one place: over all
stored definitions together it is named once, by a path that uses it or as retired, and it exists.
If no dataset was deleted, every collection belongs somewhere. -/
theorem play_owns (hb : w₀.Blank) (ho : ∀ e ∈ deeds, e.Over c)
    (hf : (w₀.play deeds).workspace.supply.Fits c.definitions) :
    ∃ ds, Owns c (w₀.play deeds).workspace.store.catalog ds ∧
      ((∀ e ∈ deeds, ¬ e.IsDeletion) → ∀ name,
        (w₀.play deeds).workspace.store.catalog.collections.contains name = true →
          name = c.definitions ∨ name ∈ ds.flatMap Definition.names) := by
  have hsteady : Steady False c (fun k => (w₀.workspace.supply.ids k, "")) w₀ :=
    steady_of_blank hb _
  obtain ⟨l, -, hsteady', -⟩ := play_carries ho False.elim hsteady hf
  obtain ⟨ds, howns, hall⟩ := hsteady'.stocked.owns hf
  refine ⟨ds, howns, fun hno name hname => ?_⟩
  have hcovers : Covers c w₀.workspace.store.catalog := by
    intro name hname
    obtain ⟨state, hstate⟩ := Keyed.contains_iff.1 hname
    exact absurd hstate hb.get?_ne_some
  rcases play_covers ho False.elim hno hsteady hf hcovers name hname with hdef | ⟨id, d, hd, hn⟩
  · exact .inl hdef
  · exact .inr (hall id d hd name hn)

section Sample
open Layout

/-- Two datasets and a client that is behind: it commits after another one has put a collection
into use, and retires one itself. -/
def mixedActs : List Act :=
  [.create 0 "d" sampleClass.rootSchema none false, .read 1 (.byName "d"),
    .addField 0 "cover" (.document boxClass), .commit 0,
    .create 2 "e" boxClass.rootSchema none false, .removeField 1 "boxes", .commit 1]

theorem play_owns_mixed :
    ∃ ds, Owns sampleConnection
        (sampleWorld.play (mixedActs.map (.act sampleConnection))).workspace.store.catalog ds ∧
      ∀ name, (sampleWorld.play
          (mixedActs.map (.act sampleConnection))).workspace.store.catalog.collections.contains
            name = true →
        name = sampleConnection.definitions ∨ name ∈ ds.flatMap Definition.names := by
  have hf : (sampleWorld.play (mixedActs.map (.act sampleConnection))).workspace.supply.Fits
      sampleConnection.definitions := .of_isFit (by decide) (by decide +kernel)
  have hno : ∀ e ∈ mixedActs.map (Deed.act sampleConnection), ¬ e.IsDeletion := by
    intro e he
    simp only [mixedActs, List.map_cons, List.map_nil, List.mem_cons, List.not_mem_nil,
      or_false] at he
    rcases he with rfl | rfl | rfl | rfl | rfl | rfl | rfl <;> exact id
  have howns := @play_owns sampleConnection sampleWorld (mixedActs.map (.act sampleConnection))
    ⟨rfl, rfl, fun _ => rfl⟩ (over_acts (Connection.quiet_plain _ _) mixedActs) hf
  exact howns.imp fun ds h => ⟨h.1, h.2 hno⟩

end Sample

end World
end SchemaKeeper
