import SchemaKeeper.Proofs.Dataset.Spared
import SchemaKeeper.Proofs.Session.Records
import SchemaKeeper.Proofs.Session.Ways

/-!
# Saving one record in a session

In a session in which records are saved that can be made, no document of a root collection has a
nameless member, so nothing refers to a document of the root.  A save then shows in the load of no
other record, whichever client loads it, unless the two have a document inside them in common.
-/
namespace SchemaKeeper

open Catalog Op

/-- No document in the collection has a nameless member. -/
def Catalog.NamedIn (name : String) (c : Catalog) : Prop :=
  c.AllIn (· = name) fun _ document => document.get? "" = none

theorem Catalog.namedIn_iff {name : String} {c : Catalog} : c.NamedIn name ↔
    ∀ key document, c.documentAt name key = some document → document.get? "" = none := by
  constructor
  · intro h key document hd
    obtain ⟨state, hs, hd⟩ := Option.bind_eq_some_iff.1 hd
    exact h name state rfl hs key document hd
  · rintro h _ state rfl hs key document hd
    exact h key document (Option.bind_eq_some_iff.2 ⟨state, hs, hd⟩)

/-- If the deed saves a record, it is one that can be made. -/
def Deed.SavesFormed : Deed → Prop
  | .act _ (.save _ r) => r.Formed
  | _ => True

namespace World
variable {guarded : Prop} {c : Connection} {l : Ledger} {w w₀ : World} {e : Deed}
  {deeds : List Deed} {name : String} {i : Nat} {x : Client} {r : Record} {ws : Workspace}

/-- In a collection that was made for root paths alone a deed leaves no document with a nameless
member, if there was none. -/
theorem does_namedIn (h : Steady guarded c l w) (ho : e.Over c) (he : e.SavesFormed)
    (hne : name ≠ c.definitions)
    (hroot : ∀ id path, l.Ascribes w.workspace.supply.ids w.workspace.supply.drawn name id path →
      path = "")
    (hn : w.workspace.store.catalog.NamedIn name) :
    (w.does e).workspace.store.catalog.NamedIn name := by
  have hkept : e.Saves (fun document => document.get? "" = none) →
      (w.does e).workspace.store.catalog.NamedIn name := fun hs =>
    does_preserves (fun _ hc => ⟨fun _ _ => trivial, hc⟩)
      (keptBy_allIn (fun hdef => hne hdef.symm) fun _ _ hdocument => hdocument) ho
      (Deed.uses_any ho) hs h.closed
      (fun i x hx => ⟨(h.clients i x hx).definitions, fun _ _ _ _ _ _ => trivial⟩) hn
  cases e with
  | assign i live => exact hkept trivial
  | act c' a =>
    cases a with
    | save i r =>
      have hgoes := does_goes ho h.closed
      generalize w.does _ = w' at hgoes
      cases hgoes with
      | stays unchanged => exact unchanged.catalog.symm ▸ hn
      | @save _ _ x _ ws client granted =>
        obtain ⟨held, hheld, -⟩ := Dataset.saveRecord_ok granted
        have htraced := (h.holds i x client held hheld).traced
        rw [namedIn_iff] at hn ⊢
        intro key document hd
        rcases Dataset.documents_of_saveRecord hheld granted name key with
          ⟨part, hpart, hname, -, hdoc⟩ | hsame
        · -- What is written here is written at the root, and so is the record itself.
          have hpath := hroot _ _ (htraced.live _ _ hname)
          rw [Dataset.eq_of_written he hpart hpath] at hdoc
          injection hdoc.symm.trans hd with hdoc
          exact hdoc ▸ he.get?_document
        · exact hn key document (hsame ▸ hd)
    | _ => exact hkept trivial

/-- Deeds leave no document with a nameless member in any collection that was made for a root
path. -/
theorem play_namedIn (ho : ∀ e ∈ deeds, e.Over c) (he : ∀ e ∈ deeds, e.SavesFormed)
    (h : Steady guarded c l w) (hg : guarded → ∀ e ∈ deeds, e.IsActOver c)
    (hf : (w.play deeds).workspace.supply.Fits c.definitions) :
    ∃ l', Carries guarded c l l' w (w.play deeds) ∧ ∀ name id,
      l'.Ascribes (w.play deeds).workspace.supply.ids (w.play deeds).workspace.supply.drawn name
        id "" → w.workspace.store.catalog.NamedIn name →
          (w.play deeds).workspace.store.catalog.NamedIn name := by
  induction deeds generalizing w l with
  | nil => exact ⟨l, ⟨fun _ _ => rfl, h, fun id d hd => .inl ⟨d, hd, .refl d⟩⟩, fun _ _ _ hn => hn⟩
  | cons e deeds ih =>
    obtain ⟨hover, hovers⟩ := List.forall_mem_cons.1 ho
    obtain ⟨hformed, hformeds⟩ := List.forall_mem_cons.1 he
    have hstep := does_commits hover h.closed
    have hlater := (play_commits hovers hstep.transaction).supply
    obtain ⟨l₁, htakes⟩ := does_takes hover (fun hguarded => hg hguarded e List.mem_cons_self) h
      (hf.of_later hlater)
    obtain ⟨l₂, hcarries, hnamed⟩ := ih hovers hformeds htakes.steady
      (fun hguarded e' he' => hg hguarded e' (List.mem_cons_of_mem _ he')) hf
    have hall := (htakes.carries h.stocked.keeps).trans hcarries hstep.supply hlater
    refine ⟨l₂, hall, fun name id ha hn => hnamed name id ha ?_⟩
    refine does_namedIn h hover hformed (hf.ne_definitions ha) (fun id' path ha' => ?_) hn
    have ha'' := ha'.mono (hstep.supply.trans hlater).drawn hall.agree
    rw [← (hstep.supply.trans hlater).ids] at ha''
    exact (hf.ascribes_unique ha'' ha).2

/-- What a save of a record leaves alone: every document that it does not write, the definitions,
the collections with their indexes and validators, and the answer to the load of any other record,
by whatever client, that has no document inside it in common with the saved one. -/
structure LeavesAlone (c : Connection) (w : World) (held : Holding) (r : Record) (ws : Workspace) :
    Prop where
  documents : ∀ name key, Dataset.Misses held.definition.collections r name key →
    ws.store.catalog.documentAt name key = w.workspace.store.catalog.documentAt name key
  definitions : ws.store.catalog.collections.get? c.definitions =
    w.workspace.store.catalog.collections.get? c.definitions
  furnished : w.workspace.store.catalog.FurnishedAs ws.store.catalog
  loads : ∀ j y id, w.clients j = some y →
    (∀ held', y.dataset.standing.holding? = some held' →
      held'.definition.id = held.definition.id →
        id ≠ r.id ∧ ¬ y.dataset.Shares w.workspace.store.catalog id r) →
    ∃ answer, y.dataset.loadRecord id w.workspace = outcome answer w.workspace ∧
      y.dataset.loadRecord id ws = outcome answer ws

/-- Whatever the clients of a session did: a client that saves one record leaves the others
alone. -/
theorem save_spares (hb : w₀.Blank) (ho : ∀ e ∈ deeds, e.Over c)
    (he : ∀ e ∈ deeds, e.SavesFormed) (hx : (w₀.play deeds).clients i = some x)
    (hr : r.Formed) (hop : x.dataset.saveRecord r (w₀.play deeds).workspace = .ok () ws)
    (hf : ws.supply.Fits c.definitions) :
    ∃ held, x.dataset.standing.holding? = some held ∧ LeavesAlone c (w₀.play deeds) held r ws := by
  obtain ⟨held, hheld, _, _, hran⟩ := Dataset.saveRecord_ok hop
  have hf := hf.of_later hran.supply_later
  have hstart : Steady False c (fun k => (w₀.workspace.supply.ids k, "")) w₀ :=
    steady_of_blank hb _
  obtain ⟨l, ⟨-, hsteady, -⟩, hnamed⟩ := play_namedIn ho he hstart False.elim hf
  have hempty : ∀ name, w₀.workspace.store.catalog.NamedIn name := fun _ _ _ _ hs =>
    absurd hs hb.get?_ne_some
  have hkeeps := hsteady.stocked.keeps
  have hlive := (hsteady.holds i x hx held hheld).traced.live
  have hfills := Dataset.fills_of_ran hran
  refine ⟨held, hheld, fun name key => Dataset.documentAt_of_saveRecord hheld hop,
    hfills.frame _ fun hin => ?_, Dataset.saveRecord_furnishedAs hop, fun j y id hy hother => ?_⟩
  · obtain ⟨path, hpath⟩ := Keyed.mem_values.1 hin
    exact hf.ne_definitions (hlive path _ hpath) rfl
  · have hlive' : ∀ held', y.dataset.standing.holding? = some held' → ∀ path name,
        held'.definition.collections.get? path = some name →
          l.Ascribes (w₀.play deeds).workspace.supply.ids (w₀.play deeds).workspace.supply.drawn
            name held'.definition.id path :=
      fun held' hheld' => (hsteady.holds j y hy held' hheld').traced.live
    have hsame := Dataset.recordIn_of_saveRecord (y := y.dataset) hkeeps hheld hr hop
      (fun held' hheld' path path' name hname hname' => ?_)
      (fun held' name document hheld' hname hfind => ?_) hother
    · refine ⟨y.dataset.recordIn id (w₀.play deeds).workspace.store.catalog, ?_, ?_⟩
      · rw [Dataset.loadRecord_eq_outcome, Workspace.visible_of_closed hsteady.closed]
      · rw [Dataset.loadRecord_eq_outcome, Workspace.visible_of_closed hran.closed, hsame]
    · obtain ⟨hid, hpath⟩ := hf.ascribes_unique (hlive path name hname)
        (hlive' held' hheld' path' name hname')
      exact ⟨hid.symm, hpath⟩
    · have hroot := hnamed name _ (hlive' held' hheld' "" name hname) (hempty name)
      rw [findOne_id hkeeps] at hfind
      exact namedIn_iff.1 hroot _ document hfind

section Sample

/-- A crate with boxes and one more as its lid. -/
def crateClass : DocClass :=
  .ofFields "Crate" [("boxes", some (.list (.document Layout.boxClass))),
    ("lid", some (.document Layout.boxClass))] []

def crateConnection : Connection := .plain (Registry.register crateClass .empty) .default

/-- A crate with a box. -/
def sampleCrate : Record :=
  ⟨Uuid.ofNat 1000, crateClass, .ofList [("boxes", .list ⟨"boxes", 0⟩
    [.value (.document (Uuid.ofNat 1001) "Box" [("corner", .float (.ofInt 1))])])]⟩

/-- A box of another dataset with the identifier of the box in the crate. -/
def namesakeBox : Record :=
  ⟨Uuid.ofNat 1001, Layout.boxClass, .ofList [("corner", .value (.float (.ofInt 2)))]⟩

/-- A crate whose lid has this identifier too, under its own path. -/
def liddedCrate : Record :=
  ⟨Uuid.ofNat 2000, crateClass, .ofList [("lid", .value
    (.document (Uuid.ofNat 1001) "Box" [("corner", .float (.ofInt 3))]))]⟩

/-- A client saves a crate in its dataset, and another one a box in its own. -/
def besideDeeds : List Deed :=
  [.create 0 "d" crateClass.rootSchema none false, .save 0 sampleCrate,
    .create 1 "e" Layout.boxClass.rootSchema none false, .save 1 namesakeBox].map
      (.act crateConnection)

/-- All fields of the document have names of more than three characters. -/
def hasLongNames : Json → Bool
  | .object members => (Record.ownMembers members).all fun m => decide (4 ≤ m.1.length)
  | _ => true

/-- A crate with a lid is saved beside a crate with a box and beside a box of another dataset, and
both are loaded as before. -/
theorem save_spares_sample :
    ∃ x y ws, (sampleWorld.play besideDeeds).clients 0 = some x ∧
      (sampleWorld.play besideDeeds).clients 1 = some y ∧
      x.dataset.saveRecord liddedCrate (sampleWorld.play besideDeeds).workspace = .ok () ws ∧
      ∀ p ∈ [(x.dataset, sampleCrate.id), (y.dataset, namesakeBox.id)],
        ∃ loaded, p.1.loadRecord p.2 (sampleWorld.play besideDeeds).workspace =
          .ok (some loaded) (sampleWorld.play besideDeeds).workspace ∧
            p.1.loadRecord p.2 ws = .ok (some loaded) ws := by
  have hcheck : ((sampleWorld.play besideDeeds).granted? 0 fun d => d.saveRecord liddedCrate).any
      (fun g => ((sampleWorld.play besideDeeds).clients 1).any fun y => g.2.2.supply.isFit &&
        (g.1.dataset.standing.holding?.all fun held =>
          (held.definition.collections.get? "").all fun name =>
            ((sampleWorld.play besideDeeds).workspace.store.catalog.findOne name "_id"
              (.string sampleCrate.id.text)).all hasLongNames) &&
        decide (y.dataset.standing.holding?.map (·.definition.id) ≠
          g.1.dataset.standing.holding?.map (·.definition.id)) &&
        [(g.1.dataset, sampleCrate.id), (y.dataset, namesakeBox.id)].all fun p =>
          (given? (p.1.loadRecord p.2 (sampleWorld.play besideDeeds).workspace)).any
            fun back => back.1.isSome) = true := by
    decide +kernel
  obtain ⟨g, hg, hcheck⟩ := (Option.any_eq_true _ _).1 hcheck
  obtain ⟨y, hy, hcheck⟩ := (Option.any_eq_true _ _).1 hcheck
  obtain ⟨hcheck, hloads⟩ := Bool.and_eq_true_iff.1 hcheck
  obtain ⟨hcheck, hapart⟩ := Bool.and_eq_true_iff.1 hcheck
  obtain ⟨hfit, hlong⟩ := Bool.and_eq_true_iff.1 hcheck
  obtain ⟨hx, hop⟩ := granted?_eq_some hg
  have hover : ∀ e ∈ besideDeeds, e.Over crateConnection :=
    over_acts (Connection.quiet_plain _ _) _
  have hcrate : sampleCrate.Formed := ⟨by decide +kernel, by decide +kernel⟩
  have hbox : namesakeBox.Formed := ⟨by decide +kernel, by decide +kernel⟩
  have hformed : ∀ e ∈ besideDeeds, e.SavesFormed :=
    List.forall_mem_cons.2 ⟨trivial, List.forall_mem_cons.2 ⟨hcrate,
      List.forall_mem_cons.2 ⟨trivial, List.forall_mem_singleton.2 hbox⟩⟩⟩
  obtain ⟨held, hheld, halone⟩ := save_spares ⟨rfl, rfl, fun _ => rfl⟩ hover hformed hx
    ⟨by decide +kernel, by decide +kernel⟩ hop (.of_isFit (by decide) hfit)
  refine ⟨g.1, y, g.2.2, hx, hy, hop, fun p hp => ?_⟩
  have hother : sampleCrate.id ≠ liddedCrate.id := by decide +kernel
  have hsame : ∃ answer, p.1.loadRecord p.2 (sampleWorld.play besideDeeds).workspace =
      outcome answer (sampleWorld.play besideDeeds).workspace ∧
        p.1.loadRecord p.2 g.2.2 = outcome answer g.2.2 := by
    rcases List.mem_cons.1 hp with rfl | hp
    · refine halone.loads 0 g.1 _ hx fun held' hheld' _ => ⟨hother, ?_⟩
      refine Dataset.not_shares_of_length (n := 4) (by decide +kernel)
        fun held' name members hheld' hname hfind m hm => ?_
      rw [hheld', Option.all_some, hname, Option.all_some, hfind, Option.all_some] at hlong
      exact of_decide_eq_true (List.all_eq_true.1 hlong m hm)
    · cases List.mem_singleton.1 hp
      refine halone.loads 1 y _ hy fun held' hheld' hid => absurd ?_ (of_decide_eq_true hapart)
      rw [hheld, hheld', Option.map_some, Option.map_some, hid]
  have hload := List.all_eq_true.1 hloads p hp
  obtain ⟨answer, hbefore, hafter⟩ := hsame
  rw [hbefore] at hload
  cases answer with
  | error e => cases hload
  | ok answer =>
    obtain ⟨loaded, rfl⟩ := Option.isSome_iff_exists.1 hload
    exact ⟨loaded, hbefore, hafter⟩

end Sample

end World
end SchemaKeeper
