import SchemaKeeper.Proofs.Dataset.Acceptance
import SchemaKeeper.Proofs.Dataset.Effect
import SchemaKeeper.Proofs.Record.Reread

/-!
# A saved record is loaded

Under each name and identifier stands what was written there last.  A record is written last of all,
and documents of one identifier under one path are equal, so each document inside a saved record
stands in the catalog and the record is read back.
-/
namespace SchemaKeeper

open Catalog Op

namespace Catalog

theorem documentAt_replaceOne {a b : Catalog} {name id : String} {document : Json} {answer : Bool}
    (h : a.perform (.replaceOne name id document true) = .ok (answer, b)) (name' id' : String) :
    b.documentAt name' id' =
      if name = name' ∧ id = id' then some document else a.documentAt name' id' := by
  obtain ⟨-, state, hs, ⟨-, -, -, rfl⟩ | ⟨-, hfalse, -⟩⟩ := replaceOne_ok h
  · by_cases hn : name = name'
    · subst hn
      rw [documentAt_insert hs]
      simp
    · rw [documentAt, get?_setCollection, if_neg hn, documentAt, if_neg fun h => hn h.1]
  · cases hfalse

end Catalog

namespace Dataset
variable {ws ws' : Workspace} {t : Transaction} {cs : Collections} {r : Record}

/-- What parts that were written one after the other leave of a catalog. -/
structure Wrote (cs : Collections) (parts : List Part) (before after : Catalog) : Prop where
  paths : ∀ part ∈ parts, ∃ name, cs.get? part.path = some name
  documents : ∀ name id,
    (∃ part ∈ parts, cs.get? part.path = some name ∧ part.id.text = id ∧
      after.documentAt name id = some part.document) ∨
    after.documentAt name id = before.documentAt name id ∧
      ∀ part ∈ parts, cs.get? part.path = some name → part.id.text ≠ id

theorem Wrote.cons {part : Part} {parts : List Part} {a b c : Catalog} {name : String}
    {answer : Bool} (hn : cs.get? part.path = some name)
    (h : a.perform (.replaceOne name part.id.text part.document true) = .ok (answer, b))
    (hw : Wrote cs parts b c) : Wrote cs (part :: parts) a c := by
  refine ⟨List.forall_mem_cons.2 ⟨⟨name, hn⟩, hw.paths⟩, fun name' id' => ?_⟩
  rcases hw.documents name' id' with ⟨later, hlater, hpath, hid, hdoc⟩ | ⟨hdoc, hnone⟩
  · exact .inl ⟨later, List.mem_cons_of_mem _ hlater, hpath, hid, hdoc⟩
  · rw [documentAt_replaceOne h] at hdoc
    by_cases hhere : name = name' ∧ part.id.text = id'
    · rw [if_pos hhere] at hdoc
      exact .inl ⟨part, List.mem_cons_self, hhere.1 ▸ hn, hhere.2, hdoc⟩
    · rw [if_neg hhere] at hdoc
      refine .inr ⟨hdoc, List.forall_mem_cons.2 ⟨fun hpath hid => hhere ⟨?_, hid⟩, hnone⟩⟩
      rw [hn] at hpath
      injection hpath

theorem Puts.wrote {parts : List Part} {a b : Catalog} (h : Puts cs parts a b) :
    Wrote cs parts a b := by
  induction parts generalizing a with
  | nil =>
    cases h
    exact ⟨List.forall_mem_nil _, fun _ _ => .inr ⟨rfl, List.forall_mem_nil _⟩⟩
  | cons part rest ih =>
    obtain ⟨name, answer, next, hname, hperform, h⟩ := h
    exact .cons hname hperform (ih h)

/-- In the place of each part stands one of them with its path and its identifier. -/
theorem Wrote.stands {parts : List Part} {before after : Catalog}
    (h : Wrote cs parts before after) (ha : cs.Apart) {part : Part} (hp : part ∈ parts) :
    ∃ name, cs.get? part.path = some name ∧ ∃ same ∈ parts, same.path = part.path ∧
      same.id = part.id ∧ after.documentAt name part.id.text = some same.document := by
  obtain ⟨name, hname⟩ := h.paths part hp
  refine ⟨name, hname, ?_⟩
  rcases h.documents name part.id.text with ⟨same, hsame, hpath, hid, hdoc⟩ | ⟨-, hnone⟩
  · exact ⟨same, hsame, ha _ _ name hpath hname, Uuid.text_injective hid, hdoc⟩
  · exact absurd rfl (hnone part hp hname)

/-- A written record stands at the root, and each document inside it in the collection of its
path. -/
theorem Puts.documents {a b : Catalog} (h : Puts cs r.written a b) (ha : cs.Apart)
    (hr : ∀ p ∈ r.parts, p.path ≠ "") :
    ∃ root, cs.get? "" = some root ∧ b.documentAt root r.id.text = some r.document ∧
      ∀ part ∈ r.parts, ∃ name, cs.get? part.path = some name ∧
        ∃ same ∈ r.parts, same.path = part.path ∧ same.id = part.id ∧
          b.documentAt name part.id.text = some same.document := by
  have hroot : (⟨"", r.id, r.document⟩ : Part) ∈ r.written := by simp [Record.written]
  obtain ⟨root, hname, same, hsame, hpath, -, hdoc⟩ := h.wrote.stands ha hroot
  refine ⟨root, hname, ?_, fun part hpart => ?_⟩
  · rcases List.mem_append.1 hsame with hsame | hsame
    · exact absurd hpath (hr same hsame)
    · rwa [List.mem_singleton.1 hsame] at hdoc
  · obtain ⟨name, hname, same, hsame, hpath, hid, hdoc⟩ :=
      h.wrote.stands ha (List.mem_append_left _ hpart)
    refine ⟨name, hname, same, (List.mem_append.1 hsame).resolve_right fun hlast => ?_, hpath, hid,
      hdoc⟩
    rw [List.mem_singleton.1 hlast] at hpath
    exact hr part hpart hpath.symm

/-- A document is committed as it was written, or as what is the same. -/
theorem exists_committed {before working committed : Catalog} {name id : String} {j j' : Json}
    (hs : Settles before working committed) (hj : working.documentAt name id = some j)
    (hsame : j.same j' = true) :
    ∃ stored, committed.documentAt name id = some stored ∧ stored.same j' = true := by
  rcases hs.keptAs.documentAt name id with hcommitted | ⟨a, b, ha, hb, hab⟩
  · exact ⟨j, hcommitted.trans hj, hsame⟩
  · rw [hj] at ha
    injection ha with ha
    subst ha
    rw [Json.same_comm] at hab
    exact ⟨b, hb, Json.same_trans hab hsame⟩

/-- Of the documents inside a record that was committed, one of each path and identifier stands in
the catalog. -/
theorem covers_of_settles {before working committed : Catalog} (hk : committed.Keeps)
    (hs : Settles before working committed)
    (hdocs : ∀ part ∈ r.parts, ∃ name, cs.get? part.path = some name ∧
      ∃ same ∈ r.parts, same.path = part.path ∧ same.id = part.id ∧
        working.documentAt name part.id.text = some same.document) :
    Record.Covers committed cs r.documents := by
  intro path id className fields hd
  obtain ⟨name, hname, same, hsame, hpath, hid, hdoc⟩ := hdocs _ (Record.mem_parts.2 ⟨_, hd, rfl⟩)
  obtain ⟨d', hd', hpart⟩ := Record.mem_parts.1 hsame
  obtain ⟨className', fields', rfl, hdocument⟩ := Record.part?_eq_some.1 hpart
  rw [hdocument] at hdoc
  obtain ⟨stored, hstored, hjson⟩ :=
    exists_committed hs hdoc (Value.storedDocument_same_self same.id fields')
  rw [hpath, hid] at hd'
  rw [hid] at hjson
  exact ⟨name, stored, className', fields', hd', hname, (findOne_id hk).trans hstored, hjson⟩

/-- What a record that was saved leaves behind, as long as nothing else is written: its document
under its identifier, and of the documents inside it one of each path and identifier. -/
theorem exists_saved {d : Dataset} {held : Holding} {later : Workspace}
    (hkeeps : ws.store.catalog.Keeps) (hheld : d.standing.holding? = some held)
    (hapart : held.definition.collections.Apart) (hr : r.Formed)
    (h : d.saveRecord r ws = .ok () ws') (hlater : later.visible = ws'.visible) :
    ∃ root stored, held.definition.collections.get? "" = some root ∧
      later.visible.findOne root "_id" (.string r.id.text) = some stored ∧
      stored.same r.document = true ∧
      Record.Covers later.visible held.definition.collections r.documents := by
  obtain ⟨b, hputs, hclosed, hcatalog⟩ := puts_of_saveRecord hheld h
  obtain ⟨root, hroot, hdoc, hparts⟩ := hputs.documents hapart fun _ => hr.path_ne_root
  obtain ⟨_, _, _, _, hran⟩ := saveRecord_ok h
  have hkeeps' := hran.keeps hkeeps
  have hsettles : Settles ws.store.catalog b ws'.store.catalog :=
    hcatalog ▸ settles_advance ws.store b
  obtain ⟨stored, hstored, hjson⟩ := exists_committed hsettles hdoc
    (Value.storedDocument_same_self r.id r.values.entries)
  rw [hlater.trans (Workspace.visible_of_closed hclosed)]
  exact ⟨root, stored, hroot, (findOne_id hkeeps').trans hstored, hjson,
    covers_of_settles hkeeps' hsettles hparts⟩

theorem loadRecord_eq {d : Dataset} {k : DocClass} {root : String} {id : Uuid} {document : Json}
    {loaded : Record} (hcs : d.collections = .ok cs) (hk : rootClass d.live = .ok k)
    (hroot : cs.get? "" = some root)
    (hfind : ws.visible.findOne root "_id" (.string id.text) = some document)
    (hread : Record.ofDocument ws.visible d.live cs k document = .ok loaded) :
    d.loadRecord id ws = .ok (some loaded) ws := by
  refine bind_eq_ok.2 ⟨cs, ws, lift_eq_ok.2 ⟨hcs, rfl⟩, ?_⟩
  refine bind_eq_ok.2 ⟨k, ws, lift_eq_ok.2 ⟨hk, rfl⟩, ?_⟩
  refine bind_eq_ok.2 ⟨root, ws, lift_eq_ok.2 ⟨collectionFor_eq_ok.2 hroot, rfl⟩, ?_⟩
  refine bind_eq_ok.2 ⟨ws.visible, ws, rfl, ?_⟩
  rw [hfind]
  exact bind_eq_ok.2 ⟨loaded, ws, lift_eq_ok.2 ⟨hread, rfl⟩, rfl⟩

/-- What loading asks of a dataset before it looks into the store. -/
theorem exists_root_of_loading {α : Type} {d : Dataset} {a : α}
    {rest : Collections → DocClass → String → Op Refusal α}
    (h : (do
      let cs ← Op.lift d.collections
      let root ← Op.lift (rootClass d.live)
      let name ← Op.lift (Record.collectionFor cs "")
      rest cs root name : Op Refusal α) ws = .ok a ws') :
    ∃ held k name, d.standing.holding? = some held ∧ rootClass d.live = .ok k ∧
      held.definition.collections.get? "" = some name ∧
        rest held.definition.collections k name ws = .ok a ws' := by
  obtain ⟨cs, ws₁, hcollections, h₁⟩ := bind_eq_ok.1 h
  obtain ⟨hcs, rfl⟩ := lift_eq_ok.1 hcollections
  obtain ⟨k, ws₂, hroot, h₂⟩ := bind_eq_ok.1 h₁
  obtain ⟨hk, rfl⟩ := lift_eq_ok.1 hroot
  obtain ⟨name, ws₃, hseat, h₃⟩ := bind_eq_ok.1 h₂
  obtain ⟨hname, rfl⟩ := lift_eq_ok.1 hseat
  obtain ⟨held, hheld, rfl⟩ := collections_eq_ok.1 hcs
  exact ⟨held, k, name, hheld, hk, collectionFor_eq_ok.1 hname, h₃⟩

/-- A record that is loaded was read from the document that stands under its identifier. -/
theorem loadRecord_ok {d : Dataset} {id : Uuid} {answer : Option Record}
    (h : d.loadRecord id ws = .ok answer ws') :
    ws' = ws ∧ ∃ held k name, d.standing.holding? = some held ∧ rootClass d.live = .ok k ∧
      held.definition.collections.get? "" = some name ∧
        match ws.visible.findOne name "_id" (.string id.text) with
        | none => answer = none
        | some document => ∃ r, answer = some r ∧
          Record.ofDocument ws.visible d.live held.definition.collections k document = .ok r := by
  obtain ⟨held, k, name, hheld, hk, hname, h⟩ := exists_root_of_loading h
  obtain ⟨catalog, ws₁, hcatalog, h₁⟩ := bind_eq_ok.1 h
  obtain ⟨rfl, rfl⟩ : catalog = ws.visible ∧ ws₁ = ws := by
    cases hcatalog
    exact ⟨rfl, rfl⟩
  cases hfind : ws₁.visible.findOne name "_id" (.string id.text) with
  | none =>
    simp only [hfind] at h₁
    cases h₁
    refine ⟨rfl, held, k, name, hheld, hk, hname, ?_⟩
    rw [hfind]
  | some document =>
    simp only [hfind] at h₁
    obtain ⟨r, ws₂, hread, h₂⟩ := bind_eq_ok.1 h₁
    cases h₂
    obtain ⟨hread, rfl⟩ := lift_eq_ok.1 hread
    refine ⟨rfl, held, k, name, hheld, hk, hname, ?_⟩
    rw [hfind]
    exact ⟨r, rfl, hread⟩

/-- A canonical record that was saved is loaded with the same identifier and equal values as long as
nothing else is written; its class is that of the live schema. -/
theorem loadRecord_saved {guarded : Prop} {c : Connection} {l : Ledger} {d : Dataset}
    {held : Holding} {k : DocClass} {later : Workspace} (hkeeps : ws.store.catalog.Keeps)
    (hheld : d.standing.holding? = some held)
    (htraced : held.definition.Traced guarded l ws'.supply) (hf : ws'.supply.Fits c.definitions)
    (hk : rootClass d.live = .ok k) (hr : r.Formed) (hfits : r.Fits d.live)
    (hc : r.Canonical d.live) (h : d.saveRecord r ws = .ok () ws')
    (hlater : later.visible = ws'.visible) :
    ∃ loaded, d.loadRecord r.id later = .ok (some loaded) later ∧ loaded.id = r.id ∧
      loaded.root = k ∧ (loaded.values == r.values) = true := by
  obtain ⟨root, stored, hroot, hstored, hjson, hcovers⟩ :=
    exists_saved hkeeps hheld (hf.apart htraced.live) hr h hlater
  obtain ⟨loaded, hread, hid, hclass, hvalues⟩ :=
    Record.ofDocument_same hr hfits hc (hcovers.stands hc.unambiguous) hjson
  exact ⟨loaded, loadRecord_eq (collections_eq_ok.2 ⟨held, hheld, rfl⟩) hk hroot hstored hread, hid,
    hclass, hvalues⟩

/-- Where the live schema has no document at its root, no record is loaded. -/
theorem loadRecord_of_rootClass_error {d : Dataset} {e : Refusal} (hcs : d.collections = .ok cs)
    (hk : rootClass d.live = .error e) (id : Uuid) : d.loadRecord id ws = .error e ws := by
  have hlift : Op.lift d.collections ws = .ok cs ws := lift_eq_ok.2 ⟨hcs, rfl⟩
  have hroot : Op.lift (rootClass d.live) ws = .error e ws := by rw [hk]; rfl
  rw [loadRecord, bind_apply, hlift]
  show (Op.lift (rootClass d.live) >>= _) ws = _
  rw [bind_apply, hroot]

end Dataset
end SchemaKeeper
