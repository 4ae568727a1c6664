import SchemaKeeper.Proofs.Dataset.Saved
import SchemaKeeper.Proofs.Dataset.Writes
import SchemaKeeper.Proofs.Record.Unmoved

/-!
# What a save leaves alone

To save a record writes its document and one for each document inside it, and every other document
of the store stays as it is.  To load a record looks at its document and at those to which it leads,
so it notices a save only where it comes upon one of the documents that were written.
-/
namespace SchemaKeeper

open Catalog Op Relation

namespace Record
variable {catalog : Catalog} {s : Schema} {c : Collections} {document : Json} {r r' : Reference}

/-- Below a document without a nameless member no reference appears at the root. -/
theorem Starts.path_ne_root (h : Starts s document r) (hn : document.get? "" = none) :
    r.path ≠ "" := by
  obtain ⟨members, rfl, m, hm, hpath, -⟩ := h
  rw [hpath, Path.join_root]
  exact Entries.get?_eq_none.1 hn m (List.mem_of_mem_filter hm)

theorem path_ne_root_of_leads (h : ReflTransGen (LeadsTo catalog s c) r r') (hr : r.path ≠ "") :
    r'.path ≠ "" := by
  induction h with
  | refl => exact hr
  | tail _ hleads ih =>
    obtain ⟨_, field, -, hpath⟩ := hleads.path_eq
    exact hpath ▸ join_ne_root ih field

theorem length_le_of_leads (h : ReflTransGen (LeadsTo catalog s c) r r') (hr : r.path ≠ "") :
    r.path.length ≤ r'.path.length := by
  induction h with
  | refl => exact Nat.le_refl _
  | tail hreaches hleads ih =>
    obtain ⟨_, field, -, hpath⟩ := hleads.path_eq
    have hlength := length_join (path_ne_root_of_leads hreaches hr) field
    rw [hpath]
    omega

/-- No member of a record that can be made is nameless. -/
theorem Formed.get?_document {r : Record} (h : r.Formed) : r.document.get? "" = none := by
  cases hget : r.document.get? "" with
  | none => rfl
  | some j =>
    rcases mem_of_get?_storedDocument hget with ⟨hkey, -⟩ | ⟨e, he, hkey, -⟩
    · exact absurd hkey (by decide)
    · exact absurd hkey (ne_root_of_isTopLevel (h.topLevel e he))

end Record

namespace Dataset
variable {ws ws' : Workspace} {d y : Dataset} {held : Holding} {r : Record} {id : Uuid}
  {before after : Catalog}

/-- The document under an identifier in the collection is none of those that are written of the
record. -/
def Misses (cs : Collections) (r : Record) (name key : String) : Prop :=
  ∀ part ∈ r.written, cs.get? part.path = some name → part.id.text ≠ key

/-- Where a document is another one after a save, it is one of those that were written. -/
theorem documents_of_saveRecord (hheld : d.standing.holding? = some held)
    (h : d.saveRecord r ws = .ok () ws') (name key : String) :
    (∃ part ∈ r.written, held.definition.collections.get? part.path = some name ∧
      part.id.text = key ∧ ws'.store.catalog.documentAt name key = some part.document) ∨
    ws'.store.catalog.documentAt name key = ws.store.catalog.documentAt name key := by
  obtain ⟨b, hputs, -, hcatalog⟩ := puts_of_saveRecord hheld h
  rcases hcatalog ▸ settles_advance ws.store b with ⟨hkept, -⟩ | hcollections
  · exact .inr (by rw [hkept])
  · have hsame : ws'.store.catalog.documentAt name key = b.documentAt name key := by
      rw [documentAt, hcollections, documentAt]
    rw [hsame]
    exact (hputs.wrote.documents name key).imp_right And.left

theorem documentAt_of_saveRecord (hheld : d.standing.holding? = some held)
    (h : d.saveRecord r ws = .ok () ws') {name key : String}
    (hmisses : Misses held.definition.collections r name key) :
    ws'.store.catalog.documentAt name key = ws.store.catalog.documentAt name key := by
  refine (documents_of_saveRecord hheld h name key).resolve_left ?_
  rintro ⟨part, hpart, hname, hid, -⟩
  exact hmisses part hpart hname hid

/-! ## What a load looks at -/

/-- What loading a record answers at a catalog. -/
def recordIn (d : Dataset) (id : Uuid) (catalog : Catalog) : Except Refusal (Option Record) := do
  let cs ← d.collections
  let k ← rootClass d.live
  let name ← Record.collectionFor cs ""
  match catalog.findOne name "_id" (.string id.text) with
  | none => return none
  | some document => (Record.ofDocument catalog d.live cs k document).map some

theorem loadRecord_eq_outcome (d : Dataset) (id : Uuid) (ws : Workspace) :
    d.loadRecord id ws = outcome (d.recordIn id ws.visible) ws := by
  have hlift : ∀ {α β : Type} (a : α) (f : α → Op Refusal β),
      (Op.lift (.ok a) >>= f) ws = f a ws := fun _ _ => rfl
  have hcatalog : ∀ {β : Type} (f : Catalog → Op Refusal β),
      (Op.catalog >>= f) ws = f ws.visible ws := fun _ => rfl
  unfold loadRecord recordIn
  cases d.collections with
  | error e => rfl
  | ok cs =>
    rw [hlift, ok_bind]
    cases rootClass d.live with
    | error e => rfl
    | ok k =>
      rw [hlift, ok_bind]
      cases Record.collectionFor cs "" with
      | error e => rfl
      | ok name =>
        rw [hlift, ok_bind, hcatalog]
        cases ws.visible.findOne name "_id" (.string id.text) with
        | none => rfl
        | some document =>
          simp only
          cases Record.ofDocument ws.visible d.live cs k document <;> rfl

/-- The load of the record under an identifier comes upon the reference: it stands in the stored
root document, or in one of the documents to which that leads. -/
def Consults (d : Dataset) (catalog : Catalog) (id : Uuid) (ref : Record.Reference) : Prop :=
  ∃ held name document start, d.standing.holding? = some held ∧
    held.definition.collections.get? "" = some name ∧
    catalog.findOne name "_id" (.string id.text) = some document ∧
    Record.Starts d.live document start ∧
    ReflTransGen (Record.LeadsTo catalog d.live held.definition.collections) start ref

/-- The record under an identifier has a document inside it in common with the given record: one of
the same identifier under the same path. -/
def Shares (d : Dataset) (catalog : Catalog) (id : Uuid) (r : Record) : Prop :=
  ∃ ref, d.Consults catalog id ref ∧ ∃ part ∈ r.parts, part.path = ref.path ∧ part.id.text = ref.id

/-- Loading answers the same wherever the root document is the same and so are the documents that
are come upon. -/
theorem recordIn_congr
    (hroot : ∀ held name, d.standing.holding? = some held →
      held.definition.collections.get? "" = some name →
        after.findOne name "_id" (.string id.text) = before.findOne name "_id" (.string id.text))
    (hbelow : ∀ held ref, d.standing.holding? = some held → d.Consults before id ref →
      Record.AgreeAt before after held.definition.collections ref) :
    d.recordIn id after = d.recordIn id before := by
  unfold recordIn
  cases hcs : d.collections with
  | error e => rw [error_bind, error_bind]
  | ok cs =>
    obtain ⟨held, hheld, rfl⟩ := collections_eq_ok.1 hcs
    rw [ok_bind, ok_bind]
    cases rootClass d.live with
    | error e => rw [error_bind, error_bind]
    | ok k =>
      rw [ok_bind, ok_bind]
      cases hseat : Record.collectionFor held.definition.collections "" with
      | error e => rw [error_bind, error_bind]
      | ok name =>
        have hname := collectionFor_eq_ok.1 hseat
        rw [ok_bind, ok_bind, hroot held name hheld hname]
        cases hfind : before.findOne name "_id" (.string id.text) with
        | none => simp only
        | some document =>
          simp only
          rw [Record.ofDocument_congr fun start ref hstart hleads => hbelow held ref hheld
            ⟨held, name, document, start, hheld, hname, hfind, hstart, hleads⟩]

theorem Consults.path_ne_root {ref : Record.Reference} (h : d.Consults before id ref)
    (hn : ∀ held name document, d.standing.holding? = some held →
      held.definition.collections.get? "" = some name →
      before.findOne name "_id" (.string id.text) = some document → document.get? "" = none) :
    ref.path ≠ "" := by
  obtain ⟨held, name, document, start, hheld, hname, hfind, hstart, hleads⟩ := h
  exact Record.path_ne_root_of_leads hleads
    (hstart.path_ne_root (hn held name document hheld hname hfind))

/-- Two records have no document in common, if all that the one holds stand under shorter paths
than the fields of the other. -/
theorem not_shares_of_length {n : Nat} (hshort : ∀ part ∈ r.parts, part.path.length < n)
    (hlong : ∀ held name members, d.standing.holding? = some held →
      held.definition.collections.get? "" = some name →
      before.findOne name "_id" (.string id.text) = some (.object members) →
        ∀ m ∈ Record.ownMembers members, n ≤ m.1.length) : ¬ d.Shares before id r := by
  rintro ⟨ref, ⟨held, name, _, start, hheld, hname, hfind, ⟨members, rfl, m, hm, hpath, -⟩, hleads⟩,
    part, hpart, hsame, -⟩
  have hn := hshort part hpart
  have hm := hlong held name members hheld hname hfind m hm
  rw [Path.join_root] at hpath
  have hne : start.path ≠ "" := by
    intro hroot
    rw [← hpath, hroot, String.length_empty] at hm
    omega
  have hle := Record.length_le_of_leads hleads hne
  rw [← hsame, hpath] at hle
  omega

/-- What is written of a record is the record itself at the root, and the documents inside it
elsewhere. -/
theorem eq_of_written {part : Part} (hr : r.Formed) (h : part ∈ r.written) (hp : part.path = "") :
    part = ⟨"", r.id, r.document⟩ := by
  rcases List.mem_append.1 h with h | h
  · exact absurd hp (hr.path_ne_root h)
  · exact List.mem_singleton.1 h

theorem mem_parts_of_written {part : Part} (h : part ∈ r.written) (hp : part.path ≠ "") :
    part ∈ r.parts := by
  refine (List.mem_append.1 h).resolve_right fun h => hp ?_
  rw [List.mem_singleton.1 h]

/-- A save does not show in the load of another record, by whatever client, if a name of a
collection belongs to one path of one dataset, no root document has a nameless member, and the two
records have no document inside them in common. -/
theorem recordIn_of_saveRecord (hkeeps : ws.store.catalog.Keeps)
    (hheld : d.standing.holding? = some held) (hr : r.Formed) (h : d.saveRecord r ws = .ok () ws')
    (hunique : ∀ held', y.standing.holding? = some held' → ∀ path path' name,
      held.definition.collections.get? path = some name →
      held'.definition.collections.get? path' = some name →
        held'.definition.id = held.definition.id ∧ path = path')
    (hnamed : ∀ held' name document, y.standing.holding? = some held' →
      held'.definition.collections.get? "" = some name →
      ws.store.catalog.findOne name "_id" (.string id.text) = some document →
        document.get? "" = none)
    (hother : ∀ held', y.standing.holding? = some held' →
      held'.definition.id = held.definition.id →
        id ≠ r.id ∧ ¬ y.Shares ws.store.catalog id r) :
    y.recordIn id ws'.store.catalog = y.recordIn id ws.store.catalog := by
  obtain ⟨_, _, _, _, hran⟩ := saveRecord_ok h
  have hkeeps' := hran.keeps hkeeps
  refine recordIn_congr (fun held' name hheld' hname => ?_) fun held' ref hheld' hconsults => ?_
  · rw [findOne_id hkeeps', findOne_id hkeeps]
    refine documentAt_of_saveRecord hheld h fun part hpart hseat hid => ?_
    obtain ⟨hsame, hpath⟩ := hunique held' hheld' _ _ name hseat hname
    rw [eq_of_written hr hpart hpath] at hid
    exact (hother held' hheld' hsame).1 (Uuid.text_injective hid).symm
  · intro name hname
    rw [findOne_id hkeeps', findOne_id hkeeps]
    refine documentAt_of_saveRecord hheld h fun part hpart hseat hid => ?_
    obtain ⟨hsame, hpath⟩ := hunique held' hheld' _ _ name hseat hname
    have hinside := mem_parts_of_written hpart (hpath ▸ hconsults.path_ne_root hnamed)
    exact (hother held' hheld' hsame).2 ⟨ref, hconsults, part, hinside, hpath, hid⟩

end Dataset
end SchemaKeeper
