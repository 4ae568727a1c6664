import SchemaKeeper.Proofs.Dataset.Saved
import SchemaKeeper.Proofs.Dataset.Writes
import SchemaKeeper.Proofs.Record.Again
import SchemaKeeper.Proofs.Store.Unique

/-!
# Records that are saved once more

A document that was put into a collection is accepted there once more, whatever else was put there
in between: what would have its key in a unique index was refused.  A record that was read keeps the
documents inside it consistent, so after it was saved each of them stands in the catalog just as it
was written, the record is read as it was, and to save it again changes nothing.
-/
namespace SchemaKeeper

open Catalog Op

/-! ## Documents that are accepted once more -/

namespace Collection
variable {state state' : Collection} {name id q : String} {document other : Json} {i : Index}

/-- The document stands under its identifier, and there it is accepted once more. -/
structure Houses (state : Collection) (name id : String) (document : Json) : Prop where
  stands : state.documents.get? id = some document
  accepted : state.accept name id document = .ok ()

/-- Of two collections with one validator and the same indexes, the one accepts what the other does
if nothing clashes there. -/
theorem accept_of_not_clashes (hvalidator : state'.validator = state.validator)
    (hindexes : state'.indexes = state.indexes) (h : state.accept name id document = .ok ())
    (hnot : ∀ i ∈ state.indexes, i.unique = true → state'.clashes id document i = false) :
    state'.accept name id document = .ok () := by
  have hhere : (state.indexes.find? fun i => i.unique && state.clashes id document i) = none :=
    List.find?_eq_none.2 fun i hi hboth => by
      obtain ⟨hu, hclash⟩ := Bool.and_eq_true_iff.1 hboth
      rw [not_clashes_of_accept h hi hu] at hclash
      cases hclash
  have hthere : (state'.indexes.find? fun i => i.unique && state'.clashes id document i) = none :=
    List.find?_eq_none.2 fun i hi hboth => by
      obtain ⟨hu, hclash⟩ := Bool.and_eq_true_iff.1 hboth
      rw [hnot i (hindexes ▸ hi) hu] at hclash
      cases hclash
  unfold accept at h ⊢
  rw [hvalidator, hthere]
  rwa [hhere] at h

theorem exists_of_clashes (h : state.clashes id document i = true) :
    ∃ q b k l, q ≠ id ∧ state.documents.get? q = some b ∧ i.keyOf? document = some k ∧
      i.keyOf? b = some l ∧ KeysSame l k := by
  unfold clashes at h
  split at h
  · cases h
  · rename_i k hk
    obtain ⟨⟨q, b⟩, hin, hboth⟩ := List.any_eq_true.1 h
    obtain ⟨hq, hkeys⟩ := Bool.and_eq_true_iff.1 hboth
    split at hkeys
    · rename_i l hl
      exact ⟨q, b, k, l, bne_iff_ne.1 hq, Keyed.mem_entries_iff.1 hin, hk, hl, hkeys⟩
    · cases hkeys

/-- What is accepted stays so when a document is put into the collection that is its own or has
another key. -/
theorem accept_insert (h : state.accept name id document = .ok ())
    (hother : q ≠ id → ∀ i ∈ state.indexes, i.unique = true → ∀ k l, i.keyOf? document = some k →
      i.keyOf? other = some l → ¬ KeysSame l k) :
    { state with documents := state.documents.insert q other }.accept name id document =
      .ok () := by
  refine @accept_of_not_clashes state _ _ _ _ rfl rfl h fun i hi hu => ?_
  refine Bool.eq_false_iff.2 fun hclash => ?_
  obtain ⟨p, b, k, l, hp, hb, hk, hl, hsame⟩ := exists_of_clashes hclash
  rw [Keyed.get?_insert] at hb
  split at hb
  · rename_i hq
    injection hb with hb
    subst hq hb
    exact hother hp i hi hu k l hk hl hsame
  · have hclash := clashes_of_same hp hb hk hl hsame
    rw [not_clashes_of_accept h hi hu] at hclash
    cases hclash

/-- A document that is accepted and put there is accepted there once more. -/
theorem houses_insert (h : state.accept name id document = .ok ()) :
    { state with documents := state.documents.insert id document }.Houses name id document :=
  ⟨by simp, accept_insert h fun hne => absurd rfl hne⟩

/-- What is accepted later does not keep a document from being accepted once more. -/
theorem Houses.insert (h : state.Houses name id document)
    (ha : state.accept name q other = .ok ()) (hsame : q = id → other = document) :
    { state with documents := state.documents.insert q other }.Houses name id document := by
  by_cases hq : q = id
  · obtain rfl := hsame hq
    subst hq
    exact houses_insert ha
  · refine ⟨by simp [Keyed.get?_insert, hq, h.stands], accept_insert h.accepted ?_⟩
    intro _ i hi hu k l hk hl hkeys
    have hclash := clashes_of_same (Ne.symm hq) h.stands hl hk (keysSame_symm hkeys)
    rw [not_clashes_of_accept ha hi hu] at hclash
    cases hclash

end Collection

namespace Catalog
variable {a b c : Catalog} {name name' id q : String} {document other : Json} {answer : Bool}

/-- The document stands in the collection under the identifier that it carries, and there it is
accepted once more. -/
structure Houses (catalog : Catalog) (name id : String) (document : Json) : Prop where
  own : documentId document = .ok id
  state : ∃ state, catalog.collections.get? name = some state ∧ state.Houses name id document

theorem Houses.congr (h : a.Houses name id document) (hc : b.collections = a.collections) :
    b.Houses name id document :=
  ⟨h.own, hc ▸ h.state⟩

theorem houses_of_perform
    (h : a.perform (.replaceOne name id document true) = .ok (answer, b)) :
    b.Houses name id document := by
  obtain ⟨hown, state, -, ⟨-, -, haccept, rfl⟩ | ⟨-, hfalse, -⟩⟩ := replaceOne_ok h
  · exact ⟨hown, _, by simp, Collection.houses_insert haccept⟩
  · cases hfalse

theorem Houses.perform (h : a.Houses name id document)
    (hp : a.perform (.replaceOne name' q other true) = .ok (answer, b))
    (hsame : name' = name → q = id → other = document) : b.Houses name id document := by
  obtain ⟨hown, state, hstate, hhouses⟩ := h
  obtain ⟨-, state', hstate', ⟨-, -, haccept, rfl⟩ | ⟨-, hfalse, -⟩⟩ := replaceOne_ok hp
  · by_cases hn : name' = name
    · subst hn
      rw [hstate] at hstate'
      injection hstate' with hstate'
      subst hstate'
      exact ⟨hown, _, by simp, hhouses.insert haccept (hsame rfl)⟩
    · exact ⟨hown, state, by simp [hn, hstate], hhouses⟩
  · cases hfalse

theorem Houses.findOne (h : c.Houses name id document) (hc : c.Keeps) :
    c.findOne name "_id" (.string id) = some document := by
  obtain ⟨-, state, hstate, hhouses⟩ := h
  rw [findOne_id hc, documentAt, hstate]
  exact hhouses.stands

/-- To put a document where it stands and is accepted changes nothing. -/
theorem Houses.replaceOne (h : c.Houses name id document) :
    c.perform (.replaceOne name id document true) = .ok (true, c) := by
  obtain ⟨hown, state, hstate, hhouses⟩ := h
  rw [perform_replaceOne hown hstate, hhouses.accepted, Keyed.insert_of_get? hhouses.stands]
  show Except.ok (true, c.setCollection name state) = _
  rw [setCollection, Keyed.insert_of_get? hstate]

/-! ## Where records are filed -/

/-- The document is an object with ascending members. -/
def IsOrdered (document : Json) : Prop := ∃ ms, Entries.Ordered ms ∧ document = .object ms

/-- Beside the definitions each document is an object with ascending members and stands under the
text of an identifier. -/
def FiledBeside (definitions : String) (catalog : Catalog) : Prop :=
  ∀ name state, name ≠ definitions → catalog.collections.get? name = some state →
    ∀ key document, state.documents.get? key = some document →
      (∃ id : Uuid, key = id.text) ∧ IsOrdered document

variable {definitions : String} {p : DocClass → Prop} {cs : Collections}

theorem keptBy_filedBeside : KeptBy (Write.Usual definitions p IsOrdered)
    (FiledBeside definitions) :=
  keptBy_allIn (fun h => h rfl) fun id _ hordered => ⟨⟨id, rfl⟩, hordered⟩

/-- Records whose collections are not that of the definitions are filed. -/
theorem FiledBeside.filed (h : c.FiledBeside definitions) (hk : c.Keeps)
    (hne : ∀ path name, cs.get? path = some name → name ≠ definitions) : Record.Filed c cs := by
  have hentry : ∀ {path name text members}, cs.get? path = some name →
      c.findOne name "_id" (.string text) = some (.object members) →
      (∃ id : Uuid, text = id.text) ∧ IsOrdered (.object members) := by
    intro path name text members hname hfind
    rw [findOne_id hk] at hfind
    obtain ⟨state, hstate, hd⟩ := Option.bind_eq_some_iff.1 hfind
    exact h name state (hne path name hname) hstate text _ hd
  refine ⟨fun hname hfind => ?_, fun hname hfind hid => ?_⟩
  · obtain ⟨-, ms, hordered, heq⟩ := hentry hname hfind
    cases heq
    exact hordered
  · obtain ⟨⟨id, rfl⟩, -⟩ := hentry hname hfind
    rw [Record.identifier_of_get? (get?_of_findOne hfind)] at hid
    injection hid with hid
    rw [hid]

end Catalog

namespace Dataset
variable {ws ws₁ ws₂ : Workspace} {cs : Collections} {parts : List Part} {a b c : Catalog}
  {d : Dataset} {held : Holding} {r : Record} {id : Uuid}

theorem Puts.houses_of {name : String} {document : Json} (h : Puts cs parts a b)
    (ha : a.Houses name id.text document)
    (hsame : ∀ p ∈ parts, cs.get? p.path = some name → p.id = id → p.document = document) :
    b.Houses name id.text document := by
  induction parts generalizing a with
  | nil => exact h ▸ ha
  | cons part rest ih =>
    obtain ⟨name', answer, next, hname, hperform, h⟩ := h
    obtain ⟨hhead, hrest⟩ := List.forall_mem_cons.1 hsame
    exact ih h (ha.perform hperform fun hn hid =>
      hhead (hn ▸ hname) (Uuid.text_injective hid)) hrest

/-- Consistent documents that were put into a catalog are accepted there once more, all of them. -/
theorem Puts.houses (h : Puts cs parts a b) (ha : cs.Apart) (hc : Record.Consistent parts) :
    ∀ p ∈ parts, ∃ name, cs.get? p.path = some name ∧ b.Houses name p.id.text p.document := by
  induction parts generalizing a with
  | nil => exact List.forall_mem_nil _
  | cons part rest ih =>
    obtain ⟨name, answer, next, hname, hperform, h⟩ := h
    refine List.forall_mem_cons.2 ⟨⟨name, hname, ?_⟩, ?_⟩
    · refine h.houses_of (houses_of_perform hperform) fun p hp hpath hid => ?_
      exact hc p (List.mem_cons_of_mem _ hp) part List.mem_cons_self
        (ha _ _ name hpath hname) hid
    · exact ih h fun p hp q hq =>
        hc p (List.mem_cons_of_mem _ hp) q (List.mem_cons_of_mem _ hq)

/-- To put documents where they stand and are accepted changes nothing. -/
theorem puts_of_houses (h : ∀ p ∈ parts, ∃ name, cs.get? p.path = some name ∧
    c.Houses name p.id.text p.document) : Puts cs parts c c := by
  induction parts with
  | nil => rfl
  | cons part rest ih =>
    obtain ⟨⟨name, hname, hhouses⟩, hrest⟩ := List.forall_mem_cons.1 h
    exact ⟨name, true, c, hname, hhouses.replaceOne, ih hrest⟩

/-- What is written of the record stands in the catalog, and is accepted there once more. -/
def Harbours (catalog : Catalog) (cs : Collections) (r : Record) : Prop :=
  ∀ p ∈ r.written, ∃ name, cs.get? p.path = some name ∧
    catalog.Houses name p.id.text p.document

theorem Harbours.congr (h : Harbours a cs r) (hc : b.collections = a.collections) :
    Harbours b cs r := fun p hp => by
  obtain ⟨name, hname, hhouses⟩ := h p hp
  exact ⟨name, hname, hhouses.congr hc⟩

theorem Harbours.root (h : Harbours c cs r) (hc : c.Keeps) : ∃ root, cs.get? "" = some root ∧
    c.findOne root "_id" (.string r.id.text) = some r.document := by
  obtain ⟨root, hroot, hhouses⟩ := h ⟨"", r.id, r.document⟩ (by simp [Record.written])
  exact ⟨root, hroot, hhouses.findOne hc⟩

theorem Harbours.standsExactly (h : Harbours c cs r) (hc : c.Keeps) :
    Record.StandsExactly c cs r.documents := by
  intro path id className fields hd
  obtain ⟨name, hname, hhouses⟩ :=
    h _ (List.mem_append_left _ (Record.mem_parts.2 ⟨_, hd, rfl⟩))
  exact ⟨name, hname, hhouses.findOne hc⟩

/-- A record that was read from the document under an identifier has this identifier. -/
theorem id_of_ofDocument {s : Schema} {k : DocClass} {document : Json} {name : String}
    (hfind : c.findOne name "_id" (.string id.text) = some document)
    (h : Record.ofDocument c s cs k document = .ok r) : r.id = id := by
  obtain ⟨-, -, hid, -, -⟩ := Record.ofDocument_ok h
  rw [Record.identifier_of_get? (get?_of_findOne hfind)] at hid
  injection hid with hid
  exact hid.symm

/-- A record that was loaded and saved is loaded as it was, and to save it once more leaves the very
catalog. -/
theorem saved_again (ht : ws.transaction = none) (hkeeps : ws.store.catalog.Keeps)
    (hfinite : ws.store.catalog.IsFinite) (hheld : d.standing.holding? = some held)
    (hapart : held.definition.collections.Apart)
    (hfiled : Record.Filed ws.store.catalog held.definition.collections)
    (hload : d.loadRecord id ws = .ok (some r) ws₁)
    (hdated : Value.entriesDated r.values.entries = true)
    (hsave : d.saveRecord r ws₁ = .ok () ws₂) :
    r.id = id ∧ d.loadRecord id ws₂ = .ok (some r) ws₂ ∧
      ∃ ws₃, d.saveRecord r ws₂ = .ok () ws₃ ∧ ws₃.store.catalog = ws₂.store.catalog := by
  obtain ⟨rfl, held', k, root, hheld', hk, hroot, hread⟩ := loadRecord_ok hload
  obtain rfl : held = held' := Option.some.inj (hheld.symm.trans hheld')
  rw [Workspace.visible_of_closed ht] at hread
  split at hread
  · cases hread
  rename_i document hfind
  obtain ⟨_, ⟨⟩, hread⟩ := hread
  have hid := id_of_ofDocument hfind hread
  obtain ⟨b, hputs, hclosed, hcatalog⟩ := puts_of_saveRecord hheld hsave
  have hcs : d.collections = .ok held.definition.collections :=
    collections_eq_ok.2 ⟨held, hheld, rfl⟩
  have hsettles := settles_advance ws₁.store b
  rw [← hcatalog] at hsettles
  refine ⟨hid, ?_⟩
  rcases hsettles with ⟨hkept, hsame⟩ | hcollections
  · -- What was saved was stored already, or what is the same: the catalog was left alone.
    refine ⟨@loadRecord_eq _ _ _ _ _ _ document _ hcs hk hroot ?_ ?_, ?_⟩
    · rwa [Workspace.visible_of_closed hclosed, hkept]
    · rwa [Workspace.visible_of_closed hclosed, hkept]
    · rw [← hkept] at hputs hsame
      obtain ⟨ws₃, hagain, -, hcatalog₃⟩ := exists_saveRecord_of_puts hheld hputs
      exact ⟨ws₃, hagain, by rw [hcatalog₃, Store.advance, if_pos hsame]⟩
  · have hharbours : Harbours ws₂.store.catalog held.definition.collections r :=
      Harbours.congr (hputs.houses hapart (Record.consistent_of_ofDocument hfiled hread))
        hcollections
    obtain ⟨_, _, _, _, hran⟩ := saveRecord_ok hsave
    have hkeeps₂ := hran.keeps hkeeps
    have hfinite₂ : ws₂.store.catalog.IsFinite :=
      saveRecord_preserves (@keptBy_isFinite "" fun _ => True)
        (fun _ => Record.isFinite_of_mem_parts) (Record.isFinite_document r) hsave hfinite
    obtain ⟨root', hroot', hfind'⟩ := hharbours.root hkeeps₂
    rw [hid, ← Workspace.visible_of_closed hclosed] at hfind'
    constructor
    · refine loadRecord_eq hcs hk hroot' hfind' (Record.ofDocument_again hfiled hread hdated ?_)
      rw [Workspace.visible_of_closed hclosed]
      exact hharbours.standsExactly hkeeps₂
    · obtain ⟨ws₃, hagain, -, hcatalog₃⟩ :=
        exists_saveRecord_of_puts hheld (puts_of_houses hharbours)
      exact ⟨ws₃, hagain, by rw [hcatalog₃, Store.advance, if_pos (same_self hfinite₂)]⟩

end Dataset
end SchemaKeeper
