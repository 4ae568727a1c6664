import SchemaKeeper.Proofs.Dataset.Reading
import SchemaKeeper.Proofs.Dataset.Records
import SchemaKeeper.Proofs.Layout.Members
import SchemaKeeper.Proofs.Record.Parts

/-!
# Which records are saved

A record is saved if every document that is written of it, its own included, has a collection,
carries its identifier and has only members that the schema admits there; where no index is unique
the store refuses it for no other reason.
-/
namespace SchemaKeeper

open Catalog Op

namespace Collection
variable {state : Collection} {rule : Rule} {name id : String} {document : Json}

/-- No index of the collection is unique. -/
def IsPlain (state : Collection) : Prop := ∀ i ∈ state.indexes, i.unique = false

theorem accept_eq (hv : state.validator = some rule.document)
    (hr : Rule.ofDocument? rule.document = some rule) :
    state.accept name id document =
      (match rule.checkDocument document with
        | .error complaint => .error (.failedValidation name complaint.text)
        | .ok () => match state.indexes.find? fun i => i.unique && state.clashes id document i with
          | some i => .error (.duplicateKey name i.name)
          | none => .ok ()) := by
  simp only [accept, hv, hr]
  cases rule.checkDocument document <;> rfl

/-- What a collection accepts its validator lets through. -/
theorem checkDocument_of_accept (hv : state.validator = some rule.document)
    (hr : Rule.ofDocument? rule.document = some rule)
    (h : state.accept name id document = .ok ()) : rule.checkDocument document = .ok () := by
  rw [accept_eq hv hr] at h
  split at h
  · cases h
  · assumption

/-- Without unique indexes a collection accepts what its validator lets through. -/
theorem accept_of_checkDocument (hp : state.IsPlain) (hv : state.validator = some rule.document)
    (hr : Rule.ofDocument? rule.document = some rule) (h : rule.checkDocument document = .ok ()) :
    state.accept name id document = .ok () := by
  have hnone : (state.indexes.find? fun i => i.unique && state.clashes id document i) = none :=
    List.find?_eq_none.2 fun i hi => by simp [hp i hi]
  rw [accept_eq hv hr, h, hnone]

end Collection

namespace Catalog
variable {a b c catalog : Catalog} {cs : Collections} {s s' : Schema} {name id : String}
  {document : Json} {answer : Bool}

/-- In the collection of each path stands a validator that lets through just the documents of which
the schema admits every member there. -/
def Screens (catalog : Catalog) (cs : Collections) (s : Schema) : Prop :=
  ∀ path name, cs.get? path = some name → ∃ state rule,
    catalog.collections.get? name = some state ∧ state.validator = some rule.document ∧
      Rule.ofDocument? rule.document = some rule ∧
      ∀ ms, Entries.Ordered ms → (rule.checkDocument (.object ms) = .ok () ↔
        ∀ key j, Entries.get? ms key = some j → s.admits cs path key j = true)

/-- None of the collections has a unique index. -/
def Plain (catalog : Catalog) (cs : Collections) : Prop :=
  ∀ path name, cs.get? path = some name → ∀ state,
    catalog.collections.get? name = some state → state.IsPlain

/-- Only documents changed, and no collection went. -/
def Refills (a b : Catalog) : Prop :=
  ∀ name state, a.collections.get? name = some state →
    ∃ documents, b.collections.get? name = some { state with documents := documents }

/-- An own document takes its place in a collection that accepts it. -/
theorem perform_replaceOne {state : Collection} (hid : documentId document = .ok id)
    (hs : catalog.collections.get? name = some state) :
    catalog.perform (.replaceOne name id document true) =
      (state.accept name id document).map fun _ => (true, catalog.setCollection name
        { state with documents := state.documents.insert id document }) := by
  unfold perform
  simp only [hid, collection_eq_ok.2 hs, Bool.not_true, Bool.false_and, Bool.false_eq_true,
    if_false, ok_bind, ne_eq, not_true_eq_false]
  cases state.accept name id document <;> rfl

theorem refills_replaceOne
    (h : a.perform (.replaceOne name id document true) = .ok (answer, b)) : Refills a b := by
  obtain ⟨-, state, hstate, ⟨-, -, -, rfl⟩ | ⟨-, hfalse, -⟩⟩ := replaceOne_ok h
  · intro q other hother
    rw [get?_setCollection]
    split
    · rename_i hq
      rw [← hq, hstate] at hother
      injection hother with hother
      exact ⟨state.documents.insert id document, by rw [hother]⟩
    · exact ⟨other.documents, hother⟩
  · cases hfalse

theorem Screens.refills (h : a.Screens cs s) (hr : Refills a b) : b.Screens cs s := by
  intro path name hn
  obtain ⟨state, rule, hstate, hvalidator, hread, hlets⟩ := h path name hn
  obtain ⟨documents, hstate'⟩ := hr name state hstate
  exact ⟨_, rule, hstate', hvalidator, hread, hlets⟩

theorem Plain.refills (h : a.Plain cs) (hs : a.Screens cs s) (hr : Refills a b) :
    b.Plain cs := by
  intro path name hn state hstate
  obtain ⟨before, _, hbefore, -⟩ := hs path name hn
  obtain ⟨documents, hafter⟩ := hr name before hbefore
  rw [hstate] at hafter
  injection hafter with hafter
  subst hafter
  exact h path name hn before hbefore

theorem Screens.alike (h : catalog.Screens cs s) (ha : s.Alike s') : catalog.Screens cs s' := by
  intro path name hn
  obtain ⟨state, rule, hstate, hvalidator, hread, hlets⟩ := h path name hn
  refine ⟨state, rule, hstate, hvalidator, hread, fun ms hm => (hlets ms hm).trans ?_⟩
  exact forall_congr' fun key => forall_congr' fun j => imp_congr_right fun _ => by
    rw [ha.admits]

/-- The validators of a schema that are installed screen what is written to its collections. -/
theorem screens_of_installs {ds : List FieldDefinition} {v : Validators}
    (hd : Layout.Describes ds s) (hcounted : ∀ f ∈ ds, f.type.isCounted = true)
    (hv : Layout.validators cs s = .ok v) (ha : cs.Apart) (hi : catalog.Installs v) :
    catalog.Screens cs s := by
  intro path name hn
  obtain ⟨rule, hrule⟩ := Layout.exists_validator hv (Keyed.mem_values.2 ⟨path, hn⟩)
  obtain ⟨state, hstate, hvalidator⟩ := hi name rule hrule
  have hspeaks := Layout.validators_speak hv name rule hrule
  exact ⟨state, rule, hstate, hvalidator,
    hspeaks.isTitled.ofDocument?_document (hspeaks.counted hd hcounted),
    fun ms hm => Layout.checkDocument_ok_iff hv ha hn hrule hm⟩

end Catalog

/-- A document can be written: it has a collection, carries its identifier, and the schema admits
each of its members there. -/
structure Part.Admitted (s : Schema) (cs : Collections) (p : Part) : Prop where
  seat : ∃ name, cs.get? p.path = some name
  own : p.document.get? "_id" = some (.string p.id.text)
  members : ∀ key j, p.document.get? key = some j → s.admits cs p.path key j = true

namespace Record

/-- What is written of a record: the documents inside it and, last, its own. -/
def written (r : Record) : List Part := r.parts ++ [⟨"", r.id, r.document⟩]

/-- What is written is a stored document with the identifier of its part. -/
theorem exists_fields_of_written {r : Record} {p : Part} (h : p ∈ r.written) :
    ∃ fields, p.document = Value.storedDocument p.id fields := by
  rcases List.mem_append.1 h with h | h
  · obtain ⟨d, -, hpart⟩ := mem_parts.1 h
    obtain ⟨className, fields, -, hdocument⟩ := part?_eq_some.1 hpart
    exact ⟨fields, hdocument⟩
  · rw [List.mem_singleton.1 h]
    exact ⟨r.values.entries, rfl⟩

end Record

namespace Dataset
variable {ws ws' : Workspace} {t : Transaction} {cs : Collections} {s : Schema}

/-- Each document is an object with ascending members. -/
def Settled (parts : List Part) : Prop :=
  ∀ p ∈ parts, ∃ ms, Entries.Ordered ms ∧ p.document = .object ms

theorem settled_written (r : Record) : Settled r.written := fun p hp => by
  obtain ⟨fields, hdocument⟩ := r.exists_fields_of_written hp
  exact ⟨_, Entries.ordered_ofList _, hdocument⟩

/-- A document that was written is admitted. -/
theorem admitted_of_perform {catalog next : Catalog} {p : Part} {name : String} {answer : Bool}
    (hs : catalog.Screens cs s) (hp : Settled [p]) (hn : cs.get? p.path = some name)
    (h : catalog.perform (.replaceOne name p.id.text p.document true) = .ok (answer, next)) :
    p.Admitted s cs := by
  obtain ⟨state, rule, hstate, hvalidator, hread, hlets⟩ := hs p.path name hn
  obtain ⟨ms, hordered, hdocument⟩ := hp p List.mem_cons_self
  obtain ⟨hown, -⟩ := replaceOne_ok h
  rw [perform_replaceOne hown hstate] at h
  obtain ⟨⟨⟩, haccept, -⟩ := map_eq_ok_iff.1 h
  have hcheck := Collection.checkDocument_of_accept hvalidator hread haccept
  refine ⟨⟨name, hn⟩, documentId_eq_ok.1 hown, ?_⟩
  rw [hdocument] at hcheck ⊢
  exact (hlets ms hordered).1 hcheck

/-- An admitted document is written where no index is unique. -/
theorem exists_perform {catalog : Catalog} {p : Part} {name : String}
    (hs : catalog.Screens cs s) (hplain : catalog.Plain cs) (hp : Settled [p])
    (hn : cs.get? p.path = some name) (ha : p.Admitted s cs) :
    ∃ next, catalog.perform (.replaceOne name p.id.text p.document true) = .ok (true, next) := by
  obtain ⟨state, rule, hstate, hvalidator, hread, hlets⟩ := hs p.path name hn
  obtain ⟨ms, hordered, hdocument⟩ := hp p List.mem_cons_self
  have hcheck : rule.checkDocument p.document = .ok () := by
    have hmembers := ha.members
    rw [hdocument] at hmembers ⊢
    exact (hlets ms hordered).2 hmembers
  have haccept : state.accept name p.id.text p.document = .ok () :=
    Collection.accept_of_checkDocument (hplain p.path name hn state hstate) hvalidator hread hcheck
  exact ⟨_, by rw [perform_replaceOne (documentId_eq_ok.2 ha.own) hstate, haccept]; rfl⟩

/-- What the catalog of a transaction lets happen is written in the transaction. -/
theorem exists_write {w : Write} {answer : Bool} {next : Catalog} (ht : ws.transaction = some t)
    (h : ws.visible.perform w = .ok (answer, next)) : ∃ t₁ : Transaction,
      (Op.write w : Op Refusal Bool) ws = .ok answer { ws with transaction := some t₁ } ∧
        t₁.base = t.base ∧ t₁.working = next := by
  have hvisible : ws.visible = t.working := by rw [Workspace.visible, ht]
  refine ⟨{ t with working := next, counters := t.counters + w.counted answer }, ?_, rfl, rfl⟩
  rw [write_within ht, Transaction.perform, ← hvisible, h]
  rfl

/-! ## Documents that are put into a catalog -/

/-- From one catalog to another by documents that are put into the collections of their paths, one
after the other. -/
def Puts (cs : Collections) : List Part → Catalog → Catalog → Prop
  | [], a, b => a = b
  | part :: rest, a, b => ∃ name answer next, cs.get? part.path = some name ∧
    a.perform (.replaceOne name part.id.text part.document true) = .ok (answer, next) ∧
      Puts cs rest next b

variable {parts : List Part} {a b : Catalog}

theorem Puts.seat (h : Puts cs parts a b) : ∀ p ∈ parts, ∃ name, cs.get? p.path = some name := by
  induction parts generalizing a with
  | nil => exact List.forall_mem_nil _
  | cons part rest ih =>
    obtain ⟨name, _, _, hname, -, h⟩ := h
    exact List.forall_mem_cons.2 ⟨⟨name, hname⟩, ih h⟩

/-- All documents that were put there are admitted. -/
theorem Puts.admitted (h : Puts cs parts a b) (hs : a.Screens cs s) (hp : Settled parts) :
    ∀ p ∈ parts, p.Admitted s cs := by
  induction parts generalizing a with
  | nil => exact List.forall_mem_nil _
  | cons part rest ih =>
    obtain ⟨hhead, hrest⟩ := List.forall_mem_cons.1 hp
    obtain ⟨name, answer, next, hname, hperform, h⟩ := h
    have hone : Settled [part] := List.forall_mem_singleton.2 hhead
    exact List.forall_mem_cons.2 ⟨admitted_of_perform hs hone hname hperform,
      ih h (hs.refills (refills_replaceOne hperform)) hrest⟩

/-- Admitted documents are put there where no index is unique. -/
theorem exists_puts (hs : a.Screens cs s) (hplain : a.Plain cs) (hp : Settled parts)
    (ha : ∀ p ∈ parts, p.Admitted s cs) : ∃ b, Puts cs parts a b := by
  induction parts generalizing a with
  | nil => exact ⟨a, rfl⟩
  | cons part rest ih =>
    obtain ⟨hhead, hrest⟩ := List.forall_mem_cons.1 hp
    obtain ⟨hadmitted, hadmits⟩ := List.forall_mem_cons.1 ha
    obtain ⟨name, hname⟩ := hadmitted.seat
    have hone : Settled [part] := List.forall_mem_singleton.2 hhead
    obtain ⟨next, hperform⟩ := exists_perform hs hplain hone hname hadmitted
    have hrefills := refills_replaceOne hperform
    obtain ⟨b, hputs⟩ := ih (hs.refills hrefills) (hplain.refills hs hrefills) hrest hadmits
    exact ⟨b, name, true, next, hname, hperform, hputs⟩

/-- What is written in a transaction is put into its catalog. -/
theorem puts_of_writeParts (ht : ws.transaction = some t)
    (h : writeParts cs parts ws = .ok () ws') : Puts cs parts ws.visible ws'.visible := by
  induction parts generalizing ws t with
  | nil =>
    cases h
    rfl
  | cons part rest ih =>
    obtain ⟨name, answer, ws₁, hname, hw, h₁⟩ := writeParts_cons_ok h
    obtain ⟨hperform, hstays, -⟩ := write_ok ht hw
    obtain ⟨t₁, ht₁⟩ := hstays.transaction
    exact ⟨name, answer, _, hname, hperform, ih ht₁ h₁⟩

/-- What can be put into the catalog of a transaction is written in it. -/
theorem exists_writeParts (ht : ws.transaction = some t) (h : Puts cs parts ws.visible b) :
    ∃ ws' t', writeParts cs parts ws = .ok () ws' ∧ ws'.transaction = some t' ∧
      t'.base = t.base ∧ t'.working = b := by
  induction parts generalizing ws t with
  | nil =>
    refine ⟨ws, t, rfl, ht, rfl, ?_⟩
    rw [← show ws.visible = b from h, Workspace.visible, ht]
  | cons part rest ih =>
    obtain ⟨name, answer, next, hname, hperform, h⟩ := h
    obtain ⟨t₁, hwrite, hbase, hworking⟩ := exists_write ht hperform
    obtain ⟨ws', t', hparts, ht', hbase', hb⟩ : ∃ ws' t',
        writeParts cs rest { ws with transaction := some t₁ } = .ok () ws' ∧
          ws'.transaction = some t' ∧ t'.base = t₁.base ∧ t'.working = b :=
      ih rfl (show Puts cs rest t₁.working b from hworking ▸ h)
    refine ⟨ws', t', ?_, ht', hbase'.trans hbase, hb⟩
    rw [writeParts, bind_eq_ok]
    refine ⟨name, ws, lift_eq_ok.2 ⟨collectionFor_eq_ok.2 hname, rfl⟩, ?_⟩
    exact bind_eq_ok.2 ⟨(), _, bind_eq_ok.2 ⟨answer, _, hwrite, rfl⟩, hparts⟩

theorem writeParts_append (xs ys : List Part) :
    writeParts cs (xs ++ ys) = (do writeParts cs xs; writeParts cs ys) := by
  induction xs with
  | nil => simp [writeParts]
  | cons part rest ih => simp only [List.cons_append, writeParts, ih, bind_assoc]

/-- A record is written as its documents are, its own last. -/
theorem writeRecord_eq (r : Record) {root : String} (h : cs.get? "" = some root) :
    writeRecord cs r = writeParts cs r.written := by
  have hroot : Record.collectionFor cs "" = .ok root := collectionFor_eq_ok.2 h
  have hlift : (Op.lift (.ok root : Except Refusal String) : Op Refusal String) = pure root := rfl
  rw [writeRecord, Record.written, writeParts_append]
  simp only [writeParts, hroot, hlift, pure_bind, bind_pure_unit]

/-- Work that goes through in a transaction is committed if the store stayed behind at the version
on which the transaction began. -/
theorem exists_inTransaction {α : Type} {work : Op Refusal α} {a : α} {ws₁ : Workspace}
    (hw : Contained work) (h : work ws.opened = .ok a ws₁) (ht : ws₁.transaction = some t)
    (hbase : t.base = ws.store.catalog.version) :
    ∃ ws', inTransaction work ws = .ok a ws' ∧ ws'.transaction = none ∧
      ws'.supply = ws₁.supply ∧ ws'.store = (ws.store.advance t.working).count
        (t.counters + { Counters.zero with committed := 1 }) := by
  have hstore : ws₁.store = ws.store := after_of_ok h ▸ (after_work hw ws).1.store
  have hcommit : ws₁.store.commit t = .ok ((ws.store.advance t.working).count
      (t.counters + { Counters.zero with committed := 1 })) := by
    rw [hstore, Store.commit, if_pos hbase.symm]
  rw [inTransaction_eq]
  simp only [h, after_of_ok h, ht, Option.getD_some]
  rw [bind_apply, commitTransaction_eq, hcommit]
  exact ⟨_, rfl, rfl, rfl, rfl⟩

variable {d : Dataset} {held : Holding} {r : Record}

/-- What can be put into the catalog is saved: the catalog that comes out is committed. -/
theorem exists_saveRecord_of_puts (hheld : d.standing.holding? = some held)
    (h : Puts held.definition.collections r.written ws.store.catalog b) :
    ∃ ws', saveRecord d r ws = .ok () ws' ∧ ws'.transaction = none ∧
      ws'.store.catalog = (ws.store.advance b).catalog := by
  have hlast : (⟨"", r.id, r.document⟩ : Part) ∈ r.written := by simp [Record.written]
  obtain ⟨root, hroot⟩ := h.seat _ hlast
  have hopened : ws.opened.transaction = some ws.store.begin := rfl
  obtain ⟨ws₁, t, hwork, ht, hbase, hworking⟩ := exists_writeParts hopened h
  rw [← writeRecord_eq r hroot] at hwork
  obtain ⟨ws₂, hrun, hclosed, -, hstore⟩ :=
    exists_inTransaction (contained_writeRecord r) hwork ht hbase
  refine ⟨_, bind_eq_ok.2 ⟨_, ws, lift_eq_ok.2 ⟨collections_eq_ok.2 ⟨held, hheld, rfl⟩, rfl⟩,
    bind_eq_ok.2 ⟨(), ws₂, hrun, rfl⟩⟩, hclosed, ?_⟩
  show ws₂.store.catalog = _
  rw [hstore, hworking]
  rfl

/-- A record that is saved is put into the catalog, which is then committed. -/
theorem puts_of_saveRecord (hheld : d.standing.holding? = some held)
    (h : saveRecord d r ws = .ok () ws') :
    ∃ b, Puts held.definition.collections r.written ws.store.catalog b ∧
      ws'.transaction = none ∧ ws'.store.catalog = (ws.store.advance b).catalog := by
  obtain ⟨held', hheld', ws₁, ws₂, hran⟩ := saveRecord_ok h
  obtain rfl : held = held' := Option.some.inj (hheld.symm.trans hheld')
  obtain ⟨root, ws₃, hlift, -⟩ := bind_eq_ok.1 hran.work
  have hroot := collectionFor_eq_ok.1 (lift_eq_ok.1 hlift).1
  have hwork := hran.work
  rw [writeRecord_eq r hroot] at hwork
  have hputs := puts_of_writeParts rfl hwork
  rw [hran.visible] at hputs
  obtain ⟨ws₄, h₄, hclosed, hcatalog⟩ := exists_saveRecord_of_puts hheld hputs
  rw [h] at h₄
  cases h₄
  exact ⟨_, hputs, hclosed, hcatalog⟩

/-- Every document of a record that was saved was admitted. -/
theorem admitted_of_saveRecord (hheld : d.standing.holding? = some held)
    (hs : ws.store.catalog.Screens held.definition.collections s)
    (h : saveRecord d r ws = .ok () ws') :
    ∀ p ∈ r.written, p.Admitted s held.definition.collections := by
  obtain ⟨b, hputs, -⟩ := puts_of_saveRecord hheld h
  exact hputs.admitted hs (settled_written r)

/-- A record of which every document is admitted is saved where no index is unique. -/
theorem exists_saveRecord (hheld : d.standing.holding? = some held)
    (hs : ws.store.catalog.Screens held.definition.collections s)
    (hplain : ws.store.catalog.Plain held.definition.collections)
    (ha : ∀ p ∈ r.written, p.Admitted s held.definition.collections) :
    ∃ ws', saveRecord d r ws = .ok () ws' := by
  obtain ⟨b, hputs⟩ := exists_puts hs hplain (settled_written r) ha
  obtain ⟨ws', h, -⟩ := exists_saveRecord_of_puts hheld hputs
  exact ⟨ws', h⟩

end Dataset
end SchemaKeeper
