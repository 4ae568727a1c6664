import SchemaKeeper.Proofs.Dataset.Trace

/-!
# What the store keeps of datasets

Each stored definition stands under its own identifier, is one that a dataset can have and has a
name of its own, and the collections that it names exist.  Creating, committing and deleting a
dataset store or remove one definition and touch the collections of this dataset alone.
-/
namespace SchemaKeeper

open Catalog Op Provision

/-- The definition that is stored under an identifier. -/
def Connection.stored? (c : Connection) (catalog : Catalog) (id : Uuid) : Option Definition :=
  (catalog.findOne c.definitions "_id" (.string id.text)).bind fun document =>
    (Definition.ofDocument document).toOption

namespace Catalog

/-- The catalog keeps datasets in order. -/
structure Stocked (guarded : Prop) (c : Connection) (l : Ledger) (s : Supply)
    (catalog : Catalog) : Prop where
  keeps : catalog.Keeps
  stored : ∀ key document, catalog.documentAt c.definitions key = some document →
    ∃ d : Definition, document = d.document ∧ d.Traced guarded l s ∧
      ∀ name, d.Names name → catalog.collections.contains name = true
  named : ∀ key key' document document',
    catalog.documentAt c.definitions key = some document →
    catalog.documentAt c.definitions key' = some document' →
    document.get? "name" = document'.get? "name" → key = key'

/-- No two documents of a collection have the same name. -/
def Named (definitions : String) (catalog : Catalog) : Prop :=
  ∀ key key' document document', catalog.documentAt definitions key = some document →
    catalog.documentAt definitions key' = some document' →
    document.get? "name" = document'.get? "name" → key = key'

/-- A definition is stored, with its collections, and no other dataset is touched. -/
structure Stores (c : Connection) (d : Definition) (before after : Catalog) : Prop where
  definitions : ∀ key, after.documentAt c.definitions key =
    if d.key = key then some d.document else before.documentAt c.definitions key
  contains : ∀ q, before.collections.contains q = true → after.collections.contains q = true
  live : ∀ q ∈ d.collections.values, after.collections.contains q = true
  frame : ∀ q, q ≠ c.definitions → q ∉ d.collections.values →
    after.collections.get? q = before.collections.get? q

/-- A definition is removed and certain collections are gone, and nothing else is touched. -/
structure Removes (c : Connection) (key : String) (names : List String)
    (before after : Catalog) : Prop where
  definitions : ∀ q, after.documentAt c.definitions q =
    if key = q then none else before.documentAt c.definitions q
  contains : ∀ q, q ≠ c.definitions →
    (after.collections.contains q = true ↔ before.collections.contains q = true ∧ q ∉ names)
  frame : ∀ q, q ≠ c.definitions → q ∉ names →
    after.collections.get? q = before.collections.get? q

/-- Rules stand in the catalog as the validators of their collections. -/
def Installs (catalog : Catalog) (v : Validators) : Prop :=
  ∀ q rule, v.get? q = some rule → ∃ state, catalog.collections.get? q = some state ∧
    state.validator = some rule.document

/-- Only documents in collections with certain names changed, and no collection came or went. -/
structure Fills (p : String → Prop) (before after : Catalog) : Prop where
  contains : ∀ q, after.collections.contains q = before.collections.contains q
  frame : ∀ q, ¬ p q → after.collections.get? q = before.collections.get? q
  installs : ∀ v, before.Installs v → after.Installs v

variable {guarded : Prop} {c c' : Connection} {l l' : Ledger} {s s' : Supply}
  {catalog before after committed : Catalog} {d : Definition} {key : String} {names : List String}
  {p : String → Prop}

/-- Documents come and go without the validators. -/
theorem Installs.setDocuments {state : Collection} {name : String} {v : Validators}
    (h : catalog.Installs v) (hs : catalog.collections.get? name = some state)
    (documents : Keyed Json) :
    (catalog.setCollection name { state with documents := documents }).Installs v := by
  intro q rule hrule
  obtain ⟨state', hstate', hvalidator⟩ := h q rule hrule
  rw [get?_setCollection]
  split
  · rename_i hq
    subst hq
    rw [hs] at hstate'
    injection hstate' with hstate'
    exact ⟨_, rfl, hstate' ▸ hvalidator⟩
  · exact ⟨state', hstate', hvalidator⟩

/-- A definition is stored under a name that no other document has. -/
theorem Named.stores {definitions : String} (h : before.Named definitions)
    (hs : ∀ key, after.documentAt definitions key =
      if d.key = key then some d.document else before.documentAt definitions key)
    (hfree : ∀ key document, before.documentAt definitions key = some document →
      document.get? "name" = some (.string d.name) → d.key = key) : after.Named definitions := by
  intro key key' document document' hdoc hdoc' heq
  rw [hs] at hdoc hdoc'
  split at hdoc <;> split at hdoc'
  · exact ‹d.key = key›.symm.trans ‹d.key = key'›
  · injection hdoc with hdoc
    subst hdoc
    rw [Definition.get?_document_name] at heq
    exact ‹d.key = key›.symm.trans (hfree _ _ hdoc' heq.symm)
  · injection hdoc' with hdoc'
    subst hdoc'
    rw [Definition.get?_document_name] at heq
    exact (hfree _ _ hdoc heq).symm.trans ‹d.key = key'›
  · exact h _ _ _ _ hdoc hdoc' heq

namespace Stocked

theorem mono (h : catalog.Stocked guarded c l s) (hs : s.Later s')
    (hl : l.AgreeBelow s.drawn l') : catalog.Stocked guarded c l' s' := by
  refine ⟨h.keeps, fun key document hdoc => ?_, h.named⟩
  obtain ⟨d, hd, ht, hexist⟩ := h.stored key document hdoc
  exact ⟨d, hd, ht.mono hs hl, hexist⟩

/-- A stored definition stands under its own identifier. -/
theorem key_eq (h : catalog.Stocked guarded c l s)
    (hd : catalog.documentAt c.definitions key = some d.document) : d.key = key := by
  unfold documentAt at hd
  obtain ⟨state, hstate, hd⟩ := Option.bind_eq_some_iff.1 hd
  have hid := h.keeps _ state hstate key d.document hd
  rw [Definition.get?_document_id] at hid
  injection hid with hid
  injection hid with hid

theorem stored?_of_documentAt (h : catalog.Keeps) (hw : d.Writable)
    (hd : catalog.documentAt c.definitions d.key = some d.document) :
    c.stored? catalog d.id = some d := by
  unfold Connection.stored?
  rw [findOne_id h, show d.id.text = d.key from rfl, hd, Option.bind_some,
    Definition.ofDocument_document hw]
  rfl

/-- What is said of the definition that is stored under an identifier. -/
theorem stored?_eq_some (h : catalog.Stocked guarded c l s) {id : Uuid}
    (hd : c.stored? catalog id = some d) :
    catalog.documentAt c.definitions d.key = some d.document ∧ d.id = id ∧ d.Traced guarded l s ∧
      ∀ name ∈ d.collections.values, catalog.collections.contains name = true := by
  unfold Connection.stored? at hd
  rw [findOne_id h.keeps, Option.bind_eq_some_iff] at hd
  obtain ⟨document, hdoc, hread⟩ := hd
  obtain ⟨d', rfl, ht, hexist⟩ := h.stored _ _ hdoc
  rw [Definition.ofDocument_document ht.writable] at hread
  injection hread with hread
  subst hread
  have hkey := h.key_eq hdoc
  exact ⟨hkey ▸ hdoc, Uuid.text_injective hkey, ht, fun name hn => hexist name (.inl hn)⟩

/-- What a stored definition names exists. -/
theorem contains_of_names (h : catalog.Stocked guarded c l s) {id : Uuid}
    (hd : c.stored? catalog id = some d) {name : String} (hn : d.Names name) :
    catalog.collections.contains name = true := by
  obtain ⟨hdoc, -, ht, -⟩ := h.stored?_eq_some hd
  obtain ⟨d', heq, ht', hexist⟩ := h.stored _ _ hdoc
  have hread := congrArg Definition.ofDocument heq
  rw [Definition.ofDocument_document ht.writable, Definition.ofDocument_document ht'.writable]
    at hread
  injection hread with hread
  exact hexist name (hread ▸ hn)

/-- What storing a definition does keeps the catalog in order, if no other definition has its name
and what it names exists. -/
theorem stores (h : before.Stocked guarded c l s) (hd : d.Traced guarded l s) (hk : after.Keeps)
    (hs : Stores c d before after)
    (hexist : ∀ name, d.Names name → after.collections.contains name = true)
    (hnamed : ∀ key document, before.documentAt c.definitions key = some document →
      document.get? "name" = some (.string d.name) → d.key = key) :
    after.Stocked guarded c l s := by
  refine ⟨hk, fun key document hdoc => ?_, Named.stores h.named hs.definitions hnamed⟩
  rw [hs.definitions] at hdoc
  split at hdoc
  · injection hdoc with hdoc
    exact ⟨d, hdoc.symm, hd, hexist⟩
  · obtain ⟨d', hd', ht', hexist'⟩ := h.stored key document hdoc
    exact ⟨d', hd', ht', fun name hn => hs.contains name (hexist' name hn)⟩

/-- What removing a definition does keeps the catalog in order, if the names that went were those
of its dataset. -/
theorem removes (h : before.Stocked guarded c l s) (hf : s.Fits c.definitions) (hk : after.Keeps)
    {id : Uuid} (hnames : ∀ name ∈ names, ∃ path, l.Ascribes s.ids s.drawn name id path)
    (hr : Removes c id.text names before after) : after.Stocked guarded c l s := by
  have hkept : ∀ {key document}, after.documentAt c.definitions key = some document →
      id.text ≠ key ∧ before.documentAt c.definitions key = some document := by
    intro key document hdoc
    rw [hr.definitions] at hdoc
    split at hdoc
    · cases hdoc
    · exact ⟨‹_›, hdoc⟩
  refine ⟨hk, fun key document hdoc => ?_, fun key key' document document' hdoc hdoc' heq =>
    h.named _ _ _ _ (hkept hdoc).2 (hkept hdoc').2 heq⟩
  obtain ⟨hne, hdoc⟩ := hkept hdoc
  obtain ⟨d', hd', ht', hexist⟩ := h.stored key document hdoc
  refine ⟨d', hd', ht', fun name hn => ?_⟩
  obtain ⟨path, ha⟩ := ht'.ascribes hn
  refine (hr.contains name (hf.ne_definitions ha)).2 ⟨hexist name hn, fun hin => hne ?_⟩
  -- The name would be one of the dataset that is removed.
  obtain ⟨path', ha'⟩ := hnames name hin
  subst hd'
  rw [(hf.ascribes_unique ha' ha).1]
  exact h.key_eq hdoc

/-- Writing into collections of datasets keeps the catalog in order. -/
theorem fills (h : before.Stocked guarded c l s) (hk : after.Keeps) (hf : Fills p before after)
    (hp : ¬ p c.definitions) : after.Stocked guarded c l s := by
  have hsame : ∀ key, after.documentAt c.definitions key = before.documentAt c.definitions key := by
    intro key
    rw [documentAt, documentAt, hf.frame _ hp]
  refine ⟨hk, fun key document hdoc => ?_, fun key key' document document' hdoc hdoc' heq => ?_⟩
  · obtain ⟨d, hd, ht, hexist⟩ := h.stored key document (hsame key ▸ hdoc)
    exact ⟨d, hd, ht, fun name hn => (hf.contains name).trans (hexist name hn)⟩
  · exact h.named _ _ _ _ (hsame key ▸ hdoc) (hsame key' ▸ hdoc') heq

/-- Connections that keep their definitions in one place keep the same datasets. -/
theorem congr (h : catalog.Stocked guarded c l s) (hc : c'.definitions = c.definitions) :
    catalog.Stocked guarded c' l s := by
  obtain ⟨hkeeps, hstored, hnamed⟩ := h
  rw [← hc] at hstored hnamed
  exact ⟨hkeeps, hstored, hnamed⟩

end Stocked

/-- Connections that keep their definitions in one place find the same ones stored. -/
theorem stored?_congr (hc : c'.definitions = c.definitions) (catalog : Catalog) (id : Uuid) :
    c'.stored? catalog id = c.stored? catalog id := by
  rw [Connection.stored?, Connection.stored?, hc]

theorem Stores.congr (h : Stores c d before after) (hc : c'.definitions = c.definitions) :
    Stores c' d before after := by
  obtain ⟨hdefinitions, hcontains, hlive, hframe⟩ := h
  rw [← hc] at hdefinitions hframe
  exact ⟨hdefinitions, hcontains, hlive, hframe⟩

theorem Removes.congr (h : Removes c key names before after)
    (hc : c'.definitions = c.definitions) : Removes c' key names before after := by
  obtain ⟨hdefinitions, hcontains, hframe⟩ := h
  rw [← hc] at hdefinitions hcontains hframe
  exact ⟨hdefinitions, hcontains, hframe⟩

/-- What is stored after a definition was stored. -/
theorem Stores.stored? (h : Stores c d before after) (hb : before.Keeps) (ha : after.Keeps)
    (hw : d.Writable) (id : Uuid) :
    c.stored? after id = if d.id = id then some d else c.stored? before id := by
  have hat := h.definitions id.text
  by_cases hid : d.id = id
  · subst hid
    have hkey : d.key = d.id.text := rfl
    rw [if_pos hkey] at hat
    rw [if_pos rfl]
    exact Stocked.stored?_of_documentAt ha hw hat
  · have hkey : d.key ≠ id.text := fun hkey => hid (Uuid.text_injective hkey)
    rw [if_neg hkey] at hat
    rw [if_neg hid, Connection.stored?, Connection.stored?, findOne_id ha, findOne_id hb, hat]

/-- What is stored after a definition was removed. -/
theorem Removes.stored? {id : Uuid} (h : Removes c id.text names before after) (hb : before.Keeps)
    (ha : after.Keeps) (id' : Uuid) :
    c.stored? after id' = if id = id' then none else c.stored? before id' := by
  have hat := h.definitions id'.text
  rw [Connection.stored?, Connection.stored?, findOne_id ha, findOne_id hb, hat]
  by_cases hid : id = id'
  · simp [hid]
  · have hkey : id.text ≠ id'.text := fun hkey => hid (Uuid.text_injective hkey)
    rw [if_neg hkey, if_neg hid]

/-- Writing into other collections leaves the stored definitions alone. -/
theorem Fills.stored? (h : Fills p before after) (hb : before.Keeps) (ha : after.Keeps)
    (hp : ¬ p c.definitions) (id : Uuid) : c.stored? after id = c.stored? before id := by
  rw [Connection.stored?, Connection.stored?, findOne_id ha, findOne_id hb, documentAt,
    documentAt, h.frame _ hp]

end Catalog

namespace Op
variable {c : Connection} {d : Definition} {before working committed : Catalog} {name id : String}

/-- A document without fractions is committed as it was written. -/
theorem Settles.documentAt (h : Settles before working committed)
    (hj : ∀ j, working.documentAt name id = some j → j.FloatFree) :
    committed.documentAt name id = working.documentAt name id := by
  cases hw : working.documentAt name id with
  | some j => exact (h.keptAs.documentAt_iff (hj j hw)).2 hw
  | none =>
    rcases h.keptAs.documentAt name id with h | ⟨a, b, ha, -⟩
    · exact h.trans hw
    · rw [hw] at ha
      cases ha

theorem Settles.stores (h : Settles before working committed)
    (hb : ∀ key j, before.documentAt c.definitions key = some j → j.FloatFree)
    (hs : Stores c d before working) : Stores c d before committed := by
  refine ⟨fun key => ?_, fun q hq => ?_, fun q hq => ?_, fun q hn hq => h.frame (hs.frame q hn hq)⟩
  · rw [h.documentAt fun j hj => ?_, hs.definitions]
    rw [hs.definitions] at hj
    split at hj
    · injection hj with hj
      exact hj ▸ d.floatFree_document
    · exact hb key j hj
  · rw [h.keptAs.contains]
    exact hs.contains q hq
  · rw [h.keptAs.contains]
    exact hs.live q hq

theorem Settles.removes {key : String} {names : List String}
    (h : Settles before working committed)
    (hb : ∀ key j, before.documentAt c.definitions key = some j → j.FloatFree)
    (hr : Removes c key names before working) : Removes c key names before committed := by
  refine ⟨fun q => ?_, fun q hn => ?_, fun q hn hq => h.frame (hr.frame q hn hq)⟩
  · rw [h.documentAt fun j hj => ?_, hr.definitions]
    rw [hr.definitions] at hj
    split at hj
    · cases hj
    · exact hb q j hj
  · rw [h.keptAs.contains]
    exact hr.contains q hn

theorem Settles.installs {v : Validators} (h : Settles before working committed)
    (hv : working.Installs v) : committed.Installs v := by
  intro q rule hrule
  obtain ⟨state, hstate, hvalidator⟩ := hv q rule hrule
  exact h.keptAs.validator rule.floatFree_document hstate hvalidator

theorem Settles.fills {p : String → Prop} (h : Settles before working committed)
    (hf : Fills p before working) : Fills p before committed :=
  ⟨fun q => (h.keptAs.contains q).trans (hf.contains q), fun q hq => h.frame (hf.frame q hq),
    fun v hv => h.installs (hf.installs v hv)⟩

end Op
end SchemaKeeper
