import SchemaKeeper.Proofs.Dataset.Records
import SchemaKeeper.Proofs.Dataset.Register

/-!
# Catalogs in which names tell datasets apart

Every identifier of a dataset was drawn for one name, and no two stored definitions have the same
name.  The work of a transaction keeps this of whatever copy of the catalog it began with, so it
does not matter for it what others have committed in the meantime.
-/
namespace SchemaKeeper

open Catalog Op Provision

/-- The definition is one that a dataset can have, and its identifier was drawn for its name: in the
ledger the name stands where paths stand for the identifiers of collections. -/
structure Definition.Recorded (l : Ledger) (s : Supply) (d : Definition) : Prop where
  traced : d.Traced False l s
  titled : ∃ k, k < s.drawn ∧ d.id = s.ids k ∧ l k = (d.id, d.name)

namespace Definition.Recorded
variable {l l' : Ledger} {s s' : Supply} {d d' : Definition} {definitions : String}

theorem mono (h : d.Recorded l s) (hs : s.Later s') (hl : l.AgreeBelow s.drawn l') :
    d.Recorded l' s' := by
  obtain ⟨k, hk, hid, hname⟩ := h.titled
  exact ⟨h.traced.mono hs hl, k, Nat.lt_of_lt_of_le hk hs.drawn, by rw [hs.ids, hid],
    (hl k hk).trans hname⟩

/-- One identifier has one name. -/
theorem name_eq (h : d.Recorded l s) (h' : d'.Recorded l s) (hf : s.Fits definitions)
    (hid : d.id = d'.id) : d.name = d'.name := by
  obtain ⟨k, hk, hd, hname⟩ := h.titled
  obtain ⟨k', hk', hd', hname'⟩ := h'.titled
  have hkk := hf.distinct k k' hk hk' (hd.symm.trans (hid.trans hd'))
  rw [hkk, hname'] at hname
  exact (Prod.mk.inj hname).2.symm

/-- What names a dataset is not the collection of the definitions. -/
theorem ne_definitions (h : d.Recorded l s) (hf : s.Fits definitions) {name : String}
    (hn : d.Names name) : name ≠ definitions := by
  obtain ⟨path, ha⟩ := h.traced.ascribes hn
  exact hf.ne_definitions ha

end Definition.Recorded

namespace Catalog
variable {definitions : String} {l l' : Ledger} {s s' : Supply} {before after catalog : Catalog}
  {d : Definition}

/-- A collection was named with an identifier that was drawn, or it is that of the definitions. -/
def Made (definitions : String) (s : Supply) (catalog : Catalog) : Prop :=
  ∀ q, catalog.collections.contains q = true → q = definitions ∨
    ∃ k className, k < s.drawn ∧ q = Layout.collectionName className (s.ids k)

/-- Definitions stand under their identifiers, in a collection without validator and further
indexes; each has a name of its own; and no collection has a name that is still to be made. -/
structure Orderly (definitions : String) (l : Ledger) (s : Supply) (catalog : Catalog) : Prop where
  keeps : catalog.Keeps
  registers : catalog.Registers definitions
  recorded : ∀ key document, catalog.documentAt definitions key = some document →
    ∃ d : Definition, document = d.document ∧ d.Recorded l s
  named : catalog.Named definitions
  made : catalog.Made definitions s

namespace Orderly

theorem mono (h : catalog.Orderly definitions l s) (hs : s.Later s')
    (hl : l.AgreeBelow s.drawn l') : catalog.Orderly definitions l' s' := by
  refine ⟨h.keeps, h.registers, fun key document hd => ?_, h.named, fun q hq => ?_⟩
  · obtain ⟨d, hd, hr⟩ := h.recorded key document hd
    exact ⟨d, hd, hr.mono hs hl⟩
  · refine (h.made q hq).imp_right fun ⟨k, className, hk, hname⟩ => ?_
    exact ⟨k, className, Nat.lt_of_lt_of_le hk hs.drawn, hs.ids ▸ hname⟩

/-- A stored definition stands under its own identifier. -/
theorem key_eq (h : catalog.Orderly definitions l s) {key : String}
    (hd : catalog.documentAt definitions key = some d.document) : d.key = key := by
  obtain ⟨state, hstate, hd⟩ := Option.bind_eq_some_iff.1 hd
  have hid := h.keeps _ state hstate key d.document hd
  rw [Definition.get?_document_id] at hid
  injection hid with hid
  injection hid with hid

/-- What is found in the collection of definitions is a definition. -/
theorem of_findOne (h : catalog.Orderly definitions l s) {field : String} {v document : Json}
    (hfound : catalog.findOne definitions field v = some document) :
    ∃ d : Definition, document = d.document ∧ d.Recorded l s ∧
      catalog.documentAt definitions d.key = some d.document := by
  obtain ⟨state, key, hstate, hdoc⟩ := mem_of_findOne hfound
  have hat : catalog.documentAt definitions key = some document :=
    Option.bind_eq_some_iff.2 ⟨state, hstate, hdoc⟩
  obtain ⟨d, rfl, hd⟩ := h.recorded key document hat
  exact ⟨d, rfl, hd, h.key_eq hat ▸ hat⟩

/-- A definition is found by its name, and by nothing else that has this name. -/
theorem findOne_name (h : catalog.Orderly definitions l s)
    (hd : catalog.documentAt definitions d.key = some d.document) :
    catalog.findOne definitions "name" (.string d.name) = some d.document := by
  refine findOne_unique hd d.get?_document_name fun key other hother hname => ?_
  exact h.named _ _ _ _ hother hd (hname.trans d.get?_document_name.symm)

/-- Where no collection and no definition is new, everything stays in order. -/
theorem shrinks (h : before.Orderly definitions l s) (hk : after.Keeps)
    (hr : after.Registers definitions)
    (hdefinitions : ∀ key document, after.documentAt definitions key = some document →
      before.documentAt definitions key = some document)
    (hcontains : ∀ q, q ≠ definitions → after.collections.contains q = true →
      before.collections.contains q = true) : after.Orderly definitions l s := by
  refine ⟨hk, hr, fun key document hd => h.recorded key document (hdefinitions key document hd),
    fun _ _ _ _ hd hd' => h.named _ _ _ _ (hdefinitions _ _ hd) (hdefinitions _ _ hd'),
    fun q hq => ?_⟩
  by_cases hdef : q = definitions
  · exact .inl hdef
  · exact h.made q (hcontains q hdef hq)

/-- Where one definition is stored, under a name that no other one has, everything stays in
order. -/
theorem stores (h : before.Orderly definitions l s) (hd : d.Recorded l s) (hk : after.Keeps)
    (hr : after.Registers definitions)
    (hdefinitions : ∀ key, after.documentAt definitions key =
      if d.key = key then some d.document else before.documentAt definitions key)
    (hfree : ∀ key document, before.documentAt definitions key = some document →
      document.get? "name" = some (.string d.name) → d.key = key)
    (hmade : after.Made definitions s) : after.Orderly definitions l s := by
  refine ⟨hk, hr, fun key document hdoc => ?_, h.named.stores hdefinitions hfree, hmade⟩
  rw [hdefinitions] at hdoc
  split at hdoc
  · injection hdoc with hdoc
    exact ⟨d, hdoc.symm, hd⟩
  · exact h.recorded key document hdoc

/-- What is committed of a catalog in order is in order. -/
theorem settles (h : before.Orderly definitions l s) {working : Catalog}
    (hw : working.Orderly definitions l s) (hs : Settles before working after) :
    after.Orderly definitions l s := by
  rcases hs with ⟨rfl, -⟩ | hs
  · exact h
  · have hat : ∀ key, after.documentAt definitions key = working.documentAt definitions key :=
      fun key => by rw [documentAt, documentAt, hs]
    refine hw.shrinks (fun q state hq => hw.keeps q state (hs ▸ hq))
      (hw.registers.congr (by rw [hs])) (fun key document hd => hat key ▸ hd) fun q _ hq => ?_
    rw [← hs]
    exact hq

end Orderly

/-- What is laid out has collections with names that were made, if their paths know of no other
ones. -/
theorem Outfits.made {p : String → Prop} (h : Outfits p before after)
    (hb : before.Made definitions s)
    (hp : ∀ q, p q → q = definitions ∨
      ∃ k className, k < s.drawn ∧ q = Layout.collectionName className (s.ids k)) :
    after.Made definitions s := by
  intro q hq
  by_cases hpq : p q
  · exact hp q hpq
  · refine hb q ?_
    rw [Keyed.contains, ← h.frame q hpq]
    exact hq

end Catalog

namespace Dataset
variable {c : Connection} {l : Ledger} {ws ws' : Workspace} {t : Transaction} {d : Dataset}
  {held held' : Holding} {edited live : Schema}

/-- The definition of a dataset is put down after its collections have been laid out. -/
theorem orderly_of_outfits {definitions : String} {s : Supply} {before mid working : Catalog}
    {provision : Provision} {definition : Definition} {state : Collection}
    (h : before.Orderly definitions l s) (hd : definition.Recorded l s)
    (hcollections : definition.collections = provision.collections)
    (houtfits : Outfits (fun q => q = definitions ∨ q ∈ provision.collections.values) before mid)
    (hstate : mid.collections.get? definitions = some state)
    (hworking : working = mid.setCollection definitions
      { state with documents := state.documents.insert definition.key definition.document })
    (hk : working.Keeps) (hr : working.Registers definitions)
    (hfree : ∀ key document, before.documentAt definitions key = some document →
      document.get? "name" = some (.string definition.name) → definition.key = key) :
    working.Orderly definitions l s := by
  have hat : ∀ key, working.documentAt definitions key =
      if definition.key = key then some definition.document
      else before.documentAt definitions key := fun key => by
    rw [hworking, documentAt_insert hstate, documentAt_eq before, ← houtfits.documents,
      ← documentAt_eq]
  refine h.stores hd hk hr hat hfree fun q hq => ?_
  have hmid : mid.Made definitions s := houtfits.made h.made fun q hq => hq.imp_right fun hq => by
    obtain ⟨path, k, className, hk, hname, -⟩ := hd.traced.ascribes (.inl (hcollections ▸ hq))
    exact ⟨k, className, hk, hname⟩
  refine hmid q ?_
  by_cases hdef : definitions = q
  · exact hdef ▸ Keyed.contains_iff.2 ⟨state, hstate⟩
  · rw [hworking, Keyed.contains, get?_setCollection, if_neg hdef] at hq
    exact hq

/-- The work of a creation keeps its copy of the catalog in order, and records the new dataset. -/
theorem build_orderly {name : String} {s : Schema} {mediaType : Option MediaType}
    {persistent : Bool} {k : DocClass} (ht : ws.transaction = some t)
    (h : ws.visible.Orderly c.definitions l ws.supply) (hroot : s.typeAt "" = .ok (.document k))
    (hf : ws'.supply.Fits c.definitions)
    (hop : build c name s mediaType persistent ws = .ok d ws') :
    ∃ (l' : Ledger) (held : Holding), l.AgreeBelow ws.supply.drawn l' ∧
      ws'.visible.Orderly c.definitions l' ws'.supply ∧ d.connection = c ∧
      d.standing = .attached held ∧ held.definition.Recorded l' ws'.supply := by
  have hstays : ws.Stays ws' := by
    have hcontained := contained_build c name s mediaType persistent ws t ht
    rwa [after_of_ok hop] at hcontained
  obtain ⟨ws₁, ws₂, provision, definition, i, j, hreach, hfree, hlaid, hi, hi', hj, hdef, -,
    hc, hstanding, answer, hinsert⟩ := build_ok ht hop
  rw [← hstays.supply.ids] at hdef hlaid
  rw [← hstays.supply.clock] at hdef
  have hstart := hreach.stays.supply.drawn
  -- The identifier of the dataset was drawn last, and is entered with the name.
  obtain ⟨l₁, hl₁, ha⟩ := hlaid.exists_ledger l (ws'.supply.ids i) nofun
  have hl : l₁.AgreeBelow ws₂.supply.drawn (Function.update l₁ i (ws'.supply.ids i, name)) :=
    fun j hj => Function.update_of_ne (by omega) _ _
  have hagree : l.AgreeBelow ws.supply.drawn (Function.update l₁ i (ws'.supply.ids i, name)) :=
    fun j hj => (hl j (by have := hlaid.drawn_le; omega)).trans (hl₁ j (by omega))
  have htraced : (Definition.new (ws'.supply.ids i) (ws'.supply.clock j) name provision.definitions
      mediaType persistent c.settings.version).Traced False
        (Function.update l₁ i (ws'.supply.ids i, name)) ws'.supply :=
    Definition.traced_new hlaid.describes hroot ⟨i, hi', rfl⟩
      (fun path q hq => (ha path q hq).mono (by omega) hl) (hf.writable j hj)
  rw [← hdef] at htraced
  have hrecorded : definition.Recorded (Function.update l₁ i (ws'.supply.ids i, name))
      ws'.supply := by
    refine ⟨htraced, i, hi', by rw [hdef]; rfl, ?_⟩
    rw [Function.update_self, hdef]
    rfl
  have hfields : definition.fields = provision.definitions := by
    rw [hdef]
    exact FieldDefinition.sorted_of_ascending hlaid.describes.ascending
  obtain ⟨id, state, hid, hstate, -, -, hworking⟩ := insertOne_ok hinsert
  rw [eq_key_of_documentId hid] at hworking
  refine ⟨_, _, hagree, ?_, hc, hstanding, hrecorded⟩
  refine orderly_of_outfits (h.mono hstays.supply hagree) hrecorded
    (congrArg FieldDefinition.collections hfields)
    ((hreach.outfits.mono fun q hq => .inl hq).trans (hlaid.outfits.mono fun q hq => .inr hq))
    hstate hworking (hstays.keeps h.keeps) (build_registers ht hop (fun held' hstanding' hin => ?_)
      h.registers) fun key document hdoc hname => ?_
  · rw [hstanding] at hstanding'
    injection hstanding' with hheld
    subst hheld
    exact hrecorded.ne_definitions hf (.inl hin) rfl
  · -- Nothing of this name was found among the definitions.
    have hat : ws₁.visible.documentAt c.definitions key = some document := by
      rw [documentAt_eq, hreach.outfits.documents, ← documentAt_eq]
      exact hdoc
    rw [hdef] at hname
    exact absurd hname (ne_of_findOne_eq_none hfree hat)

/-- The work of a commit keeps its copy of the catalog in order. -/
theorem merge_orderly (ht : ws.transaction = some t)
    (h : ws.visible.Orderly c.definitions l ws.supply)
    (hheld : held.definition.Recorded l ws.supply) (hf : ws'.supply.Fits c.definitions)
    (hop : merge c held edited ws = .ok (held', live) ws') :
    ∃ l' : Ledger, l.AgreeBelow ws.supply.drawn l' ∧
      ws'.visible.Orderly c.definitions l' ws'.supply ∧
      held'.definition.Recorded l' ws'.supply := by
  have hstays : ws.Stays ws' := by
    have hcontained := contained_merge c held edited ws t ht
    rwa [after_of_ok hop] at hcontained
  obtain ⟨ws₁, ws₂, latest, seen, base, v, provision, hread, -, hrests, hlaid, -, rfl, hdrawn,
    hreplace⟩ := merge_ok ht hop
  obtain ⟨document, latest', seen', hfound, hdocument, -, heq⟩ := readFrom_ok hread
  injection heq with _ hstanding
  injection hstanding with hlatest
  injection hlatest with hlatest
  subst hlatest
  obtain ⟨stored, rfl, hstored, hat⟩ := h.of_findOne hfound
  rw [Definition.ofDocument_document hstored.traced.writable] at hdocument
  injection hdocument with hdocument
  subst hdocument
  have hid : stored.id = held.definition.id := by
    have hget := get?_of_findOne hfound
    rw [show DatasetKey.field (.byId held.definition.id) = "_id" from rfl,
      Definition.get?_document_id] at hget
    injection hget with hget
    injection hget with hget
    exact Uuid.text_injective hget
  have hname := hstored.name_eq hheld (hf.of_later hstays.supply) hid
  rw [← hstays.supply.ids] at hlaid
  obtain ⟨l', hl, htraced⟩ := exists_traced_committed hlaid hheld.traced hstored.traced hid
    hstays.supply hrests.supply.drawn hdrawn False.elim
  have hrecorded : (committed held stored provision).Recorded l' ws'.supply :=
    ⟨htraced, (hheld.mono hstays.supply hl).titled⟩
  obtain ⟨-, state, hstate, ⟨-, -, -, hworking⟩ | ⟨hfalse, -⟩⟩ := replaceOne_ok hreplace
  · have hcollections : (committed held stored provision).collections = provision.collections :=
      collections_committed hlaid.describes
    have hapart : c.definitions ∉ provision.collections.values := fun hin =>
      hrecorded.ne_definitions hf (.inl (hcollections ▸ hin)) rfl
    refine ⟨l', hl, ?_, hrecorded⟩
    refine orderly_of_outfits (h.mono hstays.supply hl) hrecorded hcollections
      (hlaid.outfits.mono fun q hq => .inr hq) hstate hworking (hstays.keeps h.keeps)
      ((hlaid.registers hapart h.registers).perform (by trivial) hreplace)
      fun key document hdoc hname' => ?_
    -- A definition of this name is the stored one.
    have hkey := h.named _ _ _ _ hdoc hat (by
      rw [hname', Definition.get?_document_name, hname]
      rfl)
    rw [hkey, Definition.key, Definition.key, hid]
    rfl
  · cases hfalse

/-- The work of a deletion keeps its copy of the catalog in order. -/
theorem demolish_orderly {definition : Definition} (ht : ws.transaction = some t)
    (h : ws.visible.Orderly c.definitions l ws.supply) (hd : definition.Recorded l ws.supply)
    (hf : ws.supply.Fits c.definitions) (hop : demolish c definition ws = .ok () ws') :
    ws'.visible.Orderly c.definitions l ws.supply := by
  have hstays : ws.Stays ws' := by
    have hcontained := contained_demolish c definition ws t ht
    rwa [after_of_ok hop] at hcontained
  obtain ⟨stored, mid₁, mid₂, answer, hdrop₁, hstored, hdrop₂, hdelete⟩ := demolish_ok ht hop
  have hlive : c.definitions ∉ definition.collections.values := fun hin =>
    hd.ne_definitions hf (.inl hin) rfl
  have hretired : c.definitions ∉ (stored.getD definition).retired := by
    cases stored with
    | none => exact fun hin => hd.ne_definitions hf (.inr hin) rfl
    | some d =>
      unfold storedFrom at hstored
      split at hstored
      · cases hstored
      · rename_i document hfound
        obtain ⟨d', hd', heq⟩ := map_eq_ok_iff.1 hstored
        injection heq with heq
        subst heq
        obtain ⟨state, key, hstate, hdoc⟩ := mem_of_findOne hfound
        have hat : mid₁.documentAt c.definitions key = some document :=
          Option.bind_eq_some_iff.2 ⟨state, hstate, hdoc⟩
        rw [hdrop₁.documentAt hlive] at hat
        obtain ⟨d₀, rfl, hrecorded⟩ := h.recorded key document hat
        rw [Definition.ofDocument_document hrecorded.traced.writable] at hd'
        injection hd' with hd'
        subst hd'
        exact fun hin => hrecorded.ne_definitions hf (.inr hin) rfl
  have hall : c.definitions ∉ dropped definition stored := fun hin =>
    (List.mem_append.1 hin).elim hlive hretired
  have hdrops : Drops (dropped definition stored) ws.visible mid₂ := hdrop₁.append hdrop₂
  have hremoves := hdrops.removes hall hdelete
  have hregisters : mid₂.Registers c.definitions :=
    h.registers.congr ((hdrops c.definitions).trans (if_neg hall))
  refine h.shrinks (hstays.keeps h.keeps) (hregisters.perform (by trivial) hdelete)
    (fun key document hdoc => ?_) fun q hq hin => ((hremoves.contains q hq).1 hin).1
  rw [hremoves.definitions] at hdoc
  split at hdoc
  · cases hdoc
  · exact hdoc

/-- The work of saving a record keeps its copy of the catalog in order. -/
theorem writeRecord_orderly {definitions : String} {definition : Definition} {r : Record}
    (ht : ws.transaction = some t) (h : ws.visible.Orderly definitions l ws.supply)
    (hd : definition.Recorded l ws.supply) (hf : ws.supply.Fits definitions)
    (hop : writeRecord definition.collections r ws = .ok () ws') :
    ws'.visible.Orderly definitions l ws.supply := by
  have hstays : ws.Stays ws' := by
    rw [← after_of_ok hop]
    exact contained_writeRecord r ws t ht
  have hfills := writeRecord_ok ht hop
  have hsame := hfills.frame definitions fun hin => hd.ne_definitions hf (.inl hin) rfl
  refine h.shrinks (hstays.keeps h.keeps) (h.registers.congr hsame) (fun key document hdoc => ?_)
    fun q _ hq => (hfills.contains q).symm.trans hq
  rwa [documentAt, hsame] at hdoc

end Dataset
end SchemaKeeper
