import SchemaKeeper.Proofs.Json
import SchemaKeeper.Proofs.Outcome
import SchemaKeeper.Store.Catalog

/-!
# Changes to a catalog

Each kind of write has one lemma that says all it does to the collection it is about; every other
collection stays as it is.  Documents stand under their own identifiers, so one is found by its
identifier exactly when it stands there.
-/
namespace SchemaKeeper

/-- The collection that a write is about. -/
def Write.target : Write → String
  | .createCollection name => name
  | .dropCollection name => name
  | .createIndex name _ => name
  | .setValidator name _ => name
  | .insertOne name _ => name
  | .replaceOne name _ _ _ => name
  | .deleteOne name _ => name

/-- Every document of the collection stands under its own identifier. -/
def Collection.Keeps (state : Collection) : Prop :=
  ∀ id document, state.documents.get? id = some document →
    document.get? "_id" = some (.string id)

/-- The document that is written, to stand in a collection or as its validator. -/
def Write.document? : Write → Option Json
  | .setValidator _ document | .insertOne _ document | .replaceOne _ _ document _ => some document
  | .createCollection _ | .dropCollection _ | .createIndex _ _ | .deleteOne _ _ => none

/-- All documents of the collection have a property, and so has its validator. -/
structure Collection.Holds (p : Json → Prop) (state : Collection) : Prop where
  documents : ∀ id document, state.documents.get? id = some document → p document
  validator : ∀ document, state.validator = some document → p document

namespace Catalog
variable {c c' : Catalog} {name id : String} {document : Json} {answer : Bool} {p : Json → Prop}

@[simp] theorem get?_setCollection (c : Catalog) (name : String) (state : Collection) (q : String) :
    (c.setCollection name state).collections.get? q =
      if name = q then some state else c.collections.get? q :=
  Keyed.get?_insert name state c.collections q

theorem collection_eq_ok {state : Collection} :
    c.collection name = .ok state ↔ c.collections.get? name = some state := by
  unfold collection
  cases c.collections.get? name <;> simp

/-! ## What each write does -/

theorem createCollection_ok (h : c.perform (.createCollection name) = .ok (answer, c')) :
    c.collections.get? name = none ∧ c' = c.setCollection name .empty := by
  rw [perform] at h
  split at h
  · cases h
  · rename_i hn
    injection h with h
    injection h with _ h
    exact ⟨by simpa [Keyed.contains] using hn, h.symm⟩

theorem dropCollection_ok (h : c.perform (.dropCollection name) = .ok (answer, c')) (q : String) :
    c'.collections.get? q = if name = q then none else c.collections.get? q := by
  rw [perform] at h
  split at h
  · injection h with h
    injection h with _ h
    rw [← h, Keyed.get?_erase]
  · rename_i hn
    injection h with h
    injection h with _ h
    subst h
    split
    · rename_i hq
      subst hq
      simpa [Keyed.contains] using hn
    · rfl

/-- An index is added unless there is one on the same fields; a unique one, only if the texts of
all keys differ. -/
theorem createIndex_made {index : Index}
    (h : c.perform (.createIndex name index) = .ok (answer, c')) :
    ∃ state, c.collections.get? name = some state ∧ ((answer = false ∧ c' = c) ∨
      (answer = true ∧ (index.unique = true → state.hasDuplicate index = false) ∧
        c' = c.setCollection name { state with indexes := state.indexes ++ [index] })) := by
  rw [perform] at h
  obtain ⟨state, hs, h⟩ := bind_eq_ok_iff.1 h
  refine ⟨state, collection_eq_ok.1 hs, ?_⟩
  split at h
  · injection h with h
    injection h with ha h
    exact .inl ⟨ha.symm, h.symm⟩
  · simp only at h
    split at h
    · cases h
    · rename_i hduplicate
      injection h with h
      injection h with ha h
      refine .inr ⟨ha.symm, fun hu => ?_, h.symm⟩
      simpa [hu] using hduplicate

theorem createIndex_ok {index : Index}
    (h : c.perform (.createIndex name index) = .ok (answer, c')) :
    ∃ state indexes, c.collections.get? name = some state ∧
      c'.collections = c.collections.insert name { state with indexes := indexes } := by
  obtain ⟨state, hs, ⟨-, rfl⟩ | ⟨-, -, rfl⟩⟩ := createIndex_made h
  · refine ⟨state, state.indexes, hs, Keyed.ext_get? fun q => ?_⟩
    rw [Keyed.get?_insert]
    split
    · rename_i hq
      rw [← hq, hs]
    · rfl
  · exact ⟨state, _, hs, rfl⟩

theorem setValidator_ok (h : c.perform (.setValidator name document) = .ok (answer, c')) :
    ∃ state, c.collections.get? name = some state ∧
      c' = c.setCollection name { state with validator := some document } := by
  obtain ⟨state, hs, h⟩ := bind_eq_ok_iff.1 h
  injection h with h
  injection h with _ h
  exact ⟨state, collection_eq_ok.1 hs, h.symm⟩

theorem insertOne_ok (h : c.perform (.insertOne name document) = .ok (answer, c')) :
    ∃ id state, documentId document = .ok id ∧ c.collections.get? name = some state ∧
      state.documents.get? id = none ∧ state.accept name id document = .ok () ∧
      c' = c.setCollection name { state with documents := state.documents.insert id document } := by
  obtain ⟨id, hid, h⟩ := bind_eq_ok_iff.1 h
  obtain ⟨state, hs, h⟩ := bind_eq_ok_iff.1 h
  refine ⟨id, state, hid, collection_eq_ok.1 hs, ?_⟩
  split at h
  · cases h
  · rename_i hn
    obtain ⟨⟨⟩, haccept, h⟩ := bind_eq_ok_iff.1 h
    injection h with h
    injection h with _ h
    exact ⟨by simpa [Keyed.contains] using hn, haccept, h.symm⟩

theorem replaceOne_ok {upsert : Bool}
    (h : c.perform (.replaceOne name id document upsert) = .ok (answer, c')) :
    documentId document = .ok id ∧ ∃ state, c.collections.get? name = some state ∧
      ((answer = true ∧ (upsert = true ∨ ∃ before, state.documents.get? id = some before) ∧
          state.accept name id document = .ok () ∧ c' = c.setCollection name
            { state with documents := state.documents.insert id document }) ∨
        answer = false ∧ upsert = false ∧ c' = c) := by
  obtain ⟨own, hid, h⟩ := bind_eq_ok_iff.1 h
  split at h
  · cases h
  · rename_i hown
    have hown : own = id := by simpa using hown
    subst hown
    obtain ⟨state, hs, h⟩ := bind_eq_ok_iff.1 h
    refine ⟨hid, state, collection_eq_ok.1 hs, ?_⟩
    split at h
    · rename_i hn
      injection h with h
      injection h with ha h
      refine .inr ⟨ha.symm, ?_, h.symm⟩
      simpa using (Bool.and_eq_true_iff.1 hn).1
    · rename_i hn
      obtain ⟨⟨⟩, haccept, h⟩ := bind_eq_ok_iff.1 h
      injection h with h
      injection h with ha h
      refine .inl ⟨ha.symm, ?_, haccept, h.symm⟩
      cases upsert with
      | true => exact .inl rfl
      | false => exact .inr (Keyed.contains_iff.1 (by simpa using hn))

theorem deleteOne_ok (h : c.perform (.deleteOne name id) = .ok (answer, c')) :
    (c.collections.get? name = none ∧ c' = c) ∨
      ∃ state, c.collections.get? name = some state ∧ c'.collections =
        c.collections.insert name { state with documents := state.documents.erase id } := by
  rw [perform] at h
  cases hs : c.collections.get? name with
  | none =>
    rw [hs] at h
    injection h with h
    injection h with _ h
    exact .inl ⟨rfl, h.symm⟩
  | some state =>
    simp only [hs] at h
    refine .inr ⟨state, rfl, ?_⟩
    split at h
    · injection h with h
      injection h with _ h
      rw [← h]
      rfl
    · rename_i hn
      injection h with h
      injection h with _ h
      have hkept : state.documents.erase id = state.documents := by
        refine Keyed.ext_get? fun q => ?_
        rw [Keyed.get?_erase]
        split
        · rename_i hq
          subst hq
          rw [Bool.not_eq_true, Keyed.contains, Option.isSome_eq_false_iff,
            Option.isNone_iff_eq_none] at hn
          exact hn.symm
        · rfl
      rw [← h, hkept]
      refine Keyed.ext_get? fun q => ?_
      rw [Keyed.get?_insert]
      split
      · rename_i hq
        rw [← hq, hs]
      · rfl

/-- A write leaves every collection alone but the one that it is about. -/
theorem perform_frame {w : Write} (h : c.perform w = .ok (answer, c')) {q : String}
    (hq : w.target ≠ q) : c'.collections.get? q = c.collections.get? q := by
  cases w with
  | createCollection name =>
    have hne : name ≠ q := hq
    obtain ⟨-, rfl⟩ := createCollection_ok h
    rw [get?_setCollection, if_neg hne]
  | dropCollection name =>
    have hne : name ≠ q := hq
    rw [dropCollection_ok h, if_neg hne]
  | createIndex name index =>
    have hne : name ≠ q := hq
    obtain ⟨state, indexes, -, hc⟩ := createIndex_ok h
    rw [hc, Keyed.get?_insert, if_neg hne]
  | setValidator name validator =>
    have hne : name ≠ q := hq
    obtain ⟨state, -, rfl⟩ := setValidator_ok h
    rw [get?_setCollection, if_neg hne]
  | insertOne name document =>
    have hne : name ≠ q := hq
    obtain ⟨id, state, -, -, -, -, rfl⟩ := insertOne_ok h
    rw [get?_setCollection, if_neg hne]
  | replaceOne name id document upsert =>
    have hne : name ≠ q := hq
    obtain ⟨-, state, -, ⟨-, -, -, rfl⟩ | ⟨-, -, rfl⟩⟩ := replaceOne_ok h
    · rw [get?_setCollection, if_neg hne]
    · rfl
  | deleteOne name id =>
    have hne : name ≠ q := hq
    obtain ⟨-, rfl⟩ | ⟨state, -, hc⟩ := deleteOne_ok h
    · rfl
    · rw [hc, Keyed.get?_insert, if_neg hne]

/-- A write that answers no leaves the catalog alone. -/
theorem perform_false {w : Write} (h : c.perform w = .ok (false, c')) : c' = c := by
  cases w with
  | createCollection name =>
    rw [perform] at h
    split at h <;> cases h
  | dropCollection name =>
    rw [perform] at h
    split at h
    · cases h
    · injection h with h
      injection h with _ h
      exact h.symm
  | createIndex name index =>
    obtain ⟨-, -, ⟨-, rfl⟩ | ⟨hfalse, -⟩⟩ := createIndex_made h
    · rfl
    · cases hfalse
  | setValidator name document =>
    obtain ⟨_, -, h⟩ := bind_eq_ok_iff.1 h
    cases h
  | insertOne name document =>
    obtain ⟨_, -, h⟩ := bind_eq_ok_iff.1 h
    obtain ⟨_, -, h⟩ := bind_eq_ok_iff.1 h
    split at h
    · cases h
    · obtain ⟨_, -, h⟩ := bind_eq_ok_iff.1 h
      cases h
  | replaceOne name id document upsert =>
    obtain ⟨-, -, -, ⟨hfalse, -⟩ | ⟨-, -, rfl⟩⟩ := replaceOne_ok h
    · cases hfalse
    · rfl
  | deleteOne name id =>
    rw [perform] at h
    split at h
    · injection h with h
      injection h with _ h
      exact h.symm
    · split at h
      · cases h
      · injection h with h
        injection h with _ h
        exact h.symm

/-- What a write makes of the collection that it is about. -/
inductive Makes (c : Catalog) : Write → Collection → Prop where
  | createCollection {name : String} : Makes c (.createCollection name) .empty
  | createIndex {name : String} {index : Index} {state : Collection}
    (found : c.collections.get? name = some state)
    (told : index.unique = true → state.hasDuplicate index = false) :
    Makes c (.createIndex name index) { state with indexes := state.indexes ++ [index] }
  | setValidator {name : String} {document : Json} {state : Collection}
    (found : c.collections.get? name = some state) :
    Makes c (.setValidator name document) { state with validator := some document }
  | insertOne {name id : String} {document : Json} {state : Collection}
    (found : c.collections.get? name = some state) (own : documentId document = .ok id)
    (accepted : state.accept name id document = .ok ()) :
    Makes c (.insertOne name document)
      { state with documents := state.documents.insert id document }
  | replaceOne {name id : String} {document : Json} {upsert : Bool} {state : Collection}
    (found : c.collections.get? name = some state) (own : documentId document = .ok id)
    (accepted : state.accept name id document = .ok ()) :
    Makes c (.replaceOne name id document upsert)
      { state with documents := state.documents.insert id document }
  | deleteOne {name id : String} {state : Collection}
    (found : c.collections.get? name = some state) :
    Makes c (.deleteOne name id) { state with documents := state.documents.erase id }

/-- A collection that is there after a write was there before, or the write has made it. -/
theorem kept_or_made {w : Write} {state : Collection} (h : c.perform w = .ok (answer, c'))
    (hs : c'.collections.get? name = some state) :
    c.collections.get? name = some state ∨ w.target = name ∧ c.Makes w state := by
  have hput : ∀ {q : String} {made : Collection}, c.Makes w made → w.target = q →
      c'.collections = c.collections.insert q made →
      c.collections.get? name = some state ∨ w.target = name ∧ c.Makes w state := by
    intro q made hmakes hq hc
    rw [hc, Keyed.get?_insert] at hs
    split at hs
    · rename_i hname
      injection hs with hs
      exact .inr ⟨hq.trans hname, hs ▸ hmakes⟩
    · exact .inl hs
  cases w with
  | createCollection q =>
    obtain ⟨-, rfl⟩ := createCollection_ok h
    exact hput .createCollection rfl rfl
  | dropCollection q =>
    rw [dropCollection_ok h] at hs
    split at hs
    · cases hs
    · exact .inl hs
  | createIndex q index =>
    obtain ⟨before, hbefore, ⟨-, rfl⟩ | ⟨-, htold, rfl⟩⟩ := createIndex_made h
    · exact .inl hs
    · exact hput (.createIndex hbefore htold) rfl rfl
  | setValidator q document =>
    obtain ⟨before, hbefore, rfl⟩ := setValidator_ok h
    exact hput (.setValidator hbefore) rfl rfl
  | insertOne q document =>
    obtain ⟨id, before, hid, hbefore, -, haccept, rfl⟩ := insertOne_ok h
    exact hput (.insertOne hbefore hid haccept) rfl rfl
  | replaceOne q id document upsert =>
    obtain ⟨hid, before, hbefore, ⟨-, -, haccept, rfl⟩ | ⟨-, -, rfl⟩⟩ := replaceOne_ok h
    · exact hput (.replaceOne hbefore hid haccept) rfl rfl
    · exact .inl hs
  | deleteOne q id =>
    obtain ⟨-, rfl⟩ | ⟨before, hbefore, hc⟩ := deleteOne_ok h
    · exact .inl hs
    · exact hput (.deleteOne hbefore) rfl hc

/-! ## Documents under their identifiers -/

/-- Every document stands under its own identifier. -/
def Keeps (c : Catalog) : Prop :=
  ∀ name state, c.collections.get? name = some state → state.Keeps

theorem documentId_eq_ok :
    documentId document = .ok id ↔ document.get? "_id" = some (.string id) := by
  unfold documentId
  split
  · rename_i h
    simp [h]
  · rename_i h
    simp only [reduceCtorEq, false_iff]
    exact h id

/-- Writes keep documents under their own identifiers. -/
theorem Keeps.perform {w : Write} (hc : c.Keeps) (h : c.perform w = .ok (answer, c')) :
    c'.Keeps := by
  intro name state hs q d hd
  obtain hs | ⟨-, hmakes⟩ := kept_or_made h hs
  · exact hc name state hs q d hd
  cases hmakes with
  | createCollection => cases hd
  | createIndex found | setValidator found => exact hc _ _ found q d hd
  | insertOne found own | replaceOne found own =>
    rw [Keyed.get?_insert] at hd
    split at hd
    · rename_i hq
      injection hd with hd
      rw [← hd, ← hq, documentId_eq_ok.1 own]
    · exact hc _ _ found q d hd
  | deleteOne found =>
    rw [Keyed.get?_erase] at hd
    split at hd
    · cases hd
    · exact hc _ _ found q d hd

/-! ## What all documents have in common -/

/-- All documents and validators have a property. -/
def Holds (p : Json → Prop) (c : Catalog) : Prop :=
  ∀ name state, c.collections.get? name = some state → state.Holds p

theorem holds_empty (p : Json → Prop) : Catalog.empty.Holds p := nofun

/-- A property of all documents is kept by writes of documents that have it. -/
theorem Holds.perform {w : Write} (hc : c.Holds p) (hw : ∀ d, w.document? = some d → p d)
    (h : c.perform w = .ok (answer, c')) : c'.Holds p := by
  intro name state hs
  obtain hs | ⟨-, hmakes⟩ := kept_or_made h hs
  · exact hc name state hs
  cases hmakes with
  | createCollection => exact ⟨nofun, nofun⟩
  | createIndex found => exact ⟨(hc _ _ found).documents, (hc _ _ found).validator⟩
  | setValidator found => exact ⟨(hc _ _ found).documents, hw⟩
  | @insertOne _ _ document _ found own | @replaceOne _ _ document _ _ found own =>
    refine ⟨fun q d hd => ?_, (hc _ _ found).validator⟩
    rw [Keyed.get?_insert] at hd
    split at hd
    · injection hd with hd
      exact hd ▸ hw document rfl
    · exact (hc _ _ found).documents q d hd
  | deleteOne found =>
    refine ⟨fun q d hd => ?_, (hc _ _ found).validator⟩
    rw [Keyed.get?_erase] at hd
    split at hd
    · cases hd
    · exact (hc _ _ found).documents q d hd

/-- The document with an identifier in a collection, if there is one. -/
def documentAt (c : Catalog) (name id : String) : Option Json :=
  c.collections.get? name >>= fun state => state.documents.get? id

theorem find?_values {ds : Keyed Json} {id : String} {p : Json → Bool}
    (hp : ∀ d ∈ ds.values, p d = true ↔ ds.get? id = some d) : ds.values.find? p = ds.get? id := by
  cases hf : ds.values.find? p with
  | some d =>
    exact ((hp d (List.mem_of_find?_eq_some hf)).1 (List.find?_some hf)).symm
  | none =>
    cases hg : ds.get? id with
    | none => rfl
    | some d =>
      have hd := Keyed.mem_values.2 ⟨id, hg⟩
      exact absurd ((hp d hd).2 hg) (List.find?_eq_none.1 hf d hd)

/-- A document is found by its identifier where it stands. -/
theorem findOne_id (hc : c.Keeps) :
    c.findOne name "_id" (.string id) = c.documentAt name id := by
  rw [findOne, documentAt]
  cases hs : c.collections.get? name with
  | none => rfl
  | some state =>
    refine find?_values fun d hd => ?_
    obtain ⟨k, hk⟩ := Keyed.mem_values.1 hd
    rw [hc name state hs k d hk]
    constructor
    · intro h
      have hkid : k = id := by simpa [Json.same] using h
      exact hkid ▸ hk
    · intro h
      have hid := hc name state hs id d h
      rw [hc name state hs k d hk] at hid
      injection hid with hid
      injection hid with hid
      simp [hid, Json.same]

/-- A document that is found stands in the collection. -/
theorem mem_of_findOne {field : String} {v : Json}
    (h : c.findOne name field v = some document) :
    ∃ state id, c.collections.get? name = some state ∧
      state.documents.get? id = some document := by
  unfold findOne at h
  cases hs : c.collections.get? name with
  | none => rw [hs] at h; cases h
  | some state =>
    rw [hs] at h
    obtain ⟨id, hid⟩ := Keyed.mem_values.1 (List.mem_of_find?_eq_some h)
    exact ⟨state, id, rfl, hid⟩

theorem same_string {j : Json} {t : String} : j.same (.string t) = true ↔ j = .string t := by
  cases j <;> simp [Json.same]

/-- A document that is found by a text has it in the field. -/
theorem get?_of_findOne {field t : String}
    (h : c.findOne name field (.string t) = some document) :
    document.get? field = some (.string t) := by
  unfold findOne at h
  split at h
  · have hp := List.find?_some h
    split at hp
    · rename_i v hv
      rw [hv, same_string.1 hp]
    · cases hp
  · cases h

/-- A document is found by a text that no other document has in the field. -/
theorem findOne_unique {field t : String} (hd : c.documentAt name id = some document)
    (ht : document.get? field = some (.string t))
    (hu : ∀ q document', c.documentAt name q = some document' →
      document'.get? field = some (.string t) → q = id) :
    c.findOne name field (.string t) = some document := by
  unfold documentAt at hd hu
  obtain ⟨state, hs, hd⟩ := Option.bind_eq_some_iff.1 hd
  simp only [hs, Option.bind_eq_bind, Option.bind_some] at hu
  rw [findOne, hs, ← hd]
  refine find?_values fun d hdv => ?_
  obtain ⟨q, hq⟩ := Keyed.mem_values.1 hdv
  constructor
  · intro hsame
    split at hsame
    · rename_i v hv
      rw [← hu q d hq (hv.trans (congrArg some (same_string.1 hsame)))]
      exact hq
    · cases hsame
  · intro hid
    rw [hd] at hid
    injection hid with hid
    simp [← hid, ht, Json.same]

/-- Nothing is found by a text only if no document has it in the field. -/
theorem ne_of_findOne_eq_none {field t : String} (h : c.findOne name field (.string t) = none)
    (hd : c.documentAt name id = some document) : document.get? field ≠ some (.string t) := by
  intro ht
  unfold documentAt at hd
  obtain ⟨state, hs, hd⟩ := Option.bind_eq_some_iff.1 hd
  rw [findOne, hs] at h
  have hnot := List.find?_eq_none.1 h document (Keyed.mem_values.2 ⟨id, hd⟩)
  simp [ht, Json.same] at hnot

/-! ## Catalogs that hold the same -/

theorem get?_sameCollections {q : String} :
    ∀ {as bs : List (String × Collection)}, sameCollections as bs = true →
      (Entries.get? as q = none ∧ Entries.get? bs q = none) ∨
        ∃ a b, Entries.get? as q = some a ∧ Entries.get? bs q = some b ∧ a.same b = true
  | [], [], _ => .inl ⟨rfl, rfl⟩
  | (k, a) :: as, (k', b) :: bs, h => by
    obtain ⟨h1, h2⟩ := Bool.and_eq_true_iff.1 h
    obtain ⟨hk, h3⟩ := Bool.and_eq_true_iff.1 h1
    have hk := eq_of_beq hk
    subst hk
    rw [Entries.get?_cons, Entries.get?_cons]
    by_cases hn : k = q
    · exact .inr ⟨a, b, by simp [hn], by simp [hn], h3⟩
    · simpa [hn] using get?_sameCollections h2

/-- What is kept of a catalog: every collection as it is, or one that holds the same. -/
def KeptAs (c c' : Catalog) : Prop :=
  ∀ q, c'.collections.get? q = c.collections.get? q ∨
    ∃ a b, c.collections.get? q = some a ∧ c'.collections.get? q = some b ∧ a.same b = true

theorem keptAs_of_same (h : c.same c' = true) : c.KeptAs c' := by
  intro q
  rcases get?_sameCollections (q := q) (Bool.and_eq_true_iff.1 h).2 with ⟨h1, h2⟩ | h'
  · exact .inl (h2.trans h1.symm)
  · exact .inr h'

theorem KeptAs.contains (h : c.KeptAs c') (q : String) :
    c'.collections.contains q = c.collections.contains q := by
  unfold Keyed.contains
  rcases h q with h | ⟨a, b, ha, hb, -⟩
  · rw [h]
  · rw [ha, hb]
    rfl

/-- A document is kept up to the zeros in it. -/
theorem KeptAs.documentAt (h : c.KeptAs c') (name id : String) :
    c'.documentAt name id = c.documentAt name id ∨
      ∃ a b, c.documentAt name id = some a ∧ c'.documentAt name id = some b ∧
        a.same b = true := by
  unfold Catalog.documentAt
  rcases h name with h | ⟨a, b, ha, hb, hab⟩
  · exact .inl (by rw [h])
  · rw [ha, hb]
    have hdocs := (Bool.and_eq_true_iff.1 (Bool.and_eq_true_iff.1 hab).1).1
    rcases Json.get?_sameMembers id hdocs with ⟨h1, h2⟩ | h
    · exact .inl (h2.trans h1.symm)
    · exact .inr h

/-- A document without fractions is kept as it is. -/
theorem KeptAs.documentAt_iff (h : c.KeptAs c') {name id : String} {j : Json}
    (hj : j.FloatFree) : c'.documentAt name id = some j ↔ c.documentAt name id = some j := by
  rcases h.documentAt name id with h | ⟨a, b, ha, hb, hab⟩
  · rw [h]
  · rw [ha, hb]
    constructor
    · rintro ⟨⟩
      rw [Json.eq_of_same hj hab]
    · rintro ⟨⟩
      rw [Json.same_comm] at hab
      rw [Json.eq_of_same hj hab]

/-- A validator without fractions is kept as it is. -/
theorem KeptAs.validator (h : c.KeptAs c') {name : String} {state : Collection} {j : Json}
    (hj : j.FloatFree) (hs : c.collections.get? name = some state)
    (hv : state.validator = some j) :
    ∃ state', c'.collections.get? name = some state' ∧ state'.validator = some j := by
  rcases h name with h | ⟨a, b, ha, hb, hab⟩
  · exact ⟨state, h.trans hs, hv⟩
  · refine ⟨b, hb, ?_⟩
    rw [hs] at ha
    injection ha with ha
    subst ha
    have hsame := (Bool.and_eq_true_iff.1 hab).2
    rw [hv] at hsame
    cases hb' : b.validator with
    | none => rw [hb'] at hsame; cases hsame
    | some j' =>
      rw [hb', Collection.sameValidator, Json.same_comm] at hsame
      rw [Json.eq_of_same hj hsame]

end Catalog
end SchemaKeeper
