import SchemaKeeper.Proofs.Store.Finite
import SchemaKeeper.Proofs.Workspace

/-!
# Indexes and validators

Beside its documents a collection has indexes and perhaps a validator.  An index is added only
where none has the same fields, so of several over the same fields the first stays, unique or not.
Writes of documents leave both alone, and a write that finds nothing to do leaves the whole
workspace alone.
-/
namespace SchemaKeeper

namespace Index
variable {present asked : List Index} {index : Index}

/-- The first index of a list over the given fields. -/
def over? (keys : List (String × Direction)) (indexes : List Index) : Option Index :=
  indexes.find? fun i => decide (i.keys = keys)

/-- The list with an index at its end, unless it has one over the same fields. -/
def added (present : List Index) (index : Index) : List Index :=
  if present.any fun i => decide (i.keys = index.keys) then present else present ++ [index]

theorem over?_eq_none_iff {keys : List (String × Direction)} :
    over? keys present = none ↔ present.any (fun i => decide (i.keys = keys)) = false := by
  simp [over?]

theorem mem_of_over? {keys : List (String × Direction)} (h : over? keys present = some index) :
    index ∈ present ∧ index.keys = keys :=
  ⟨List.mem_of_find?_eq_some h, by simpa using List.find?_some h⟩

/-- What is asked for is listed if it is there already, or if it is the first over its fields. -/
theorem mem_foldl_added : index ∈ asked.foldl added present ↔
    index ∈ present ∨ over? index.keys present = none ∧ over? index.keys asked = some index := by
  induction asked generalizing present with
  | nil => simp [over?]
  | cons i rest ih =>
    rw [List.foldl_cons, ih]
    by_cases hkeys : i.keys = index.keys
    · -- The index that comes first over these fields decides.
      have hfirst : over? index.keys (i :: rest) = some i := by simp [over?, hkeys]
      rw [hfirst, added, hkeys]
      cases hany : present.any fun i => decide (i.keys = index.keys) with
      | true =>
        have hsome : over? index.keys present ≠ none := by simp [over?_eq_none_iff, hany]
        simp [hsome]
      | false =>
        have hlisted : over? index.keys (present ++ [i]) = some i := by
          rw [over?, List.find?_append, ← over?, over?_eq_none_iff.2 hany]
          simp [hkeys]
        simp [hlisted, over?_eq_none_iff.2 hany, eq_comm]
    · have hrest : over? index.keys (i :: rest) = over? index.keys rest := by simp [over?, hkeys]
      have hmem : index ∈ added present i ↔ index ∈ present := by
        have hne : index ≠ i := fun h => hkeys (h ▸ rfl)
        rw [added]
        split <;> simp [hne]
      have hover : over? index.keys (added present i) = over? index.keys present := by
        rw [added]
        split <;> simp [over?, hkeys]
      rw [hrest, hmem, hover]

/-- Afterwards there is an index over the fields of each that was asked for. -/
theorem exists_over?_foldl_added (h : index ∈ asked) :
    ∃ listed, over? index.keys (asked.foldl added present) = some listed := by
  have hasked : ∃ first, over? index.keys asked = some first := by
    rw [← Option.ne_none_iff_exists', ne_eq, over?_eq_none_iff, Bool.not_eq_false]
    exact List.any_eq_true.2 ⟨index, h, by simp⟩
  rw [← Option.ne_none_iff_exists']
  intro hnone
  have hnot : ∀ i ∈ asked.foldl added present, i.keys ≠ index.keys := by
    simpa [over?] using hnone
  cases hpresent : over? index.keys present with
  | some i =>
    obtain ⟨hi, hkeys⟩ := mem_of_over? hpresent
    exact hnot i (mem_foldl_added.2 (.inl hi)) hkeys
  | none =>
    obtain ⟨first, hfirst⟩ := hasked
    have hkeys := (mem_of_over? hfirst).2
    exact hnot first (mem_foldl_added.2 (.inr ⟨hkeys ▸ hpresent, hkeys ▸ hfirst⟩)) hkeys

end Index

/-- The write is about a document. -/
def Write.isOfDocument : Write → Bool
  | .insertOne _ _ | .replaceOne _ _ _ _ | .deleteOne _ _ => true
  | .createCollection _ | .dropCollection _ | .createIndex _ _ | .setValidator _ _ => false

theorem Write.counted_false (w : Write) : w.counted false = .zero := by
  cases w <;> rfl

namespace Catalog
variable {c c' c'' : Catalog} {name : String} {w : Write} {answer : Bool}

/-- The indexes of a collection, none where there is no collection. -/
def indexes (c : Catalog) (name : String) : List Index :=
  match c.collections.get? name with
  | some state => state.indexes
  | none => []

/-- The validator of a collection, if there are both. -/
def validator? (c : Catalog) (name : String) : Option Json :=
  c.collections.get? name >>= Collection.validator

theorem contains_of_validator? {document : Json} (h : c.validator? name = some document) :
    c.collections.contains name = true := by
  obtain ⟨state, hstate, -⟩ := Option.bind_eq_some_iff.1 h
  exact Keyed.contains_iff.2 ⟨state, hstate⟩

theorem validatorOf_eq_ok {installed : Option Json} :
    c.validatorOf name = .ok installed ↔
      c.collections.contains name = true ∧ c.validator? name = installed := by
  unfold validatorOf collection validator? Keyed.contains
  cases c.collections.get? name <;> simp [Except.map]

/-- The catalogs have the same collections, with the same indexes and validators. -/
structure FurnishedAs (c c' : Catalog) : Prop where
  contains : ∀ q, c'.collections.contains q = c.collections.contains q
  indexes : ∀ q, c'.indexes q = c.indexes q
  validator? : ∀ q, c'.validator? q = c.validator? q

theorem FurnishedAs.refl (c : Catalog) : c.FurnishedAs c :=
  ⟨fun _ => rfl, fun _ => rfl, fun _ => rfl⟩

theorem FurnishedAs.trans (h : c.FurnishedAs c') (h' : c'.FurnishedAs c'') : c.FurnishedAs c'' :=
  ⟨fun q => (h'.contains q).trans (h.contains q), fun q => (h'.indexes q).trans (h.indexes q),
    fun q => (h'.validator? q).trans (h.validator? q)⟩

theorem furnishedAs_of_collections (h : c'.collections = c.collections) : c.FurnishedAs c' := by
  refine ⟨fun q => ?_, fun q => ?_, fun q => ?_⟩
  · rw [h]
  · rw [Catalog.indexes, h, Catalog.indexes]
  · rw [Catalog.validator?, h, Catalog.validator?]

/-- Where a collection is put in the place of another one it brings its own indexes. -/
theorem indexes_insert {state : Collection}
    (hc : c'.collections = c.collections.insert name state) (q : String) :
    c'.indexes q = if name = q then state.indexes else c.indexes q := by
  unfold indexes
  rw [hc, Keyed.get?_insert]
  by_cases hq : name = q
  · rw [if_pos hq, if_pos hq]
  · rw [if_neg hq, if_neg hq]

theorem validator?_insert {state : Collection}
    (hc : c'.collections = c.collections.insert name state) (q : String) :
    c'.validator? q = if name = q then state.validator else c.validator? q := by
  unfold validator?
  rw [hc, Keyed.get?_insert]
  split <;> rfl

/-- Other documents in a collection leave its indexes and its validator. -/
theorem furnishedAs_insert {state : Collection} {documents : Keyed Json}
    (hs : c.collections.get? name = some state)
    (hc : c'.collections = c.collections.insert name { state with documents := documents }) :
    c.FurnishedAs c' := by
  refine ⟨fun q => ?_, fun q => ?_, fun q => ?_⟩
  · rw [hc, Keyed.contains, Keyed.contains, Keyed.get?_insert]
    split
    · rename_i hq
      rw [← hq, hs]
      rfl
    · rfl
  · rw [indexes_insert hc]
    split
    · rename_i hq
      rw [← hq, indexes, hs]
    · rfl
  · rw [validator?_insert hc]
    split
    · rename_i hq
      rw [← hq, validator?, hs]
      rfl
    · rfl

/-- Writes of documents leave indexes and validators. -/
theorem furnishedAs_of_perform (hw : w.isOfDocument = true)
    (h : c.perform w = .ok (answer, c')) : c.FurnishedAs c' := by
  cases w with
  | insertOne q document =>
    obtain ⟨id, state, -, hs, -, -, rfl⟩ := insertOne_ok h
    exact furnishedAs_insert hs rfl
  | replaceOne q id document upsert =>
    obtain ⟨-, state, hs, ⟨-, -, -, rfl⟩ | ⟨-, -, rfl⟩⟩ := replaceOne_ok h
    · exact furnishedAs_insert hs rfl
    · exact .refl c'
  | deleteOne q id =>
    obtain ⟨-, rfl⟩ | ⟨state, hs, hc⟩ := deleteOne_ok h
    · exact .refl c'
    · exact furnishedAs_insert hs hc
  | createCollection q => cases hw
  | dropCollection q => cases hw
  | createIndex q index => cases hw
  | setValidator q document => cases hw

theorem KeptAs.indexes (h : c.KeptAs c') (q : String) : c'.indexes q = c.indexes q := by
  unfold Catalog.indexes
  rcases h q with h | ⟨a, b, ha, hb, hab⟩
  · rw [h]
  · have hsame := (Bool.and_eq_true_iff.1 (Bool.and_eq_true_iff.1 hab).1).2
    rw [ha, hb]
    exact (of_decide_eq_true hsame).symm

/-- Where there is an index over the same fields, the write finds nothing to do. -/
theorem perform_createIndex_of_any {index : Index} {state : Collection}
    (hs : c.collections.get? name = some state)
    (hany : (state.indexes.any fun i => decide (i.keys = index.keys)) = true) :
    c.perform (.createIndex name index) = .ok (false, c) := by
  rw [perform, collection_eq_ok.2 hs, ok_bind, if_pos hany]
  rfl

theorem perform_createIndex_of_over? {index listed : Index}
    (hc : c.collections.contains name = true)
    (h : Index.over? index.keys (c.indexes name) = some listed) :
    c.perform (.createIndex name index) = .ok (false, c) := by
  obtain ⟨state, hs⟩ := Keyed.contains_iff.1 hc
  obtain ⟨hlisted, hkeys⟩ := Index.mem_of_over? h
  rw [indexes, hs] at hlisted
  exact perform_createIndex_of_any hs (List.any_eq_true.2 ⟨listed, hlisted, by simpa using hkeys⟩)

/-- An index is added to those of its collection. -/
theorem indexes_createIndex {index : Index}
    (h : c.perform (.createIndex name index) = .ok (answer, c')) (q : String) :
    c'.indexes q = if name = q then Index.added (c.indexes q) index else c.indexes q := by
  have hperform := h
  rw [perform] at hperform
  obtain ⟨state, hs, hperform⟩ := bind_eq_ok_iff.1 hperform
  have hs := collection_eq_ok.1 hs
  have hindexes : c.indexes name = state.indexes := by rw [indexes, hs]
  cases hany : state.indexes.any fun i => decide (i.keys = index.keys) with
  | true =>
    rw [perform_createIndex_of_any hs hany] at h
    cases h
    split
    · rename_i hq
      rw [← hq, hindexes, Index.added, if_pos hany]
    · rfl
  | false =>
    obtain ⟨state', hs', ⟨hfalse, -⟩ | ⟨-, -, hc⟩⟩ := createIndex_made h
    · rw [if_neg (by simp [hany])] at hperform
      simp only [pure_eq_ok] at hperform
      split at hperform
      · cases hperform
      · cases hperform
        cases hfalse
    · rw [hs] at hs'
      injection hs' with hs'
      rw [hc, indexes_insert rfl]
      split
      · rename_i hq
        rw [← hq, hindexes, Index.added, hany, hs']
        rfl
      · rfl

theorem same_self (h : c.IsFinite) : c.same c = true :=
  Bool.and_eq_true_iff.2 ⟨beq_self_eq_true _, h.sameCollections_self⟩

end Catalog

/-! ## Writes in either kind of session -/

namespace Op
variable {ε : Type} [FromStore ε] {ws ws' : Workspace} {w : Write} {answer : Bool}

/-- What is written is seen afterwards, in the open transaction or in the committed catalog. -/
theorem write_settles (h : (write w : Op ε Bool) ws = .ok answer ws') :
    ∃ next, ws.visible.perform w = .ok (answer, next) ∧
      Settles ws.visible next ws'.visible := by
  cases ht : ws.transaction with
  | some t => exact ⟨ws'.visible, (write_ok ht h).1, .inr rfl⟩
  | none =>
    simp only [write, bind_apply, get_apply, ht] at h
    have hvisible : ws.visible = ws.store.catalog := Workspace.visible_of_closed ht
    cases hp : ws.store.perform w with
    | error e => rw [hp] at h; cases h
    | ok r =>
      rw [hp] at h
      cases h
      obtain ⟨⟨answer, next⟩, hnext, hr⟩ := bind_eq_ok_iff.1 hp
      cases hr
      refine ⟨next, hvisible ▸ hnext, ?_⟩
      have hafter : (ws.install ((ws.store.advance next).count (w.counted answer))).visible =
          (ws.store.advance next).catalog := Workspace.visible_of_closed ht
      rw [hafter, hvisible]
      exact settles_advance ws.store next

/-- A working catalog with the old indexes and validators is committed with them. -/
theorem Settles.furnishedAs {before working committed : Catalog}
    (h : Settles before working committed) (hf : before.FurnishedAs working) :
    before.FurnishedAs committed := by
  rcases h with ⟨rfl, -⟩ | hcollections
  · exact .refl _
  · exact hf.trans (Catalog.furnishedAs_of_collections hcollections)

/-- Writes of documents leave indexes and validators. -/
theorem write_furnishedAs (hw : w.isOfDocument = true)
    (h : (write w : Op ε Bool) ws = .ok answer ws') : ws.visible.FurnishedAs ws'.visible := by
  obtain ⟨next, hperform, hsettles⟩ := write_settles h
  exact hsettles.furnishedAs (Catalog.furnishedAs_of_perform hw hperform)

/-- A write that finds nothing to do leaves everything as it is.  Outside a transaction this takes
a catalog that is the same as itself. -/
theorem write_silent (h : ws.visible.perform w = .ok (false, ws.visible))
    (hfinite : ws.transaction = none → ws.visible.IsFinite) :
    (write w : Op ε Bool) ws = .ok false ws := by
  cases ht : ws.transaction with
  | some t =>
    have hvisible : ws.visible = t.working := by rw [Workspace.visible, ht]
    rw [hvisible] at h
    have hp : t.perform w = .ok (false, t) := by
      rw [Transaction.perform, h, ok_bind]
      show Except.ok (false, { t with counters := t.counters + w.counted false }) = _
      rw [w.counted_false]
      rfl
    rw [write_within ht, hp]
    show EStateM.Result.ok false { ws with transaction := some t } = _
    rw [← ht]
  | none =>
    have hvisible : ws.visible = ws.store.catalog := Workspace.visible_of_closed ht
    rw [hvisible] at h hfinite
    have hp : ws.store.perform w = .ok (false, ws.store) := by
      rw [Store.perform, h, ok_bind]
      show Except.ok (false, (ws.store.advance ws.store.catalog).count (w.counted false)) = _
      rw [w.counted_false, Store.advance, if_pos (Catalog.same_self (hfinite ht))]
      rfl
    simp only [write, bind_apply, get_apply, ht, hp]
    show EStateM.Result.ok false (ws.install ws.store) = _
    simp [Workspace.install]

end Op
end SchemaKeeper
