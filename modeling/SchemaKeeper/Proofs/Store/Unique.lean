import Mathlib.Data.List.Pairwise
import SchemaKeeper.Proofs.Store.Serial

/-!
# Unique indexes

A unique index forbids two documents whose keys agree.  A document that is written is compared with
the others as a document is, and for that the two zeros are one number; an index that is created
compares the texts of the keys, and there they are two.  So an index may be created over documents
that it should tell apart and does not, and this is the only way to come by such documents.
-/
namespace SchemaKeeper

/-! ## Documents told apart -/

namespace Collection
variable {state : Collection} {agree : List Json → List Json → Prop} {i : Index}
  {name id : String} {document : Json}

/-- The documents under two identifiers have keys in the index, and these agree. -/
def Collides (state : Collection) (agree : List Json → List Json → Prop) (i : Index) : Prop :=
  ∃ p q a b k l, p ≠ q ∧ state.documents.get? p = some a ∧ state.documents.get? q = some b ∧
    i.keyOf? a = some k ∧ i.keyOf? b = some l ∧ agree k l

/-- The keys are the same. -/
def KeysSame (k l : List Json) : Prop := sameKey k l = true

/-- The keys are the same, with the signs of their zeros. -/
def KeysIdentical (k l : List Json) : Prop := k = l ∧ KeysSame k l

/-- The keys are the same, and they differ in the signs of their zeros and in nothing else. -/
def KeysBlurred (k l : List Json) : Prop :=
  k ≠ l ∧ Json.itemsUnsigned k = Json.itemsUnsigned l ∧ KeysSame k l

/-- Keys that agree are the same, and they agree either way round. -/
structure Fine (agree : List Json → List Json → Prop) : Prop where
  same : ∀ k l, agree k l → KeysSame k l
  symm : ∀ k l, agree k l → agree l k

theorem keysSame_symm {k l : List Json} (h : KeysSame k l) : KeysSame l k := by
  rw [KeysSame, sameKey, Json.sameItems_comm]
  exact h

theorem fine_keysSame : Fine KeysSame := ⟨fun _ _ => id, fun _ _ => keysSame_symm⟩

theorem fine_keysIdentical : Fine KeysIdentical :=
  ⟨fun _ _ h => h.2, fun _ _ h => ⟨h.1.symm, keysSame_symm h.2⟩⟩

/-- An index is created only over keys of different texts, so none of them are identical. -/
theorem not_collides_of_hasDuplicate (h : state.hasDuplicate i = false) :
    ¬ state.Collides KeysIdentical i := by
  rintro ⟨p, q, a, b, k, l, hpq, ha, hb, hk, hl, rfl, -⟩
  have hnodup : ((state.documents.values.filterMap i.keyOf?).map
      fun key => (Json.array key).compact).Nodup := by
    simpa [hasDuplicate] using h
  have hpairs : state.documents.entries.Pairwise fun e f =>
      ∀ k, i.keyOf? e.2 = some k → ∀ l, i.keyOf? f.2 = some l →
        (Json.array k).compact ≠ (Json.array l).compact := by
    rw [List.Nodup, List.pairwise_map, List.pairwise_filterMap, Keyed.values,
      List.pairwise_map] at hnodup
    exact hnodup
  have hsymm : Std.Symm fun e f : String × Json =>
      ∀ k, i.keyOf? e.2 = some k → ∀ l, i.keyOf? f.2 = some l →
        (Json.array k).compact ≠ (Json.array l).compact :=
    ⟨fun e f hef k hk l hl => (hef l hl k hk).symm⟩
  exact hpairs.forall (Keyed.mem_entries_iff.2 ha) (Keyed.mem_entries_iff.2 hb)
    (fun h => hpq (congrArg Prod.fst h)) k hk k hl rfl

/-- A document that is accepted has in no unique index the same key as another one. -/
theorem not_clashes_of_accept (h : state.accept name id document = .ok ()) (hi : i ∈ state.indexes)
    (hu : i.unique = true) : state.clashes id document i = false := by
  have hnone : (state.indexes.find? fun i => i.unique && state.clashes id document i) = none := by
    cases hfound : state.indexes.find? fun i => i.unique && state.clashes id document i with
    | none => rfl
    | some j =>
      simp only [accept, hfound] at h
      repeat' split at h
      all_goals cases h
  simpa [hu] using List.find?_eq_none.1 hnone i hi

/-- What clashes with a document is a document under another identifier with the same key. -/
theorem clashes_of_same {q : String} {b : Json} {k l : List Json} (hq : q ≠ id)
    (hb : state.documents.get? q = some b) (hk : i.keyOf? document = some k)
    (hl : i.keyOf? b = some l) (h : KeysSame l k) : state.clashes id document i = true := by
  rw [clashes, hk]
  refine List.any_eq_true.2 ⟨(q, b), Keyed.mem_entries_iff.2 hb, ?_⟩
  simp only [hl]
  exact Bool.and_eq_true_iff.2 ⟨bne_iff_ne.2 hq, h⟩

/-- A document that clashes with no other collides with none. -/
theorem Collides.of_insert (hf : Fine agree) (hc : state.clashes id document i = false)
    (h : Collides { state with documents := state.documents.insert id document } agree i) :
    state.Collides agree i := by
  obtain ⟨p, q, a, b, k, l, hpq, ha, hb, hk, hl, hkl⟩ := h
  rw [Keyed.get?_insert] at ha hb
  split at ha
  · rename_i hp
    injection ha with ha
    subst hp ha
    rw [if_neg hpq] at hb
    rw [clashes_of_same (Ne.symm hpq) hb hk hl (keysSame_symm (hf.same _ _ hkl))] at hc
    cases hc
  · split at hb
    · rename_i hp hq
      injection hb with hb
      subst hq hb
      rw [clashes_of_same hpq ha hl hk (hf.same _ _ hkl)] at hc
      cases hc
    · exact ⟨p, q, a, b, k, l, hpq, ha, hb, hk, hl, hkl⟩

end Collection

namespace Catalog
variable {c c' : Catalog} {agree : List Json → List Json → Prop} {name : String} {i : Index}
  {w : Write} {answer : Bool}

/-- Each unique index tells all documents of its collection apart. -/
def IsUnique (agree : List Json → List Json → Prop) (c : Catalog) : Prop :=
  ∀ name state, c.collections.get? name = some state →
    ∀ i ∈ state.indexes, i.unique = true → ¬ state.Collides agree i

/-- The write creates a unique index that tells not all documents apart. -/
def Blurs (c : Catalog) (w : Write) : Prop :=
  ∃ name i state, w = .createIndex name i ∧ c.collections.get? name = some state ∧
    i.unique = true ∧ (∃ c', c.perform w = .ok (true, c')) ∧
    state.Collides Collection.KeysBlurred i

/-- Writes keep documents told apart, if an index that is created tells them apart. -/
theorem IsUnique.perform (hf : Collection.Fine agree) (h : c.IsUnique agree)
    (hp : c.perform w = .ok (answer, c'))
    (hnew : ∀ name i state, w = .createIndex name i → c.collections.get? name = some state →
      i.unique = true → state.hasDuplicate i = false → ¬ state.Collides agree i) :
    c'.IsUnique agree := by
  intro name state hs i hi hu hcollides
  obtain hs | ⟨-, hmakes⟩ := kept_or_made hp hs
  · exact h name state hs i hi hu hcollides
  cases hmakes with
  | createCollection => cases hi
  | createIndex found told =>
    rcases List.mem_append.1 hi with hi | hi
    · exact h _ _ found i hi hu hcollides
    · obtain rfl := List.mem_singleton.1 hi
      exact hnew _ i _ rfl found hu (told hu) hcollides
  | setValidator found => exact h _ _ found i hi hu hcollides
  | insertOne found own accepted | replaceOne found own accepted =>
    have hclash := Collection.not_clashes_of_accept accepted hi hu
    exact h _ _ found i hi hu (hcollides.of_insert hf hclash)
  | deleteOne found =>
    obtain ⟨p, q, a, b, k, l, hpq, ha, hb, hkeys⟩ := hcollides
    rw [Keyed.get?_erase] at ha hb
    split at ha
    · cases ha
    · split at hb
      · cases hb
      · exact h _ _ found i hi hu ⟨p, q, a, b, k, l, hpq, ha, hb, hkeys⟩

/-- No write brings two documents with identical keys. -/
theorem IsUnique.perform_identical (h : c.IsUnique Collection.KeysIdentical)
    (hp : c.perform w = .ok (answer, c')) : c'.IsUnique Collection.KeysIdentical :=
  h.perform Collection.fine_keysIdentical hp fun _ _ _ _ _ _ hduplicate =>
    Collection.not_collides_of_hasDuplicate hduplicate

/-- Documents stay told apart as long as the write does not blur them. -/
theorem IsUnique.perform_same (h : c.IsUnique Collection.KeysSame)
    (hp : c.perform w = .ok (answer, c')) (hw : ¬ c.Blurs w) : c'.IsUnique Collection.KeysSame := by
  cases answer with
  | false => exact perform_false hp ▸ h
  | true =>
    refine h.perform Collection.fine_keysSame hp fun name i state heq hs hu hduplicate => ?_
    subst heq
    intro hcollides
    obtain ⟨p, q, a, b, k, l, hpq, hdocs, hq, hk, hl, hsame⟩ := hcollides
    refine hw ⟨name, i, state, rfl, hs, hu, ⟨c', hp⟩, p, q, a, b, k, l, hpq, hdocs, hq, hk, hl,
      fun hkl => ?_, Json.itemsUnsigned_of_same hsame, hsame⟩
    exact Collection.not_collides_of_hasDuplicate hduplicate
      ⟨p, q, a, b, k, l, hpq, hdocs, hq, hk, hl, hkl, hsame⟩

/-- What blurs documents changes the catalog, and they are not told apart in it. -/
theorem Blurs.not_isUnique (h : c.Blurs w) (hp : c.perform w = .ok (answer, c')) :
    ¬ c'.IsUnique Collection.KeysSame ∧ c'.same c = false := by
  obtain ⟨name, i, state, rfl, hs, hu, ⟨d, hd⟩, p, q, a, b, k, l, hpq, ha, hb, hk, hl, -, -, hkl⟩ :=
    h
  obtain ⟨rfl, rfl⟩ : true = answer ∧ d = c' := by simpa [hd] using hp
  obtain ⟨state', hs', ⟨hfalse, -⟩ | ⟨-, -, rfl⟩⟩ := createIndex_made hd
  · cases hfalse
  obtain rfl : state' = state := by simpa [hs'] using hs
  have hput : (c.setCollection name
      { state' with indexes := state'.indexes ++ [i] }).collections.get? name =
        some { state' with indexes := state'.indexes ++ [i] } := by simp
  refine ⟨fun hunique => ?_, Bool.eq_false_iff.2 fun hsame => ?_⟩
  · exact hunique name _ hput i (by simp) hu ⟨p, q, a, b, k, l, hpq, ha, hb, hk, hl, hkl⟩
  · rcases get?_sameCollections (q := name) (Bool.and_eq_true_iff.1 hsame).2 with
      ⟨hnone, -⟩ | ⟨x, y, hx, hy, hxy⟩
    · exact nomatch hput.symm.trans hnone
    · obtain rfl := Option.some.inj (hput.symm.trans hx)
      obtain rfl := Option.some.inj (hs.symm.trans hy)
      have hindexes := (Bool.and_eq_true_iff.1 (Bool.and_eq_true_iff.1 hxy).1).2
      simp at hindexes

end Catalog

namespace OpenStore
variable {o : OpenStore} {x : Turn} {turns : List Turn} {agree : List Json → List Json → Prop}

/-- Documents are told apart in the committed catalog and in every copy. -/
def IsUnique (agree : List Json → List Json → Prop) (o : OpenStore) : Prop :=
  ∀ place c, o.sees place = some c → c.IsUnique agree

/-- What the turn writes blurs documents of the catalog in which it is written. -/
def Blurs (o : OpenStore) : Turn → Prop
  | .write w => o.store.catalog.Blurs w
  | .within i w => ∃ c, o.sees (some i) = some c ∧ c.Blurs w
  | .begin _ | .commit _ | .abort _ => False

/-- One of the turns blurs documents when it is its turn. -/
def Blurred : OpenStore → List Turn → Prop
  | _, [] => False
  | o, x :: turns => o.Blurs x ∨ Blurred (o.after x) turns

/-- No turn brings two documents with identical keys. -/
theorem IsUnique.after_identical (h : o.IsUnique Collection.KeysIdentical) :
    (o.after x).IsUnique Collection.KeysIdentical :=
  sees_after h (fun _ _ hc => hc) fun place c _ _ _ hc _ hw => (h place c hc).perform_identical hw

theorem IsUnique.after (h : o.IsUnique Collection.KeysSame) (hx : ¬ o.Blurs x) :
    (o.after x).IsUnique Collection.KeysSame := by
  refine sees_after h (fun _ _ hc => hc) fun place c w answer next hc heq hw => ?_
  refine (h place c hc).perform_same hw fun hblurs => hx ?_
  subst heq
  cases place with
  | none =>
    obtain rfl := Option.some.inj hc
    exact hblurs
  | some i => exact ⟨c, hc, hblurs⟩

/-- Once a turn has blurred documents they are not told apart. -/
theorem Blurs.not_isUnique (h : o.Blurs x) : ¬ (o.after x).IsUnique Collection.KeysSame := by
  intro hunique
  cases x with
  | write w =>
    have hperform := h
    obtain ⟨-, -, -, -, -, -, ⟨c', hw⟩, -⟩ := hperform
    obtain ⟨hnot, hsame⟩ := Catalog.Blurs.not_isUnique h hw
    have hlanded : (o.after (.write w)).store.catalog =
        { c' with version := o.store.catalog.version + 1 } := by
      simp [OpenStore.after, turn, Store.perform, hw, Store.advance, hsame, Store.count]
    have hafter := hunique none _ rfl
    rw [hlanded] at hafter
    exact hnot hafter
  | within i w =>
    obtain ⟨c, hc, hblurs⟩ := h
    have hperform := hblurs
    obtain ⟨-, -, -, -, -, -, ⟨c', hw⟩, -⟩ := hperform
    obtain ⟨t, ht, rfl⟩ := Option.map_eq_some_iff.1 hc
    have hlanded : (o.after (.within i w)).sees (some i) = some c' := by
      simp [OpenStore.after, turn, ht, Transaction.perform, hw, sees]
    exact (hblurs.not_isUnique hw).1 (hunique (some i) c' hlanded)
  | begin i | commit i | abort i => exact h

theorem isUnique_new (agree : List Json → List Json → Prop) (kept : Bool) :
    (of ⟨.empty, .zero, kept⟩).IsUnique agree := by
  intro place c hc
  cases place with
  | none =>
    obtain rfl := Option.some.inj hc
    exact nofun
  | some i => cases hc

theorem IsUnique.run_identical (h : o.IsUnique Collection.KeysIdentical) :
    (o.run turns).IsUnique Collection.KeysIdentical := by
  induction turns generalizing o with
  | nil => exact h
  | cons x turns ih => exact ih h.after_identical

/-- Documents are told apart all along a run exactly if no turn blurs them. -/
theorem IsUnique.run_iff (h : o.IsUnique Collection.KeysSame) :
    (∀ past, past <+: turns → (o.run past).IsUnique Collection.KeysSame) ↔ ¬ o.Blurred turns := by
  induction turns generalizing o with
  | nil =>
    refine iff_of_true (fun past hpast => ?_) id
    rw [List.prefix_nil.1 hpast]
    exact h
  | cons x turns ih =>
    constructor
    · rintro hall (hx | hrest)
      · exact hx.not_isUnique (hall [x] (List.prefix_append [x] turns))
      · have hafter := hall [x] (List.prefix_append [x] turns)
        refine (ih hafter).1 (fun past hpast => ?_) hrest
        exact hall (x :: past) (List.cons_prefix_cons.2 ⟨rfl, hpast⟩)
    · intro hnot past hpast
      obtain ⟨hx, hrest⟩ := not_or.1 hnot
      cases past with
      | nil => exact h
      | cons y past =>
        obtain ⟨rfl, htail⟩ := List.cons_prefix_cons.1 hpast
        exact (ih (h.after hx)).2 hrest past htail

/-- Whatever is done to a new store, outside of transactions and within them, and whether it is kept
in a file or not: no two documents have identical keys in a unique index, neither in the committed
catalog nor in any copy, and no two have the same key at any time exactly if no index is ever
created over documents whose keys differ in the signs of zeros alone. -/
theorem unique_run (kept : Bool) (turns : List Turn) :
    ((of ⟨.empty, .zero, kept⟩).run turns).IsUnique Collection.KeysIdentical ∧
      ((∀ past, past <+: turns →
          ((of ⟨.empty, .zero, kept⟩).run past).IsUnique Collection.KeysSame) ↔
        ¬ (of ⟨.empty, .zero, kept⟩).Blurred turns) :=
  ⟨(isUnique_new _ kept).run_identical, (isUnique_new _ kept).run_iff⟩

section Sample

/-- A unique index is created over a zero and a zero with a sign. -/
def zeroTurns : List Turn :=
  [.write (.createCollection "notes"),
    .write (.insertOne "notes" (.object [("_id", .string "a"), ("rank", .float ⟨0⟩)])),
    .write (.insertOne "notes" (.object [("_id", .string "b"), ("rank", .float (.neg ⟨0⟩))])),
    .write (.createIndex "notes" (.single "rank" .ascending true))]

/-- A unique index does not always tell the documents of its collection apart. -/
theorem not_unique_zeros : ¬ ((of .inMemory).run zeroTurns).IsUnique Collection.KeysSame := by
  intro h
  refine h none _ rfl "notes" _ rfl (.single "rank" .ascending true) (by decide) rfl
    ⟨"a", "b", _, _, _, _, by decide, rfl, rfl, rfl, rfl, ?_⟩
  rfl

end Sample

end OpenStore
end SchemaKeeper
