import SchemaKeeper.Proofs.Json
import SchemaKeeper.Proofs.Store.Catalog

/-!
# Documents of finite numbers

A stored document holds finite numbers only, so it is the same as itself.  Catalogs of such
documents stay so under writes of such documents.
-/
namespace SchemaKeeper

namespace Json

mutual

/-- No number in the document is infinite or undefined. -/
def isFinite : Json → Bool
  | .float x => x.isFinite
  | .array items => itemsFinite items
  | .object members => membersFinite members
  | _ => true

def itemsFinite : List Json → Bool
  | [] => true
  | j :: js => isFinite j && itemsFinite js

def membersFinite : List (String × Json) → Bool
  | [] => true
  | (_, j) :: js => isFinite j && membersFinite js

end

mutual

theorem same_self : ∀ {j : Json}, j.isFinite = true → j.same j = true
  | .null, _ => rfl
  | .bool _, _ => by simp [same]
  | .int _, _ => by simp [same]
  | .float _, h => Double.same_self_of_isFinite h
  | .string _, _ => by simp [same]
  | .array _, h => sameItems_self h
  | .object _, h => sameMembers_self h

theorem sameItems_self : ∀ {js : List Json}, itemsFinite js = true → sameItems js js = true
  | [], _ => rfl
  | _ :: _, h => by
    obtain ⟨h1, h2⟩ := Bool.and_eq_true_iff.1 h
    exact Bool.and_eq_true_iff.2 ⟨same_self h1, sameItems_self h2⟩

theorem sameMembers_self : ∀ {ms : List (String × Json)},
    membersFinite ms = true → sameMembers ms ms = true
  | [], _ => rfl
  | (_, _) :: _, h => by
    obtain ⟨h1, h2⟩ := Bool.and_eq_true_iff.1 h
    simp [sameMembers, same_self h1, sameMembers_self h2]

end

mutual

theorem isFinite_of_floatFree : ∀ {j : Json}, j.FloatFree → j.isFinite = true
  | .null, _ | .bool _, _ | .int _, _ | .string _, _ => rfl
  | .float _, h => h.elim
  | .array _, h => itemsFinite_of_floatFree h
  | .object _, h => membersFinite_of_floatFree h

theorem itemsFinite_of_floatFree : ∀ {js : List Json}, ItemsFloatFree js → itemsFinite js = true
  | [], _ => rfl
  | _ :: _, h =>
    Bool.and_eq_true_iff.2 ⟨isFinite_of_floatFree h.1, itemsFinite_of_floatFree h.2⟩

theorem membersFinite_of_floatFree :
    ∀ {ms : List (String × Json)}, MembersFloatFree ms → membersFinite ms = true
  | [], _ => rfl
  | (_, _) :: _, h =>
    Bool.and_eq_true_iff.2 ⟨isFinite_of_floatFree h.1, membersFinite_of_floatFree h.2⟩

end

theorem membersFinite_iff {ms : List (String × Json)} :
    membersFinite ms = true ↔ ∀ m ∈ ms, m.2.isFinite = true := by
  induction ms with
  | nil => simp [membersFinite]
  | cons m ms ih => simp [membersFinite, ih]

end Json

/-- No number in what is written is infinite or undefined. -/
def Write.isFinite : Write → Bool
  | .setValidator _ document | .insertOne _ document | .replaceOne _ _ document _ =>
    document.isFinite
  | .createCollection _ | .dropCollection _ | .createIndex _ _ | .deleteOne _ _ => true

/-- No number in the documents of the collection or in its validator is infinite or undefined. -/
structure Collection.IsFinite (state : Collection) : Prop where
  documents : ∀ id document, state.documents.get? id = some document → document.isFinite = true
  validator : ∀ document, state.validator = some document → document.isFinite = true

/-- All collections hold finite numbers only. -/
def Catalog.IsFinite (c : Catalog) : Prop :=
  ∀ name state, c.collections.get? name = some state → state.IsFinite

namespace Collection
variable {state : Collection}

theorem same_self (h : state.IsFinite) : state.same state = true := by
  have hdocs : Json.sameMembers state.documents.entries state.documents.entries = true :=
    Json.sameMembers_self (Json.membersFinite_iff.2 fun m hm =>
      h.documents m.1 m.2 (Keyed.mem_entries_iff.1 hm))
  have hvalidator : sameValidator state.validator state.validator = true := by
    cases hv : state.validator with
    | none => rfl
    | some document => exact Json.same_self (h.validator document hv)
  simp [Collection.same, hdocs, hvalidator]

end Collection

namespace Catalog
variable {c c' : Catalog}

theorem sameCollections_self : ∀ {es : List (String × Collection)},
    (∀ e ∈ es, e.2.IsFinite) → sameCollections es es = true
  | [], _ => rfl
  | (_, state) :: es, h => by
    obtain ⟨hstate, hrest⟩ := List.forall_mem_cons.1 h
    simp [sameCollections, Collection.same_self hstate, sameCollections_self hrest]

theorem IsFinite.sameCollections_self (h : c.IsFinite) :
    sameCollections c.collections.entries c.collections.entries = true :=
  Catalog.sameCollections_self fun e he => h e.1 e.2 (Keyed.mem_entries_iff.1 he)

theorem isFinite_empty : Catalog.empty.IsFinite := nofun

theorem isFinite_iff : c.IsFinite ↔ c.Holds fun document => document.isFinite = true :=
  forall₃_congr fun _ _ _ =>
    ⟨fun h => ⟨h.documents, h.validator⟩, fun h => ⟨h.documents, h.validator⟩⟩

/-- Whether a catalog holds finite numbers only can be told from its entries. -/
theorem isFinite_of_all (h : (c.collections.entries.all fun e =>
    e.2.documents.values.all Json.isFinite && e.2.validator.all Json.isFinite) = true) :
    c.IsFinite := by
  intro name state hs
  obtain ⟨hdocuments, hvalidator⟩ := Bool.and_eq_true_iff.1
    (List.all_eq_true.1 h (name, state) (Keyed.mem_entries_iff.2 hs))
  refine ⟨fun id document hd => ?_, fun document hv => ?_⟩
  · exact List.all_eq_true.1 hdocuments document (Keyed.mem_values.2 ⟨id, hd⟩)
  · simpa [hv] using hvalidator

/-- Writes of finite numbers keep a catalog of finite numbers. -/
theorem IsFinite.perform {w : Write} {answer : Bool} (hc : c.IsFinite) (hw : w.isFinite = true)
    (h : c.perform w = .ok (answer, c')) : c'.IsFinite := by
  refine isFinite_iff.2 ((isFinite_iff.1 hc).perform (fun d hd => ?_) h)
  cases w <;> cases hd <;> exact hw

end Catalog
end SchemaKeeper
