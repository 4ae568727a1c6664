import SchemaKeeper.Proofs.Double
import SchemaKeeper.Proofs.Record.Loaded

/-!
# Values that can be read again

A stored value of the form that a type asks for is read at this type, as long as each reference in
it leads to a document.  What the documents inside a record hold is checked in its stored form
only, and there a dict can look like a reference; a value without such dicts has no references
besides its documents.
-/
namespace SchemaKeeper

namespace Value

mutual

/-- A dict stands where a document is declared. -/
def forges : FieldType → Value → Bool
  | .list t, .list items => items.any fun v => forges t v
  | .list t, .tuple items => items.any fun v => forges t v
  | .dict t, .dict entries => entries.any fun e => forges t e.2
  | .tuple ts, .list items => forgesEach ts items
  | .tuple ts, .tuple items => forgesEach ts items
  | .document _, .dict _ => true
  | _, _ => false

def forgesEach : List FieldType → List Value → Bool
  | t :: ts, v :: vs => forges t v || forgesEach ts vs
  | _, _ => false

end

theorem forges_any (v : Value) : v.forges (.scalar .any) = false := by
  cases v <;> rfl

mutual

/-- No dict is an instance of a class. -/
theorem forges_of_fits : ∀ (t : FieldType) {v : Value}, v.fits t = true → v.forges t = false
  | .scalar k, v, _ => by cases v <;> rfl
  | .list t, v, h => by
    cases v with
    | list items =>
      rw [fits, List.all_eq_true] at h
      rw [forges, List.any_eq_false]
      intro v hv
      rw [forges_of_fits t (h v hv)]
      decide
    | _ => cases h
  | .dict t, v, h => by
    cases v with
    | dict entries =>
      rw [fits, List.all_eq_true] at h
      rw [forges, List.any_eq_false]
      intro e he
      rw [forges_of_fits t (h e he)]
      decide
    | _ => cases h
  | .tuple ts, v, h => by
    cases v with
    | list items => exact forgesEach_of_fits ts h
    | tuple items => exact forgesEach_of_fits ts h
    | _ => cases h
  | .document k, v, h => by
    cases v with
    | dict entries => cases h
    | _ => rfl

theorem forgesEach_of_fits : ∀ (ts : List FieldType) {vs : List Value},
    fitsEach ts vs = true → forgesEach ts vs = false
  | [], _, _ => rfl
  | _ :: _, [], h => by cases h
  | t :: ts, v :: vs, h => by
    obtain ⟨h1, h2⟩ := Bool.and_eq_true_iff.1 h
    rw [forgesEach, forges_of_fits t h1, forgesEach_of_fits ts h2]
    rfl

end

/-! ## Stored forms -/

mutual

/-- A stored form is the same as itself: what is undefined is stored as null. -/
theorem stored_same_self : ∀ v : Value, v.stored.same v.stored = true
  | .null => rfl
  | .bool b => by simp [stored, Json.same]
  | .int n => by simp [stored, Json.same]
  | .float x => by
    rw [stored]
    split
    · rename_i hx
      exact Double.same_self_of_isFinite hx
    · rfl
  | .string s => by simp [stored, Json.same]
  | .datetime m => by simp [stored, Json.same, Json.sameMembers]
  | .list items => storedItems_same_self items
  | .tuple items => storedItems_same_self items
  | .dict entries => storedEntries_same_self entries
  | .document id className fields => by simp [stored, Json.same, Json.sameMembers]

theorem storedItems_same_self : ∀ vs : List Value,
    Json.sameItems (storedItems vs) (storedItems vs) = true
  | [] => rfl
  | v :: vs => Bool.and_eq_true_iff.2 ⟨stored_same_self v, storedItems_same_self vs⟩

theorem storedEntries_same_self : ∀ es : List (String × Value),
    Json.sameMembers (storedEntries es) (storedEntries es) = true
  | [] => rfl
  | (_, v) :: es => Bool.and_eq_true_iff.2
      ⟨Bool.and_eq_true_iff.2 ⟨BEq.rfl, stored_same_self v⟩, storedEntries_same_self es⟩

end

theorem storedDocument_same_self (id : Uuid) (fields : List (String × Value)) :
    (storedDocument id fields).same (storedDocument id fields) = true :=
  Json.ofMembers_same (Bool.and_eq_true_iff.2
    ⟨Bool.and_eq_true_iff.2 ⟨BEq.rfl, BEq.rfl⟩, storedEntries_same_self fields⟩)

/-- Only lists and tuples are stored as arrays. -/
theorem items_of_stored {v : Value} {js : List Json} (h : v.stored = .array js) :
    ∃ items, (v = .list items ∨ v = .tuple items) ∧ js = storedItems items := by
  cases v with
  | list items =>
    injection h with h
    exact ⟨items, .inl rfl, h.symm⟩
  | tuple items =>
    injection h with h
    exact ⟨items, .inr rfl, h.symm⟩
  | float x =>
    rw [stored] at h
    split at h <;> cases h
  | _ => cases h

/-- What is stored as an object is a dict, or looks like one with a single text. -/
theorem entries_of_stored {v : Value} {ms : List (String × Json)} (h : v.stored = .object ms) :
    ∃ entries, ms = storedEntries entries ∧ (v = .dict entries ∨
      (∀ t, v.fits (.dict t) = false) ∧ ∃ name text, entries = [(name, .string text)]) := by
  cases v with
  | dict entries =>
    injection h with h
    exact ⟨entries, h.symm, .inl rfl⟩
  | datetime m =>
    injection h with h
    exact ⟨[("$date", .string m.text)], h.symm, .inr ⟨fun _ => rfl, _, _, rfl⟩⟩
  | document id className fields =>
    injection h with h
    exact ⟨[("$oid", .string id.text)], h.symm, .inr ⟨fun _ => rfl, _, _, rfl⟩⟩
  | float x =>
    rw [stored] at h
    split at h <;> cases h
  | _ => cases h

/-- What is stored in the form of a list is a list or a tuple of values of its type. -/
theorem items_of_suits {v : Value} {t : FieldType}
    (h : v.stored.suits (FieldType.descriptor (.list t)) = true) :
    ∃ items, (v = .list items ∨ v = .tuple items) ∧ v.stored = .array (storedItems items) ∧
      ∀ u ∈ items, u.stored.suits (FieldType.descriptor t) = true := by
  cases hstored : v.stored with
  | array js =>
    obtain ⟨items, hv, rfl⟩ := items_of_stored hstored
    rw [hstored] at h
    have hall : ((storedItems items).all fun j => j.suits (FieldType.descriptor t)) = true := h
    rw [storedItems_eq, List.all_map, List.all_eq_true] at hall
    exact ⟨items, hv, rfl, hall⟩
  | _ =>
    rw [hstored] at h
    cases h

/-- What is stored in the form of a dict is a dict, or looks like one with a single text. -/
theorem entries_of_suits {v : Value} {t : FieldType}
    (h : v.stored.suits (FieldType.descriptor (.dict t)) = true) :
    ∃ entries, v.stored = .object (storedEntries entries) ∧ (v = .dict entries ∨
      (∀ t, v.fits (.dict t) = false) ∧ ∃ name text, entries = [(name, .string text)]) ∧
      ∀ e ∈ entries, e.2.stored.suits (FieldType.descriptor t) = true := by
  cases hstored : v.stored with
  | object ms =>
    obtain ⟨entries, rfl, hv⟩ := entries_of_stored hstored
    rw [hstored] at h
    have hall : ((storedEntries entries).all fun m => m.2.suits (FieldType.descriptor t)) = true :=
      h
    rw [storedEntries_eq, Entries.mapValues, List.all_map, List.all_eq_true] at hall
    exact ⟨entries, rfl, hv, hall⟩
  | _ =>
    rw [hstored] at h
    cases h

/-- What is stored as a reference is a document, or a dict. -/
theorem document_of_stored {v : Value} {text : String}
    (h : v.stored = .object [("$oid", .string text)]) :
    (∃ entries, v = .dict entries) ∨
      ∃ id className fields, v = .document id className fields ∧ text = id.text := by
  cases v with
  | dict entries => exact .inl ⟨entries, rfl⟩
  | document id className fields =>
    rw [stored] at h
    injection h with h
    injection h with h
    injection h with _ h
    injection h with h
    exact .inr ⟨id, className, fields, rfl, h.symm⟩
  | datetime m =>
    rw [stored] at h
    injection h with h
    injection h with h
    injection h with h
    exact absurd h (by decide)
  | float x =>
    rw [stored] at h
    split at h <;> cases h
  | _ => cases h

/-- What is stored as null is null, or a number that is not finite. -/
theorem not_fits_of_stored_null {v : Value} (h : v.stored = .null) (t : FieldType) :
    v.fits t = false := by
  rw [← Bool.not_eq_true]
  intro hv
  have hs := isStorable_of_fits hv
  have hn := isNull_of_fits hv
  cases v with
  | null => cases hn
  | float x =>
    have hx : x.isFinite = true := hs
    rw [stored, if_pos hx] at h
    cases h
  | _ => cases h

theorem fits_any {u : Value} (hn : u.isNull = false) (hs : u.isStorable = true) :
    u.fits (.scalar .any) = true := by
  cases u with
  | null => cases hn
  | float x =>
    have hx : x.isFinite = true := hs
    simp [fits, isNull, isWild, fitsScalar, isStorable, hx]
  | _ => exact hs

end Value

namespace Record

open Value

variable {catalog : Catalog} {s : Schema} {c : Collections} {path : String}

/-! ## Where no type is declared -/

mutual

/-- What is read of a stored value can be stored. -/
theorem isStorable_readAny : ∀ (v : Value) {j : Json}, j.same v.stored = true →
    (readAny j).isStorable = true
  | .null, j, hj => by
    have hj : j = .null := Json.eq_of_same (b := .null) trivial hj
    subst hj
    rfl
  | .bool b, j, hj => by
    have hj : j = .bool b := Json.eq_of_same (b := .bool b) trivial hj
    subst hj
    rfl
  | .int n, j, hj => by
    have hj : j = .int n.toInt := Json.eq_of_same (b := .int n.toInt) trivial hj
    subst hj
    simp [readAny, numberOf, isStorable]
  | .float x, j, hj => by
    rw [stored] at hj
    split at hj
    · rename_i hx
      obtain ⟨y, rfl, hy⟩ := Json.exists_float_of_same hj
      exact (Double.isFinite_of_same hy).trans hx
    · have hj : j = .null := Json.eq_of_same (b := .null) trivial hj
      subst hj
      rfl
  | .string t, j, hj => by
    have hj : j = .string t := Json.eq_of_same (b := .string t) trivial hj
    subst hj
    rfl
  | .datetime m, j, hj => by
    have hj : j = (Value.datetime m).stored :=
      Json.eq_of_same (b := (Value.datetime m).stored) ⟨trivial, trivial⟩ hj
    subst hj
    rw [stored, readAny]
    split <;> rfl
  | .list items, j, hj => by
    obtain ⟨js, rfl, hjs⟩ := Json.exists_array_of_same hj
    exact isStorable_readAnyItems items hjs
  | .tuple items, j, hj => by
    obtain ⟨js, rfl, hjs⟩ := Json.exists_array_of_same hj
    exact isStorable_readAnyItems items hjs
  | .dict entries, j, hj => by
    obtain ⟨js, rfl, hjs⟩ := Json.exists_object_of_same hj
    rw [readAny]
    split
    · rfl
    · exact isStorable_readAnyMembers entries hjs
  | .document id className fields, j, hj => by
    have hj : j = (Value.document id className fields).stored :=
      Json.eq_of_same (b := (Value.document id className fields).stored) ⟨trivial, trivial⟩ hj
    subst hj
    rw [stored, readAny]
    split <;> rfl

theorem isStorable_readAnyItems : ∀ (vs : List Value) {js : List Json},
    Json.sameItems js (storedItems vs) = true → itemsStorable (readAnyItems js) = true
  | [], [], _ => rfl
  | v :: vs, _ :: _, hj => by
    obtain ⟨hj1, hj2⟩ := Bool.and_eq_true_iff.1 hj
    exact Bool.and_eq_true_iff.2 ⟨isStorable_readAny v hj1, isStorable_readAnyItems vs hj2⟩

theorem isStorable_readAnyMembers : ∀ (es : List (String × Value)) {js : List (String × Json)},
    Json.sameMembers js (storedEntries es) = true → entriesStorable (readAnyMembers js) = true
  | [], [], _ => rfl
  | (_, v) :: es, (_, _) :: _, hj => by
    simp only [storedEntries, Json.sameMembers, Bool.and_eq_true] at hj
    exact Bool.and_eq_true_iff.2 ⟨isStorable_readAny v hj.1.2, isStorable_readAnyMembers es hj.2⟩

end

theorem isNull_readAny {j : Json} (h : j ≠ .null) : (readAny j).isNull = false := by
  cases j with
  | null => exact absurd rfl h
  | int n =>
    rw [readAny, numberOf]
    cases wordOf? n <;> rfl
  | object members =>
    rw [readAny]
    split <;> rfl
  | _ => rfl

/-! ## Types -/

/-- What was read of a stored value: it can be stored again, and it is an instance of the type if
the value was. -/
structure Returns (t : FieldType) (v u : Value) : Prop where
  storable : u.isStorable = true
  fits : v.fits t = true → u.fits t = true

theorem returns_readAny {v : Value} {j : Json} (hj : j.same v.stored = true) :
    Returns (.scalar .any) v (readAny j) := by
  refine ⟨isStorable_readAny v hj, fun hv => fits_any (isNull_readAny fun hnull => ?_)
    (isStorable_readAny v hj)⟩
  subst hnull
  rw [Json.same_comm] at hj
  have hstored : v.stored = .null := Json.eq_of_same (b := .null) trivial hj
  rw [not_fits_of_stored_null hstored] at hv
  cases hv

/-- A stored value of the form of a date is read as one. -/
theorem readScalar?_of_isDate {v : Value} {j : Json} (hj : j.same v.stored = true)
    (hs : Rule.isDate v.stored = true) :
    ∃ u, readScalar? .datetime j = some u ∧ u.fits (.scalar .datetime) = true := by
  unfold Rule.isDate at hs
  split at hs
  · rename_i text hwrapped
    rw [Json.wrapped?_eq_some.1 hwrapped] at hj
    have hj : j = .object [("$date", .string text)] :=
      Json.eq_of_same (b := .object [("$date", .string text)]) ⟨trivial, trivial⟩ hj
    subst hj
    obtain ⟨m, hm⟩ := Option.isSome_iff_exists.1 (show (Moment.read? text).isSome = true from hs)
    have hdate : dateOf? (.object [("$date", .string text)]) = some m := by
      rw [dateOf?, Json.wrapped?_eq_some.2 rfl]
      exact hm
    exact ⟨.datetime m, by rw [readScalar?, hdate]; rfl, rfl⟩
  · cases hs

/-- A stored value of the form of a scalar kind is read as an instance of this kind. -/
theorem readScalar?_of_suits {k : Scalar} {v : Value} {j : Json} (hk : k ≠ .any)
    (hj : j.same v.stored = true) (hs : v.stored.suits (.scalar k) = true) :
    ∃ u, readScalar? k j = some u ∧ u.fits (.scalar k) = true := by
  cases k with
  | any => exact absurd rfl hk
  | datetime => exact readScalar?_of_isDate hj hs
  | bool =>
    cases v with
    | bool b =>
      have hj : j = .bool b := Json.eq_of_same (b := .bool b) trivial hj
      exact hj ▸ ⟨.bool b, rfl, rfl⟩
    | float x =>
      rw [stored] at hs
      split at hs <;> cases hs
    | _ => cases hs
  | int =>
    cases v with
    | int n =>
      have hj : j = .int n.toInt := Json.eq_of_same (b := .int n.toInt) trivial hj
      exact hj ▸ ⟨.int n, by rw [readScalar?, wordOf?_toInt]; rfl, rfl⟩
    | float x =>
      rw [stored] at hs
      split at hs <;> cases hs
    | _ => cases hs
  | string =>
    cases v with
    | string t =>
      have hj : j = .string t := Json.eq_of_same (b := .string t) trivial hj
      exact hj ▸ ⟨.string t, rfl, rfl⟩
    | float x =>
      rw [stored] at hs
      split at hs <;> cases hs
    | _ => cases hs
  | float =>
    have hfits : ∀ {y : Double}, y.isFinite = true →
        (Value.float y).fits (.scalar .float) = true := by
      intro y hy
      simp [fits, isNull, isWild, fitsScalar, hy]
    cases v with
    | int n =>
      have hj : j = .int n.toInt := Json.eq_of_same (b := .int n.toInt) trivial hj
      exact hj ▸ ⟨_, rfl, hfits (Double.isFinite_ofInt n)⟩
    | float x =>
      rw [stored] at hs hj
      split at hs
      · rename_i hx
        rw [if_pos hx] at hj
        obtain ⟨y, rfl, hy⟩ := Json.exists_float_of_same hj
        exact ⟨_, rfl, hfits ((Double.isFinite_of_same hy).trans hx)⟩
      · cases hs
    | _ => cases hs

/-! ## Items, members and fields -/

theorem exists_readItems {ask : Json → Except Refusal Value} {P : Value → Value → Prop} :
    ∀ (vs : List Value) {js : List Json},
      (∀ v ∈ vs, ∀ j, j.same v.stored = true → ∃ u, ask j = .ok u ∧ P v u) →
        Json.sameItems js (storedItems vs) = true →
          ∃ us, readItems ask js = .ok us ∧ List.Forall₂ P vs us
  | [], [], _, _ => ⟨[], rfl, .nil⟩
  | v :: vs, j :: js, h, hj => by
    obtain ⟨h1, h2⟩ := List.forall_mem_cons.1 h
    obtain ⟨hj1, hj2⟩ := Bool.and_eq_true_iff.1 hj
    obtain ⟨u, hread, hu⟩ := h1 j hj1
    obtain ⟨us, hreads, hus⟩ := exists_readItems vs h2 hj2
    exact ⟨u :: us, by rw [readItems, hread, ok_bind, hreads]; rfl, .cons hu hus⟩

theorem exists_readMembers {ask : Json → Except Refusal Value} {P : Value → Value → Prop} :
    ∀ (es : List (String × Value)) {ms : List (String × Json)},
      (∀ e ∈ es, ∀ j, j.same e.2.stored = true → ∃ u, ask j = .ok u ∧ P e.2 u) →
        Json.sameMembers ms (storedEntries es) = true →
          ∃ us, readMembers ask ms = .ok us ∧ List.Forall₂ (fun e u => P e.2 u.2) es us
  | [], [], _, _ => ⟨[], rfl, .nil⟩
  | e :: es, m :: ms, h, hj => by
    obtain ⟨h1, h2⟩ := List.forall_mem_cons.1 h
    simp only [storedEntries, Json.sameMembers, Bool.and_eq_true] at hj
    obtain ⟨u, hread, hu⟩ := h1 m.2 hj.1.2
    obtain ⟨us, hreads, hus⟩ := exists_readMembers es h2 hj.2
    exact ⟨(m.1, u) :: us, by rw [readMembers, hread, ok_bind, hreads]; rfl, .cons hu hus⟩

theorem itemsStorable_of_returns {t : FieldType} {vs us : List Value}
    (h : List.Forall₂ (Returns t) vs us) : itemsStorable us = true := by
  induction h with
  | nil => rfl
  | cons hu _ ih => exact Bool.and_eq_true_iff.2 ⟨hu.storable, ih⟩

theorem all_fits_of_returns {t : FieldType} {vs us : List Value}
    (h : List.Forall₂ (Returns t) vs us) (hv : (vs.all fun v => v.fits t) = true) :
    (us.all fun u => u.fits t) = true := by
  induction h with
  | nil => rfl
  | cons hu _ ih =>
    obtain ⟨hv1, hv2⟩ := Bool.and_eq_true_iff.1 hv
    exact Bool.and_eq_true_iff.2 ⟨hu.fits hv1, ih hv2⟩

theorem entriesStorable_of_returns {t : FieldType} {es us : List (String × Value)}
    (h : List.Forall₂ (fun e u => Returns t e.2 u.2) es us) : entriesStorable us = true := by
  induction h with
  | nil => rfl
  | cons hu _ ih => exact Bool.and_eq_true_iff.2 ⟨hu.storable, ih⟩

theorem all_entries_fit_of_returns {t : FieldType} {es us : List (String × Value)}
    (h : List.Forall₂ (fun e u => Returns t e.2 u.2) es us)
    (hv : (es.all fun e => e.2.fits t) = true) : (us.all fun u => u.2.fits t) = true := by
  induction h with
  | nil => rfl
  | cons hu _ ih =>
    obtain ⟨hv1, hv2⟩ := Bool.and_eq_true_iff.1 hv
    exact Bool.and_eq_true_iff.2 ⟨hu.fits hv1, ih hv2⟩

/-! ## Whole values -/

/-- The reference to each document inside a value that appears under the path itself leads to a
document. -/
def Leads (f : DocClass → String → Except Refusal Value) (path : String) (v : Value) : Prop :=
  ∀ id className fields, (path, Value.document id className fields) ∈ Value.documents path v →
    ∀ k, ∃ u, f k id.text = .ok u ∧ u.className? = some k.name ∧ u.isStorable = true

theorem Leads.items {f : DocClass → String → Except Refusal Value} {v : Value} {items : List Value}
    (hf : Leads f path v) (hv : v = .list items ∨ v = .tuple items) :
    ∀ u ∈ items, Leads f path u := by
  intro u hu id className fields hdoc
  refine hf id className fields ?_
  rcases hv with rfl | rfl <;> exact mem_itemsDocuments.2 ⟨u, hu, hdoc⟩

mutual

/-- A stored value of the form of a type is read at this type. -/
theorem exists_readAs {f : DocClass → String → Except Refusal Value} : ∀ (t : FieldType)
    {v : Value} {j : Json}, Leads f path v → v.forges t = false →
      v.stored.suits (FieldType.descriptor t) = true → j.same v.stored = true →
        ∃ u, readAs f path t j = .ok u ∧ Returns t v u
  | .scalar k, v, j, _, _, hs, hj => by
    by_cases hk : k = .any
    · subst hk
      exact ⟨_, readAs_any _ _ _, returns_readAny hj⟩
    · obtain ⟨u, hread, hfits⟩ := readScalar?_of_suits hk hj hs
      exact ⟨u, readAs_of_readScalar? _ _ hk hread, isStorable_of_fits hfits, fun _ => hfits⟩
  | .list t, v, j, hf, hd, hs, hj => by
    obtain ⟨items, hv, hstored, hsuits⟩ := items_of_suits hs
    rw [hstored] at hj
    obtain ⟨js, rfl, hjs⟩ := Json.exists_array_of_same hj
    have hgenuine : ∀ v ∈ items, v.forges t = false := by
      have hany : (items.any fun v => v.forges t) = false := by
        rcases hv with rfl | rfl <;> exact hd
      rw [List.any_eq_false] at hany
      exact fun v hmem => Bool.eq_false_iff.2 (hany v hmem)
    have hleads := hf.items hv
    obtain ⟨us, hread, hus⟩ := exists_readItems (P := Returns t) items (fun v hmem j hj =>
      exists_readAs t (hleads v hmem) (hgenuine v hmem) (hsuits v hmem) hj) hjs
    refine ⟨.list us, by rw [readAs, hread]; rfl, itemsStorable_of_returns hus, fun hfits => ?_⟩
    rcases hv with rfl | rfl
    · exact all_fits_of_returns hus hfits
    · cases hfits
  | .dict t, v, j, hf, hd, hs, hj => by
    obtain ⟨entries, hstored, hv, hsuits⟩ := entries_of_suits hs
    rw [hstored] at hj
    obtain ⟨js, rfl, hjs⟩ := Json.exists_object_of_same hj
    have hgenuine : ∀ e ∈ entries, e.2.forges t = false := by
      rcases hv with rfl | ⟨-, name, text, rfl⟩
      · rw [forges, List.any_eq_false] at hd
        exact fun e hmem => Bool.eq_false_iff.2 (hd e hmem)
      · exact List.forall_mem_singleton.2 (by cases t <;> rfl)
    have hleads : ∀ e ∈ entries, Leads f path e.2 := by
      rcases hv with rfl | ⟨-, name, text, rfl⟩
      · exact fun e hmem id className fields hdoc =>
          hf id className fields (mem_entriesDocuments.2 ⟨e, hmem, hdoc⟩)
      · exact List.forall_mem_singleton.2 nofun
    obtain ⟨us, hread, hus⟩ := exists_readMembers (P := Returns t) entries (fun e hmem j hj =>
      exists_readAs t (hleads e hmem) (hgenuine e hmem) (hsuits e hmem) hj) hjs
    refine ⟨.dict us, by rw [readAs, hread]; rfl, entriesStorable_of_returns hus, fun hfits => ?_⟩
    rcases hv with rfl | ⟨hnone, -⟩
    · exact all_entries_fit_of_returns hus hfits
    · rw [hnone] at hfits
      cases hfits
  | .tuple ts, v, j, hf, hd, hs, hj => by
    cases hstored : v.stored with
    | array xs =>
      rw [hstored] at hs hj
      obtain ⟨items, hv, rfl⟩ := items_of_stored hstored
      obtain ⟨js, rfl, hjs⟩ := Json.exists_array_of_same hj
      have hgenuine : forgesEach ts items = false := by
        rcases hv with rfl | rfl <;> exact hd
      obtain ⟨hlength, us, hread, hstorable, hfits⟩ :=
        exists_readEach ts (hf.items hv) hgenuine hs hjs
      refine ⟨.tuple us, by rw [readAs, if_pos hlength, hread]; rfl, hstorable, fun h => ?_⟩
      rcases hv with rfl | rfl <;> exact hfits h
    | _ =>
      rw [hstored] at hs
      cases hs
  | .document k, v, j, hf, hd, hs, hj => by
    obtain ⟨text, htext⟩ := Option.isSome_iff_exists.1 hs
    have hstored := Json.wrapped?_eq_some.1 htext
    rw [hstored] at hj
    have hj : j = .object [("$oid", .string text)] :=
      Json.eq_of_same (b := .object [("$oid", .string text)]) ⟨trivial, trivial⟩ hj
    subst hj
    rcases document_of_stored hstored with ⟨entries, rfl⟩ | ⟨id, className, fields, rfl, rfl⟩
    · cases hd
    · obtain ⟨u, hu, hclass, hstorable⟩ := hf id className fields List.mem_cons_self k
      refine ⟨u, ?_, hstorable, fun _ => ?_⟩
      · simp only [readAs, Json.get?, Entries.get?_cons, if_true]
        exact hu
      · rw [fits, hclass, hstorable]
        simp

theorem exists_readEach {f : DocClass → String → Except Refusal Value} : ∀ (ts : List FieldType)
    {vs : List Value} {js : List Json}, (∀ v ∈ vs, Leads f path v) → forgesEach ts vs = false →
      Json.suitsEach (Shape.mapAll DocClass.name ts) (storedItems vs) = true →
        Json.sameItems js (storedItems vs) = true →
          js.length = ts.length ∧ ∃ us, readEach f path ts js = .ok us ∧
            itemsStorable us = true ∧ (fitsEach ts vs = true → fitsEach ts us = true)
  | [], [], [], _, _, _, _ => ⟨rfl, [], rfl, rfl, fun _ => rfl⟩
  | t :: ts, v :: vs, j :: js, hf, hd, hs, hj => by
    obtain ⟨hf1, hf2⟩ := List.forall_mem_cons.1 hf
    obtain ⟨hd1, hd2⟩ := Bool.or_eq_false_iff.1 hd
    obtain ⟨hs1, hs2⟩ := Bool.and_eq_true_iff.1 hs
    obtain ⟨hj1, hj2⟩ := Bool.and_eq_true_iff.1 hj
    obtain ⟨u, hread, hu⟩ := exists_readAs t hf1 hd1 hs1 hj1
    obtain ⟨hlength, us, hreads, hstorable, hfits⟩ := exists_readEach ts hf2 hd2 hs2 hj2
    refine ⟨congrArg (· + 1) hlength, u :: us, by rw [readEach, hread, ok_bind, hreads]; rfl,
      Bool.and_eq_true_iff.2 ⟨hu.storable, hstorable⟩, fun h => ?_⟩
    obtain ⟨h1, h2⟩ := Bool.and_eq_true_iff.1 h
    exact Bool.and_eq_true_iff.2 ⟨hu.fits h1, hfits h2⟩

end

end Record
end SchemaKeeper
