import SchemaKeeper.Proofs.Record.Read

/-!
# The documents inside a record and what is written of them

A part is written for each document inside a record, under its path and with its stored form.
-/
namespace SchemaKeeper

/-! ## Documents inside values -/

namespace Value
variable {d : String × Value} {path : String}

theorem mem_itemsDocuments {vs : List Value} :
    d ∈ itemsDocuments path vs ↔ ∃ v ∈ vs, d ∈ documents path v := by
  induction vs with
  | nil => simp [itemsDocuments]
  | cons v vs ih => simp [itemsDocuments, ih]

theorem mem_entriesDocuments {es : List (String × Value)} :
    d ∈ entriesDocuments path es ↔ ∃ e ∈ es, d ∈ documents path e.2 := by
  induction es with
  | nil => simp [entriesDocuments]
  | cons e es ih =>
    rw [entriesDocuments, List.mem_append, ih, List.exists_mem_cons_iff]

theorem mem_fieldsDocuments {es : List (String × Value)} :
    d ∈ fieldsDocuments path es ↔ ∃ e ∈ es, d ∈ documents (Path.join path e.1) e.2 := by
  induction es with
  | nil => simp [fieldsDocuments]
  | cons e es ih =>
    rw [fieldsDocuments, List.mem_append, ih, List.exists_mem_cons_iff]

/-- A property of values at paths that passes on to what is inside them. -/
structure PassesDown (P : String → Value → Prop) : Prop where
  list : ∀ {path : String} {items : List Value}, P path (.list items) → ∀ v ∈ items, P path v
  tuple : ∀ {path : String} {items : List Value}, P path (.tuple items) → ∀ v ∈ items, P path v
  dict : ∀ {path : String} {entries : List (String × Value)}, P path (.dict entries) →
    ∀ e ∈ entries, P path e.2
  document : ∀ {path : String} {id : Uuid} {className : String} {fields : List (String × Value)},
    P path (.document id className fields) → ∀ e ∈ fields, P (Path.join path e.1) e.2

namespace PassesDown
variable {P : String → Value → Prop}

mutual

/-- What passes on to what is inside a value holds of the documents inside it. -/
theorem documents (hP : PassesDown P) : ∀ {path : String} (v : Value), P path v →
    ∀ d ∈ Value.documents path v, P d.1 d.2
  | _, .list items, h => hP.itemsDocuments items (hP.list h)
  | _, .tuple items, h => hP.itemsDocuments items (hP.tuple h)
  | _, .dict entries, h => hP.entriesDocuments entries (hP.dict h)
  | _, .document _ _ fields, h =>
    List.forall_mem_cons.2 ⟨h, hP.fieldsDocuments fields (hP.document h)⟩
  | _, .null, _ | _, .bool _, _ | _, .int _, _ | _, .float _, _ | _, .string _, _
  | _, .datetime _, _ => nofun

theorem itemsDocuments (hP : PassesDown P) : ∀ {path : String} (vs : List Value),
    (∀ v ∈ vs, P path v) → ∀ d ∈ Value.itemsDocuments path vs, P d.1 d.2
  | _, [], _ => nofun
  | _, v :: vs, h => by
    obtain ⟨hv, hvs⟩ := List.forall_mem_cons.1 h
    exact List.forall_mem_append.2 ⟨hP.documents v hv, hP.itemsDocuments vs hvs⟩

theorem entriesDocuments (hP : PassesDown P) : ∀ {path : String} (es : List (String × Value)),
    (∀ e ∈ es, P path e.2) → ∀ d ∈ Value.entriesDocuments path es, P d.1 d.2
  | _, [], _ => nofun
  | _, (_, v) :: es, h => by
    obtain ⟨hv, hes⟩ := List.forall_mem_cons.1 h
    exact List.forall_mem_append.2 ⟨hP.documents v hv, hP.entriesDocuments es hes⟩

theorem fieldsDocuments (hP : PassesDown P) : ∀ {path : String} (es : List (String × Value)),
    (∀ e ∈ es, P (Path.join path e.1) e.2) → ∀ d ∈ Value.fieldsDocuments path es, P d.1 d.2
  | _, [], _ => nofun
  | _, (_, v) :: es, h => by
    obtain ⟨hv, hes⟩ := List.forall_mem_cons.1 h
    exact List.forall_mem_append.2 ⟨hP.documents v hv, hP.fieldsDocuments es hes⟩

end

end PassesDown

end Value

namespace Record

open Value

/-! ## Parts -/

/-- What is written of a document that appears under a path. -/
def part? : String × Value → Option Part
  | (path, .document id _ fields) => some ⟨path, id, storedDocument id fields⟩
  | _ => none

theorem part?_eq_some {d : String × Value} {p : Part} : part? d = some p ↔
    ∃ className fields, d = (p.path, .document p.id className fields) ∧
      p.document = storedDocument p.id fields := by
  constructor
  · intro h
    obtain ⟨path, v⟩ := d
    cases v with
    | document id className fields =>
      injection h with h
      subst h
      exact ⟨className, fields, rfl, rfl⟩
    | _ => cases h
  · rintro ⟨className, fields, rfl, hdocument⟩
    rw [part?, ← hdocument]

mutual

theorem mem_partsOf {p : Part} : ∀ (path : String) (v : Value),
    p ∈ partsOf path v ↔ ∃ d ∈ Value.documents path v, part? d = some p
  | path, .list items => mem_partsOfItems path items
  | path, .tuple items => mem_partsOfItems path items
  | path, .dict entries => mem_partsOfEntries path entries
  | path, .document id className fields => by
    rw [partsOf, Value.documents, List.mem_cons, mem_partsOfFields path fields]
    simp [part?, eq_comm]
  | _, .null => by simp [partsOf, Value.documents]
  | _, .bool _ => by simp [partsOf, Value.documents]
  | _, .int _ => by simp [partsOf, Value.documents]
  | _, .float _ => by simp [partsOf, Value.documents]
  | _, .string _ => by simp [partsOf, Value.documents]
  | _, .datetime _ => by simp [partsOf, Value.documents]

theorem mem_partsOfItems {p : Part} : ∀ (path : String) (vs : List Value),
    p ∈ partsOfItems path vs ↔ ∃ d ∈ itemsDocuments path vs, part? d = some p
  | _, [] => by simp [partsOfItems, itemsDocuments]
  | path, v :: vs => by
    rw [partsOfItems, itemsDocuments, List.mem_append, mem_partsOf path v,
      mem_partsOfItems path vs, or_comm]
    simp only [List.mem_append, or_and_right, exists_or]

theorem mem_partsOfEntries {p : Part} : ∀ (path : String) (es : List (String × Value)),
    p ∈ partsOfEntries path es ↔ ∃ d ∈ entriesDocuments path es, part? d = some p
  | _, [] => by simp [partsOfEntries, entriesDocuments]
  | path, (_, v) :: es => by
    rw [partsOfEntries, entriesDocuments, List.mem_append, mem_partsOf path v,
      mem_partsOfEntries path es, or_comm]
    simp only [List.mem_append, or_and_right, exists_or]

theorem mem_partsOfFields {p : Part} : ∀ (path : String) (es : List (String × Value)),
    p ∈ partsOfFields path es ↔ ∃ d ∈ fieldsDocuments path es, part? d = some p
  | _, [] => by simp [partsOfFields, fieldsDocuments]
  | path, (name, v) :: es => by
    rw [partsOfFields, fieldsDocuments, List.mem_append, mem_partsOf (Path.join path name) v,
      mem_partsOfFields path es, or_comm]
    simp only [List.mem_append, or_and_right, exists_or]

end

variable {r : Record} {s : Schema}

theorem mem_parts {p : Part} : p ∈ r.parts ↔ ∃ d ∈ r.documents, part? d = some p :=
  mem_partsOfFields "" r.values.entries

theorem passesDown_ne_root : PassesDown fun path _ => path ≠ "" :=
  ⟨fun hp _ _ => hp, fun hp _ _ => hp, fun hp _ _ => hp, fun hp e _ => join_ne_root hp e.1⟩

theorem ne_root_of_isTopLevel {name : String} (h : isTopLevel name = true) : name ≠ "" := by
  rintro rfl
  cases h

/-- No document inside a record appears at the root. -/
theorem path_ne_root (h : ∀ e ∈ r.values.entries, isTopLevel e.1 = true) {p : Part}
    (hp : p ∈ r.parts) : p.path ≠ "" := by
  obtain ⟨d, hd, hpart⟩ := mem_parts.1 hp
  obtain ⟨className, fields, rfl, -⟩ := part?_eq_some.1 hpart
  refine passesDown_ne_root.fieldsDocuments r.values.entries (fun e he => ?_) _ hd
  rw [Path.join_root]
  exact ne_root_of_isTopLevel (h e he)

theorem Formed.path_ne_root (h : r.Formed) {p : Part} (hp : p ∈ r.parts) : p.path ≠ "" :=
  Record.path_ne_root h.topLevel hp

/-- Of the documents inside the record, those of one path and one identifier have the same stored
form. -/
def Unambiguous (r : Record) : Prop :=
  ∀ p ∈ r.parts, ∀ q ∈ r.parts, p.path = q.path → p.id = q.id → p.document.same q.document = true

instance (r : Record) : Decidable r.Unambiguous :=
  inferInstanceAs (Decidable (∀ p ∈ r.parts, ∀ q ∈ r.parts, p.path = q.path → p.id = q.id →
    p.document.same q.document = true))

theorem Canonical.unambiguous (h : r.Canonical s) : r.Unambiguous := by
  intro p hp q hq hpath hid
  obtain ⟨d, hd, hpart⟩ := mem_parts.1 hp
  obtain ⟨className, fields, rfl, hdocument⟩ := part?_eq_some.1 hpart
  obtain ⟨d', hd', hpart'⟩ := mem_parts.1 hq
  obtain ⟨className', fields', rfl, hdocument'⟩ := part?_eq_some.1 hpart'
  have hsame := h.consistent _ hd _ hd' hpath (congrArg some hid)
  rw [hdocument, hdocument', hid]
  exact storedDocument_of_same _ (Bool.and_eq_true_iff.1 hsame).2

end Record
end SchemaKeeper
