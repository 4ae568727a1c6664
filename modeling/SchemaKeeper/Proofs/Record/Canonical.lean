import SchemaKeeper.Record.Form
import SchemaKeeper.Proofs.Keyed
import SchemaKeeper.Proofs.Value

/-!
# Records that storage can tell apart

The stored form drops some distinctions: an integer where a floating-point number is declared, a
list in place of a tuple, what stands under `any` without a form of its own.  A canonical record
has none of these, at any depth; each document inside it is taken at the types that the schema
declares below its path.
-/
namespace SchemaKeeper

/-- The type that the schema declares at a path, if it declares one. -/
def Schema.declares? (s : Schema) (path : String) : Option FieldType :=
  (s.get? path).bind Field.type

namespace Value

/-- The identifier of a document value. -/
def documentId? : Value → Option Uuid
  | .document id _ _ => some id
  | _ => none

mutual

/-- The entries of dicts and documents ascend, at any depth. -/
def isAscending : Value → Bool
  | .list items => itemsAscending items
  | .tuple items => itemsAscending items
  | .dict entries => decide (Entries.Ordered entries) && entriesAscending entries
  | .document _ _ fields => decide (Entries.Ordered fields) && entriesAscending fields
  | _ => true

def itemsAscending : List Value → Bool
  | [] => true
  | v :: vs => isAscending v && itemsAscending vs

def entriesAscending : List (String × Value) → Bool
  | [] => true
  | (_, v) :: vs => isAscending v && entriesAscending vs

end

/-- The entries of a dict that is stored as a datetime is: one text that writes a moment. -/
def isDate : List (String × Value) → Bool
  | [(name, .string text)] => name == "$date" && (Moment.read? text).isSome
  | _ => false

mutual

/-- The value, which stands at a type below a path, has a stored form of its own.  Where the type
has no parts, it is `any`. -/
def isCanonical (s : Schema) (path : String) (t : FieldType) : Value → Bool
  | .int _ =>
    match t with
    | .scalar .float => false
    | _ => true
  | .datetime m => decide (0 ≤ m.date.year ∧ m.date.year ≤ 9999)
  | .list items =>
    match t with
    | .list t => itemsCanonical s path t items
    | .tuple _ => false
    | _ => itemsCanonical s path (.scalar .any) items
  | .tuple items =>
    match t with
    | .tuple ts => eachCanonical s path ts items
    | _ => false
  | .dict entries =>
    match t with
    | .dict t => entriesCanonical s path t entries
    | _ => !isDate entries && entriesCanonical s path (.scalar .any) entries
  | .document _ _ fields =>
    match t with
    | .document _ => fieldsCanonical s path fields
    | _ => false
  | _ => true

def itemsCanonical (s : Schema) (path : String) (t : FieldType) : List Value → Bool
  | [] => true
  | v :: vs => isCanonical s path t v && itemsCanonical s path t vs

def eachCanonical (s : Schema) (path : String) : List FieldType → List Value → Bool
  | t :: ts, v :: vs => isCanonical s path t v && eachCanonical s path ts vs
  | _, _ => true

def entriesCanonical (s : Schema) (path : String) (t : FieldType) : List (String × Value) → Bool
  | [] => true
  | (_, v) :: vs => isCanonical s path t v && entriesCanonical s path t vs

/-- The fields of a document are canonical: none is called `_id`, and each is an instance of the
type that is declared for it, if one is, and canonical for this type or else for any. -/
def fieldsCanonical (s : Schema) (path : String) : List (String × Value) → Bool
  | [] => true
  | (name, v) :: vs =>
    name != "_id" && (s.declares? (Path.join path name)).all (fun t => fits t v)
      && isCanonical s (Path.join path name) (Record.declared s (Path.join path name)) v
      && fieldsCanonical s path vs

end

mutual

/-- The documents inside a value, each with the path under which it appears. -/
def documents (path : String) : Value → List (String × Value)
  | .list items => itemsDocuments path items
  | .tuple items => itemsDocuments path items
  | .dict entries => entriesDocuments path entries
  | .document id className fields =>
    (path, .document id className fields) :: fieldsDocuments path fields
  | _ => []

def itemsDocuments (path : String) : List Value → List (String × Value)
  | [] => []
  | v :: vs => documents path v ++ itemsDocuments path vs

def entriesDocuments (path : String) : List (String × Value) → List (String × Value)
  | [] => []
  | (_, v) :: vs => documents path v ++ entriesDocuments path vs

def fieldsDocuments (path : String) : List (String × Value) → List (String × Value)
  | [] => []
  | (name, v) :: vs => documents (Path.join path name) v ++ fieldsDocuments path vs

end

/-! ## Items, entries and fields one by one -/

theorem itemsAscending_eq (vs : List Value) : itemsAscending vs = vs.all isAscending := by
  induction vs with
  | nil => rfl
  | cons v vs ih => rw [itemsAscending, ih, List.all_cons]

theorem entriesAscending_eq (es : List (String × Value)) :
    entriesAscending es = es.all fun e => e.2.isAscending := by
  induction es with
  | nil => rfl
  | cons e es ih => rw [entriesAscending, ih, List.all_cons]

theorem itemsCanonical_eq (s : Schema) (path : String) (t : FieldType) (vs : List Value) :
    itemsCanonical s path t vs = vs.all (isCanonical s path t) := by
  induction vs with
  | nil => rfl
  | cons v vs ih => rw [itemsCanonical, ih, List.all_cons]

theorem entriesCanonical_eq (s : Schema) (path : String) (t : FieldType)
    (es : List (String × Value)) :
    entriesCanonical s path t es = es.all fun e => isCanonical s path t e.2 := by
  induction es with
  | nil => rfl
  | cons e es ih => rw [entriesCanonical, ih, List.all_cons]

theorem fieldsCanonical_eq (s : Schema) (path : String) (es : List (String × Value)) :
    fieldsCanonical s path es = es.all fun e =>
      e.1 != "_id" && (s.declares? (Path.join path e.1)).all (fun t => fits t e.2)
        && isCanonical s (Path.join path e.1) (Record.declared s (Path.join path e.1)) e.2 := by
  induction es with
  | nil => rfl
  | cons e es ih => rw [fieldsCanonical, ih, List.all_cons]

theorem keys_of_sameEntries {as bs : List (String × Value)} (h : sameEntries as bs = true) :
    as.map Prod.fst = bs.map Prod.fst := by
  induction as generalizing bs with
  | nil =>
    cases bs with
    | nil => rfl
    | cons b bs => cases h
  | cons a as ih =>
    cases bs with
    | nil => cases h
    | cons b bs =>
      simp only [sameEntries, Bool.and_eq_true, beq_iff_eq] at h
      rw [List.map_cons, List.map_cons, h.1.1, ih h.2]

theorem ordered_of_sameEntries {as bs : List (String × Value)} (h : sameEntries as bs = true) :
    Entries.Ordered as ↔ Entries.Ordered bs := by
  have hkeys : ∀ es : List (String × Value),
      Entries.Ordered es ↔ (es.map Prod.fst).Pairwise (· < ·) := by
    intro es
    rw [List.pairwise_map, Entries.Ordered]
  rw [hkeys, hkeys, keys_of_sameEntries h]

mutual

theorem isAscending_of_same : ∀ {a b : Value}, a.same b = true → a.isAscending = b.isAscending
  | .null, .null, _ => rfl
  | .bool _, .bool _, _ => rfl
  | .int _, .int _, _ => rfl
  | .float _, .float _, _ => rfl
  | .string _, .string _, _ => rfl
  | .datetime _, .datetime _, _ => rfl
  | .list _, .list _, h => itemsAscending_of_same h
  | .tuple _, .tuple _, h => itemsAscending_of_same h
  | .dict _, .dict _, h => by
    rw [isAscending, isAscending, entriesAscending_of_same h]
    simp only [ordered_of_sameEntries h]
  | .document _ _ _, .document _ _ _, h => by
    have h := (Bool.and_eq_true_iff.1 h).2
    rw [isAscending, isAscending, entriesAscending_of_same h]
    simp only [ordered_of_sameEntries h]

theorem itemsAscending_of_same : ∀ {as bs : List Value},
    sameItems as bs = true → itemsAscending as = itemsAscending bs
  | [], [], _ => rfl
  | _ :: _, _ :: _, h => by
    obtain ⟨h1, h2⟩ := Bool.and_eq_true_iff.1 h
    rw [itemsAscending, itemsAscending, isAscending_of_same h1, itemsAscending_of_same h2]

theorem entriesAscending_of_same : ∀ {as bs : List (String × Value)},
    sameEntries as bs = true → entriesAscending as = entriesAscending bs
  | [], [], _ => rfl
  | (_, _) :: _, (_, _) :: _, h => by
    obtain ⟨h1, h2⟩ := Bool.and_eq_true_iff.1 h
    rw [entriesAscending, entriesAscending, isAscending_of_same (Bool.and_eq_true_iff.1 h1).2,
      entriesAscending_of_same h2]

end

theorem storedEntries_eq (es : List (String × Value)) :
    storedEntries es = Entries.mapValues (fun _ => stored) es := by
  induction es with
  | nil => rfl
  | cons e es ih => rw [storedEntries, ih, Entries.mapValues, Entries.mapValues, List.map_cons]

end Value

namespace Record

/-- The record is one that can be made: its fields are top-level fields, and the entries of its
values ascend. -/
structure Formed (r : Record) : Prop where
  topLevel : ∀ e ∈ r.values.entries, isTopLevel e.1 = true
  ascending : Value.entriesAscending r.values.entries = true

/-- Each field value is an instance of the type that the schema declares for it. -/
def Fits (s : Schema) (r : Record) : Prop :=
  ∀ e ∈ r.values.entries, (s.declares? e.1).any (fun t => Value.fits t e.2) = true

/-- The documents inside the record, each with the path under which it appears. -/
def documents (r : Record) : List (String × Value) := Value.fieldsDocuments "" r.values.entries

/-- The record has a stored form of its own: its values have, and documents with one identifier
under one path are equal. -/
structure Canonical (s : Schema) (r : Record) : Prop where
  fields : Value.fieldsCanonical s "" r.values.entries = true
  consistent : ∀ a ∈ r.documents, ∀ b ∈ r.documents, a.1 = b.1 →
    a.2.documentId? = b.2.documentId? → a.2.same b.2 = true

end Record
end SchemaKeeper
