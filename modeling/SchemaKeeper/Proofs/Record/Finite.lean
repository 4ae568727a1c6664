import SchemaKeeper.Proofs.Record.Parts
import SchemaKeeper.Proofs.Store.Finite

/-!
# What is stored of records is finite

A number that is infinite or undefined is stored as null, so the documents of every record hold
finite numbers only.
-/
namespace SchemaKeeper

open Json

namespace Value

mutual

theorem isFinite_stored : ∀ v : Value, v.stored.isFinite = true
  | .null | .bool _ | .int _ | .string _ => rfl
  | .float x => by
    unfold stored
    split
    · assumption
    · rfl
  | .datetime _ => rfl
  | .list items => itemsFinite_storedItems items
  | .tuple items => itemsFinite_storedItems items
  | .dict entries => membersFinite_storedEntries entries
  | .document _ _ _ => rfl

theorem itemsFinite_storedItems : ∀ vs : List Value, itemsFinite (storedItems vs) = true
  | [] => rfl
  | v :: vs => Bool.and_eq_true_iff.2 ⟨isFinite_stored v, itemsFinite_storedItems vs⟩

theorem membersFinite_storedEntries :
    ∀ es : List (String × Value), membersFinite (storedEntries es) = true
  | [] => rfl
  | (_, v) :: es => Bool.and_eq_true_iff.2 ⟨isFinite_stored v, membersFinite_storedEntries es⟩

end

theorem isFinite_storedDocument (id : Uuid) (fields : List (String × Value)) :
    (storedDocument id fields).isFinite = true := by
  refine membersFinite_iff.2 fun m hm => ?_
  have hin := Entries.mem_of_get?_ofList
    (Entries.get?_of_mem (Entries.ordered_ofList _) hm)
  rcases List.mem_cons.1 hin with hin | hin
  · rw [show m = ("_id", .string id.text) from hin]
    rfl
  · exact membersFinite_iff.1 (membersFinite_storedEntries fields) m hin

end Value

namespace Record
variable {r : Record}

theorem isFinite_document (r : Record) : r.document.isFinite = true :=
  Value.isFinite_storedDocument r.id r.values.entries

theorem isFinite_of_mem_parts {part : Part} (h : part ∈ r.parts) :
    part.document.isFinite = true := by
  obtain ⟨d, -, hpart⟩ := mem_parts.1 h
  obtain ⟨_, fields, -, hdocument⟩ := part?_eq_some.1 hpart
  rw [hdocument]
  exact Value.isFinite_storedDocument part.id fields

end Record
end SchemaKeeper
