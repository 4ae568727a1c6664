import SchemaKeeper.Layout.Basic
import SchemaKeeper.Proofs.Outcome

/-!
# Identifiers go through their text

The written form of an identifier is read back, so identifiers with one text are equal.  The name
of a new collection ends in its identifier, which it therefore determines.
-/
namespace SchemaKeeper

namespace Uuid

theorem digit?_letter (d : Fin 16) : digit? (letter d) = some d := by
  revert d
  decide

theorem ofLetters?_digits (u : Uuid) : ofLetters? (u.digits.map letter) = some u := by
  have hm : ∀ ds : List (Fin 16), (ds.map letter).mapM digit? = some ds := by
    intro ds
    induction ds with
    | nil => rfl
    | cons d ds ih => simp [List.mapM_cons, digit?_letter, ih]
  simp [ofLetters?, hm, u.size]

theorem unhyphenate?_groups {a b c d e : List Char} (ha : a.length = 8) (hb : b.length = 4)
    (hc : c.length = 4) (hd : d.length = 4) (he : e.length = 12) :
    unhyphenate? (a ++ '-' :: b ++ '-' :: c ++ '-' :: d ++ '-' :: e) =
      some (a ++ b ++ c ++ d ++ e) := by
  simp [unhyphenate?, List.drop_append, ha, hb, hc, hd, he, List.drop_of_length_le]

theorem length_hyphenate {cs : List Char} (h : cs.length = 32) : (hyphenate cs).length = 36 := by
  simp [hyphenate, h]

theorem unhyphenate?_hyphenate {cs : List Char} (h : cs.length = 32) :
    unhyphenate? (hyphenate cs) = some cs := by
  have hcut : ∀ n k, cs.drop n = (cs.drop n).take k ++ cs.drop (n + k) := by
    intro n k
    rw [← List.drop_drop, List.take_append_drop]
  rw [hyphenate, unhyphenate?_groups (by simp [h]) (by simp [h]) (by simp [h]) (by simp [h])
    (by simp [h])]
  rw [List.append_assoc, List.append_assoc, List.append_assoc, ← hcut 16 4, ← hcut 12 4,
    ← hcut 8 4, List.take_append_drop]

/-- An identifier goes through its text. -/
theorem read?_text (u : Uuid) : read? u.text = some u := by
  have hl : (u.digits.map letter).length = 32 := by rw [List.length_map, u.size]
  simp [read?, text, length_hyphenate hl, unhyphenate?_hyphenate hl, ofLetters?_digits]

theorem text_injective {u v : Uuid} (h : u.text = v.text) : u = v := by
  have hu := read?_text u
  rw [h, read?_text v] at hu
  injection hu with hu
  exact hu.symm

theorem length_plain (u : Uuid) : u.plain.toList.length = 32 := by
  simp [plain, u.size]

theorem plain_injective {u v : Uuid} (h : u.plain = v.plain) : u = v := by
  have hu := ofLetters?_digits u
  rw [String.ofList_injective h, ofLetters?_digits v] at hu
  injection hu with hu
  exact hu.symm

end Uuid

namespace Layout

/-- The name of a new collection determines its identifier. -/
theorem collectionName_injective {a b : String} {u v : Uuid}
    (h : collectionName a u = collectionName b v) : u = v := by
  have hl := congrArg String.toList h
  simp only [collectionName, String.toList_append] at hl
  have hlen : u.plain.toList.length = v.plain.toList.length := by
    rw [Uuid.length_plain, Uuid.length_plain]
  exact Uuid.plain_injective (String.toList_inj.1 (List.append_inj_right' hl hlen))

end Layout
end SchemaKeeper
