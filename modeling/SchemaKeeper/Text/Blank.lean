/-!
# Blank text

The characters with the property White_Space.  A text is blank if it holds no other.
-/
namespace SchemaKeeper.Text

/-- The code points with the property White_Space, in ascending order. -/
def blankTable : List Nat :=
  [0x9, 0xA, 0xB, 0xC, 0xD, 0x20, 0x85, 0xA0, 0x1680, 0x2000, 0x2001, 0x2002, 0x2003, 0x2004,
    0x2005, 0x2006, 0x2007, 0x2008, 0x2009, 0x200A, 0x2028, 0x2029, 0x202F, 0x205F, 0x3000]

/-- The character is white space. -/
def isBlankChar (c : Char) : Bool := blankTable.contains c.toNat

/-- The text is empty or holds white space alone. -/
def isBlank (s : String) : Bool := s.toList.all isBlankChar

theorem isBlankChar_of_isWhitespace {c : Char} (h : c.isWhitespace = true) :
    isBlankChar c = true := by
  simp only [Char.isWhitespace, Bool.or_eq_true, decide_eq_true_eq] at h
  rcases h with ((rfl | rfl) | rfl) | rfl <;> decide

example : isBlank "" = true ∧ isBlank " \t\n" = true ∧ isBlank " x " = false := by decide

end SchemaKeeper.Text
