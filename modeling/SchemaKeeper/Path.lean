/-!
# Dotted paths

A field is addressed by the names that lead to it, joined by dots; the empty text is the root.
`Path.join` extends a path, `Path.leaf` gives its last name, and `Path.isBelow` says that a path
runs through another.
-/
namespace SchemaKeeper.Path

/-- The path of a name below a path.  Below the root it is the name alone. -/
def join (path name : String) : String :=
  if path = "" then name else path ++ "." ++ name

/-- What follows the last dot. -/
def leaf (path : String) : String :=
  String.ofList (path.toList.reverse.takeWhile (· != '.')).reverse

/-- The path starts with the base and a dot. -/
def isBelow (base path : String) : Bool :=
  (base.toList ++ ['.']).isPrefixOf path.toList

/-- The path lies in the part of the tree that the base roots; all paths lie under the root. -/
def isWithin (base path : String) : Bool :=
  base = "" || isBelow base path

/-- What remains of a path below a base, given that it lies within it. -/
def under (base path : String) : String :=
  if base = "" then path else String.ofList (path.toList.drop (base.toList.length + 1))

@[simp] theorem join_root (name : String) : join "" name = name := rfl

theorem join_of_ne_root {path : String} (h : path ≠ "") (name : String) :
    join path name = path ++ "." ++ name := by simp [join, h]

theorem isBelow_iff {base path : String} :
    isBelow base path = true ↔ ∃ rest, path.toList = base.toList ++ '.' :: rest := by
  simp only [isBelow, List.isPrefixOf_iff_prefix, List.IsPrefix]
  constructor
  · rintro ⟨t, ht⟩; exact ⟨t, by simpa using ht.symm⟩
  · rintro ⟨t, ht⟩; exact ⟨t, by simpa using ht.symm⟩

/-- Joining below a proper base and cutting the base off again gives the name back. -/
theorem under_join {base : String} (name : String) : under base (join base name) = name := by
  unfold under join
  split
  · rfl
  · apply String.toList_inj.1
    have h : (base ++ "." ++ name).toList = (base.toList ++ ['.']) ++ name.toList := by
      simp [String.toList_append]
    rw [String.toList_ofList, h, List.drop_left' (by simp)]

/-- A name joined below a base lies within it. -/
theorem isWithin_join (base name : String) : isWithin base (join base name) = true := by
  unfold isWithin
  by_cases h : base = ""
  · simp [h]
  · have : isBelow base (join base name) = true :=
      isBelow_iff.2 ⟨name.toList, by simp [join, h, String.toList_append]⟩
    simp [this]

end SchemaKeeper.Path
