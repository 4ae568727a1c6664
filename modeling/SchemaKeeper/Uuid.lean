/-!
# Identifiers

An identifier is 32 hexadecimal digits.  It is written in lower case with hyphens after the 8th,
12th, 16th and 20th digit; it is read in either case with these hyphens or none, and with hyphens
also between braces or after `urn:uuid:`, this too in either case.
-/
namespace SchemaKeeper

/-- An identifier of 128 bits, as its hexadecimal digits. -/
structure Uuid where
  digits : List (Fin 16)
  size : digits.length = 32
  deriving DecidableEq

namespace Uuid

/-- The letter of a digit, in lower case. -/
def letter (d : Fin 16) : Char :=
  if d.val < 10 then Char.ofNat (d.val + 48) else Char.ofNat (d.val + 87)

/-- The digit that a letter of either case stands for. -/
def digit? (c : Char) : Option (Fin 16) :=
  let n := c.toNat
  if '0' ≤ c ∧ c ≤ '9' then some (Fin.ofNat 16 (n - 48))
  else if 'a' ≤ c ∧ c ≤ 'f' then some (Fin.ofNat 16 (n - 87))
  else if 'A' ≤ c ∧ c ≤ 'F' then some (Fin.ofNat 16 (n - 55))
  else none

/-- The 32 digits without hyphens. -/
def plain (u : Uuid) : String := String.ofList (u.digits.map letter)

/-- Puts hyphens between the groups of 8, 4, 4, 4 and 12 characters. -/
def hyphenate (cs : List Char) : List Char :=
  cs.take 8 ++ '-' :: (cs.drop 8).take 4 ++ '-' :: (cs.drop 12).take 4 ++ '-' ::
    (cs.drop 16).take 4 ++ '-' :: cs.drop 20

/-- The written form. -/
def text (u : Uuid) : String := String.ofList (hyphenate (u.digits.map letter))

/-- Takes the hyphens out of 36 characters. -/
def unhyphenate? (cs : List Char) : Option (List Char) :=
  if cs.length = 36 ∧ cs[8]? = some '-' ∧ cs[13]? = some '-' ∧ cs[18]? = some '-'
      ∧ cs[23]? = some '-' then
    some (cs.take 8 ++ (cs.drop 9).take 4 ++ (cs.drop 14).take 4 ++ (cs.drop 19).take 4
      ++ cs.drop 24)
  else none

/-- An identifier from 32 hexadecimal letters. -/
def ofLetters? (cs : List Char) : Option Uuid := do
  let ds ← cs.mapM digit?
  if h : ds.length = 32 then some ⟨ds, h⟩ else none

/-- The letters between braces. -/
def unbraced? : List Char → Option (List Char)
  | '\x7b' :: cs => if cs.getLast? = some '\x7d' then some cs.dropLast else none
  | _ => none

/-- The letters after `urn:uuid:` in either case. -/
def unnamed? (cs : List Char) : Option (List Char) :=
  if (cs.take 9).map Char.toLower = "urn:uuid:".toList then some (cs.drop 9) else none

/-- The identifier that a text writes, in any of the accepted forms. -/
def read? (s : String) : Option Uuid :=
  let cs := s.toList
  if cs.length = 32 then ofLetters? cs
  else if cs.length = 36 then unhyphenate? cs >>= ofLetters?
  else if cs.length = 38 then unbraced? cs >>= unhyphenate? >>= ofLetters?
  else if cs.length = 45 then unnamed? cs >>= unhyphenate? >>= ofLetters?
  else none

/-- The identifier whose digits spell a number, the lowest 32 of them. -/
def ofNat (n : Nat) : Uuid :=
  ⟨(List.range 32).map fun i => Fin.ofNat 16 (n / Nat.pow 16 (31 - i)), by simp⟩

/-- The identifier of version 4 whose other digits are those of a random number. -/
def ofRandom (n : Nat) : Uuid :=
  ⟨(List.range 32).map fun i =>
      let d := n / Nat.pow 16 (31 - i)
      if i = 12 then 4 else if i = 16 then Fin.ofNat 16 (8 + d % 4) else Fin.ofNat 16 d,
    by simp⟩

example : (ofNat 255).text = "00000000-0000-0000-0000-0000000000ff" := by decide
example : read? "00000000-0000-0000-0000-0000000000FF" = some (ofNat 255) := by decide
example : read? "Urn:UUID:00000000-0000-0000-0000-0000000000fF" = some (ofNat 255) := by decide

end Uuid
end SchemaKeeper
