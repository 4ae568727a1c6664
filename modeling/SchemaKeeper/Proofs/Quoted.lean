import SchemaKeeper.Json.Printer
import SchemaKeeper.Json.Reader

/-!
# Reading quoted text

What stands between quotation marks is read as the text that was quoted, one character after the
other, so a text is told by how it is quoted.
-/
namespace SchemaKeeper.Text

open SchemaKeeper.Tree

theorem hexValue?_hexDigit : ∀ n < 16, hexValue? (hexDigit n) = some n := by decide

/-- The piece of a string stands for the character. -/
def Spells (c : Char) (p : Piece) : Prop :=
  ∀ ps, assemble? (p :: ps) = (assemble? ps).map (c :: ·)

theorem spells_unit {c : Char} (h : c.toNat < 32) : Spells c (.unit c.toNat) := by
  intro ps
  have hplain : c.toNat < 0xD800 ∨ 0xE000 ≤ c.toNat := .inl (by omega)
  rw [assemble?.eq_def (.unit c.toNat :: ps)]
  simp only [if_pos hplain, Char.ofNat_toNat]

/-- What stands for a character inside a quoted text is read as this character. -/
theorem exists_piece (c : Char) : ∃ p : Piece, Spells c p ∧ ∀ fuel rest,
    scanPieces? (fuel + 1) (quotedChar c ++ rest) =
      (scanPieces? fuel rest).map fun r => (p :: r.1, r.2) := by
  have hmap : ∀ (p : Piece) (x : Option (List Piece × List Char)),
      (x.bind fun r => some (p :: r.1, r.2)) = x.map fun r => (p :: r.1, r.2) := fun p x => by
    cases x <;> rfl
  have hchar : Spells c (.char c) := fun ps => by rw [assemble?]
  have hnamed : ∀ e, e ≠ 'u' → escaped? e = some c → ∃ p : Piece, Spells c p ∧ ∀ fuel rest,
      scanPieces? (fuel + 1) (['\\', e] ++ rest) =
        (scanPieces? fuel rest).map fun r => (p :: r.1, r.2) := by
    intro e hu he
    refine ⟨.char c, hchar, fun fuel rest => ?_⟩
    simp only [List.cons_append, List.nil_append, scanPieces?]
    rw [if_neg (by decide), if_pos trivial, he]
    exact hmap _ _
  unfold quotedChar
  split
  · rename_i h; exact hnamed '"' (by decide) (by rw [h]; rfl)
  split
  · rename_i h; exact hnamed '\\' (by decide) (by rw [h]; rfl)
  split
  · rename_i h; exact hnamed 'n' (by decide) (by rw [h]; rfl)
  split
  · rename_i h; exact hnamed 'r' (by decide) (by rw [h]; rfl)
  split
  · rename_i h; exact hnamed 't' (by decide) (by rw [h]; rfl)
  split
  · rename_i h; exact hnamed 'b' (by decide) (by rw [← Char.ofNat_toNat c, h]; rfl)
  split
  · rename_i h; exact hnamed 'f' (by decide) (by rw [← Char.ofNat_toNat c, h]; rfl)
  split
  · rename_i hlt
    refine ⟨.unit c.toNat, spells_unit hlt, fun fuel rest => ?_⟩
    have hhigh := hexValue?_hexDigit (c.toNat / 16) (by omega)
    have hlow := hexValue?_hexDigit (c.toNat % 16) (by omega)
    have hzero : hexValue? '0' = some 0 := rfl
    have hsum : c.toNat / 16 * 16 + c.toNat % 16 = c.toNat := by omega
    have hunit : scanUnit?
        ('0' :: '0' :: hexDigit (c.toNat / 16) :: hexDigit (c.toNat % 16) :: rest) =
          some (c.toNat, rest) := by
      simp only [scanUnit?, hzero, hhigh, hlow, Option.bind_eq_bind, Option.bind_some,
        Option.pure_def, Nat.zero_mul, Nat.zero_add, hsum]
    simp only [List.cons_append, List.nil_append, scanPieces?]
    rw [if_neg (by decide), if_pos trivial, hunit]
    exact hmap _ _
  · rename_i hquote hslash _ _ _ _ _ hlt
    refine ⟨.char c, hchar, fun fuel rest => ?_⟩
    simp only [List.cons_append, List.nil_append, scanPieces?]
    rw [if_neg hquote, if_neg hslash, if_neg hlt]
    exact hmap _ _

/-- What stands between quotation marks is read as the text. -/
theorem exists_pieces (cs : List Char) : ∃ ps, assemble? ps = some cs ∧
    ∀ fuel rest, cs.length < fuel →
      scanPieces? fuel (cs.flatMap quotedChar ++ '"' :: rest) = some (ps, rest) := by
  induction cs with
  | nil =>
    refine ⟨[], by rw [assemble?], fun fuel rest hfuel => ?_⟩
    obtain ⟨n, rfl⟩ : ∃ n, fuel = n + 1 := ⟨fuel - 1, by simp at hfuel; omega⟩
    simp only [List.flatMap_nil, List.nil_append, scanPieces?]
    rfl
  | cons c cs ih =>
    obtain ⟨p, hp, hscan⟩ := exists_piece c
    obtain ⟨ps, hps, hrest⟩ := ih
    refine ⟨p :: ps, by rw [hp, hps]; rfl, fun fuel rest hfuel => ?_⟩
    obtain ⟨n, rfl⟩ : ∃ n, fuel = n + 1 := ⟨fuel - 1, by simp at hfuel; omega⟩
    rw [List.flatMap_cons, List.append_assoc, hscan, hrest n rest (by simpa using hfuel)]
    rfl

/-- A text is told by how it is quoted. -/
theorem quoted_injective : Function.Injective quoted := by
  intro s t h
  have hlists : s.toList.flatMap quotedChar ++ ['"'] = t.toList.flatMap quotedChar ++ ['"'] := by
    have hchars := String.ofList_inj.1 h
    injection hchars
  obtain ⟨ps, hps, hs⟩ := exists_pieces s.toList
  obtain ⟨qs, hqs, ht⟩ := exists_pieces t.toList
  have hread := hs (s.toList.length + t.toList.length + 1) [] (by omega)
  rw [hlists, ht _ [] (by omega)] at hread
  injection hread with hread
  injection hread with hread
  rw [← hread, hqs] at hps
  injection hps with hps
  exact (String.toList_inj.1 hps).symm

end SchemaKeeper.Text
