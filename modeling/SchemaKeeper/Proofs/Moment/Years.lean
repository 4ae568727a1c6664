import SchemaKeeper.Proofs.Moment

/-!
# Years that are written without a sign

A moment is read back from its text by the reader of four digits exactly if its year has them.
What this reader gives is such a moment too, unless its offset takes it over one of the two ends:
to the last day before year 0 or to the first day of year 10000.
-/
namespace SchemaKeeper

namespace Day

/-- The first day of a year. -/
def first (year : Int) : Day :=
  ⟨year, 1, 1, by decide, by decide, by decide, by
    have := twentyEight_le_daysInMonth year 1
    omega⟩

/-- The last day of a year. -/
def last (year : Int) : Day := ⟨year, 12, 31, by decide, by decide, by decide, Nat.le_refl 31⟩

theorem year_next (d : Day) : d.next.year = d.year ∨ d.next = first (d.year + 1) := by
  unfold next
  split
  · exact .inl rfl
  · split
    · exact .inl rfl
    · exact .inr rfl

theorem year_previous (d : Day) : d.previous.year = d.year ∨ d.previous = last (d.year - 1) := by
  unfold previous
  split
  · exact .inl rfl
  · split
    · exact .inl rfl
    · exact .inr rfl

end Day

namespace Moment
variable {m : Moment} {c : Char} {cs rest : List Char} {n count : Nat}

/-- The year of a moment has four digits and no sign. -/
def HasPlainYear (m : Moment) : Prop := 0 ≤ m.date.year ∧ m.date.year ≤ 9999

instance (m : Moment) : Decidable m.HasPlainYear := inferInstanceAs (Decidable (_ ∧ _))

theorem HasPlainYear.writable (h : m.HasPlainYear) : m.Writable := by
  unfold HasPlainYear at h
  unfold Writable
  omega

/-! ## The text of a moment -/

theorem number?_eq_none (hc : digit? c = none) : number? (count + 1) (c :: cs) = none := by
  unfold number?
  split
  · rfl
  · rw [List.take_succ_cons, List.mapM_cons, hc]
    rfl

/-- A year that is written with its sign is not read without. -/
theorem read?_text_eq_none (h : ¬ m.HasPlainYear) : read? m.text = none := by
  have hsign : digit? (if m.date.year < 0 then '-' else '+') = none := by
    split <;> decide
  have hyear : yearText m.date.year =
      (if m.date.year < 0 then '-' else '+') :: padded 4 m.date.year.natAbs := if_neg h
  rw [read?, toList_text, hyear, List.cons_append, number?_eq_none hsign]
  rfl

/-- A moment goes through its text if its year has four digits, and else its text is not read. -/
theorem read?_text_eq (m : Moment) : read? m.text = if m.HasPlainYear then some m else none := by
  split
  · rename_i h
    exact read?_text h
  · rename_i h
    exact read?_text_eq_none h

/-! ## The moments that are read -/

theorem lt_ten_of_digit? (h : digit? c = some n) : n < 10 := by
  unfold digit? at h
  split at h
  · rename_i hc
    have hle : c.toNat ≤ '9'.toNat := hc.2
    have hnine : '9'.toNat = 57 := rfl
    injection h with h
    omega
  · cases h

theorem foldl_lt : ∀ {cs : List Char} {ds : List Nat} {n : Nat}, cs.mapM digit? = some ds →
    ds.foldl (fun n d => n * 10 + d) n < (n + 1) * 10 ^ cs.length
  | [], ds, n, h => by
    cases h
    simp
  | c :: cs, ds, n, h => by
    rw [List.mapM_cons, Option.bind_eq_bind, Option.bind_eq_some_iff] at h
    obtain ⟨d, hd, h⟩ := h
    rw [Option.bind_eq_bind, Option.bind_eq_some_iff] at h
    obtain ⟨ds', hds, h⟩ := h
    cases h
    have hd := lt_ten_of_digit? hd
    calc ds'.foldl (fun n d => n * 10 + d) (n * 10 + d)
      _ < (n * 10 + d + 1) * 10 ^ cs.length := foldl_lt hds
      _ ≤ (n + 1) * 10 * 10 ^ cs.length := Nat.mul_le_mul_right _ (by omega)
      _ = (n + 1) * 10 ^ (c :: cs).length := by
        rw [List.length_cons, Nat.pow_succ, Nat.mul_assoc, Nat.mul_comm 10]

/-- A number in so many digits is below that power of ten. -/
theorem number?_lt (h : number? count cs = some (n, rest)) : n < 10 ^ count := by
  unfold number? at h
  split at h
  · cases h
  · rename_i hl
    rw [Option.bind_eq_bind, Option.bind_eq_some_iff] at h
    obtain ⟨ds, hds, h⟩ := h
    cases h
    have hlt := foldl_lt (n := 0) hds
    rwa [List.length_take, Nat.min_eq_left (Nat.le_of_not_lt hl), Nat.zero_add, Nat.one_mul] at hlt

theorem year_of_ofNumbers? {year : Int} {month day : Nat} {d : Day}
    (h : Day.ofNumbers? year month day = some d) : d.year = year := by
  unfold Day.ofNumbers? at h
  split at h
  · injection h with h
    rw [← h]
  · cases h

/-- What is read after a year is a time of this year by some clock. -/
theorem exists_ofLocal {year : Int} (h : afterYear? year cs = some m) :
    ∃ (l : Moment) (offset : Int), l.date.year = year ∧ m = l.ofLocal offset := by
  -- Up to the date, of which the year is one part,
  obtain ⟨_, -, h⟩ := Option.bind_eq_some_iff.1 h
  obtain ⟨⟨month, _⟩, -, h⟩ := Option.bind_eq_some_iff.1 h
  obtain ⟨_, -, h⟩ := Option.bind_eq_some_iff.1 h
  obtain ⟨⟨day, _⟩, -, h⟩ := Option.bind_eq_some_iff.1 h
  obtain ⟨date, hdate, h⟩ := Option.bind_eq_some_iff.1 h
  -- then the separator,
  dsimp only at h
  split at h
  case h_2 => cases h
  split at h
  case isFalse => cases h
  obtain ⟨_, -, h⟩ := Option.bind_eq_some_iff.1 h
  -- and the time up to the offset.
  obtain ⟨⟨hour, _⟩, -, h⟩ := Option.bind_eq_some_iff.1 h
  obtain ⟨_, -, h⟩ := Option.bind_eq_some_iff.1 h
  obtain ⟨⟨minute, _⟩, -, h⟩ := Option.bind_eq_some_iff.1 h
  obtain ⟨_, -, h⟩ := Option.bind_eq_some_iff.1 h
  obtain ⟨⟨second, _⟩, -, h⟩ := Option.bind_eq_some_iff.1 h
  obtain ⟨⟨nano, _⟩, -, h⟩ := Option.bind_eq_some_iff.1 h
  obtain ⟨⟨offset, _⟩, -, h⟩ := Option.bind_eq_some_iff.1 h
  dsimp only at h
  split at h
  case isFalse => cases h
  split at h
  case isFalse => cases h
  injection h with h
  exact ⟨_, offset, year_of_ofNumbers? hdate, h.symm⟩

theorem date_ofLocal (m : Moment) (offset : Int) : (m.ofLocal offset).date = m.date ∨
    (m.ofLocal offset).date = m.date.previous ∨ (m.ofLocal offset).date = m.date.next := by
  simp only [ofLocal]
  split
  · exact .inr (.inl rfl)
  · split
    · exact .inr (.inr rfl)
    · exact .inl rfl

/-- A text is read as a moment of a year of four digits, or its offset takes it to the last day
before these years or to the first one after them. -/
theorem date_of_read? {s : String} (h : read? s = some m) :
    m.HasPlainYear ∨ m.date = .last (-1) ∨ m.date = .first 10000 := by
  rw [read?, Option.bind_eq_bind, Option.bind_eq_some_iff] at h
  obtain ⟨⟨year, cs⟩, hyear, h⟩ := h
  have hyear := number?_lt hyear
  obtain ⟨l, offset, hl, rfl⟩ := exists_ofLocal h
  unfold HasPlainYear
  rcases date_ofLocal l offset with hdate | hdate | hdate <;> rw [hdate]
  · omega
  · rcases l.date.year_previous with hy | hy
    · omega
    · by_cases h0 : year = 0
      · refine .inr (.inl ?_)
        rw [hy, hl, h0]
        rfl
      · left
        rw [hy, hl]
        simp only [Day.last]
        omega
  · rcases l.date.year_next with hy | hy
    · omega
    · by_cases h0 : year = 9999
      · refine .inr (.inr ?_)
        rw [hy, hl, h0]
        rfl
      · left
        rw [hy, hl]
        simp only [Day.first]
        omega

end Moment
end SchemaKeeper
