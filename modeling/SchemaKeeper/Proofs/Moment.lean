import Mathlib.Algebra.Group.Nat.Defs
import SchemaKeeper.Moment.Rfc3339

/-!
# Moments go through their text

A number in digits is read back by its count of digits, and so is each part of a moment.  The
year decides which reader takes a text: four digits are read by both, a signed year up to six
digits by `Moment.readSigned?` alone.
-/
namespace SchemaKeeper.Moment
variable {width n : Nat} {cs rest : List Char}

/-! ## Digits -/

theorem digit?_of_isDigit {c : Char} (h : c.isDigit) : digit? c = some (c.toNat - '0'.toNat) := by
  have hc : '0' ≤ c ∧ c ≤ '9' := by
    simp only [Char.isDigit, ge_iff_le, Bool.and_eq_true, decide_eq_true_eq] at h
    exact h
  simp only [digit?, hc, and_self, if_true]
  rfl

theorem mapM_digit? (h : ∀ c ∈ cs, c.isDigit) :
    cs.mapM digit? = some (cs.map fun c => c.toNat - '0'.toNat) := by
  induction cs with
  | nil => rfl
  | cons c cs ih =>
    obtain ⟨hc, hcs⟩ := List.forall_mem_cons.1 h
    simp [List.mapM_cons, digit?_of_isDigit hc, ih hcs]

theorem foldl_digits (cs : List Char) (n : Nat) :
    (cs.map fun c => c.toNat - '0'.toNat).foldl (fun n d => n * 10 + d) n =
      Nat.ofDigitChars 10 cs n := by
  simp [Nat.ofDigitChars_eq_foldl, List.foldl_map, Nat.mul_comm]

/-- Digits are read by their count. -/
theorem number?_of_digits (h : ∀ c ∈ cs, c.isDigit) (rest : List Char) :
    number? cs.length (cs ++ rest) = some (Nat.ofDigitChars 10 cs 0, rest) := by
  simp only [number?, List.length_append, Nat.not_lt.2 (Nat.le_add_right _ _), if_false,
    List.take_left, List.drop_left, mapM_digit? h]
  simp [← foldl_digits]

theorem isDigit_of_mem_padded {c : Char} (h : c ∈ padded width n) : c.isDigit := by
  rcases List.mem_append.1 h with h | h
  · rw [List.eq_of_mem_replicate h]
    decide
  · exact Nat.isDigit_of_mem_toDigits (by decide) (by decide) h

theorem ofDigitChars_padded : Nat.ofDigitChars 10 (padded width n) 0 = n := by
  simp [padded, Nat.ofDigitChars_append]

theorem length_padded (hw : 0 < width) (h : n < 10 ^ width) : (padded width n).length = width := by
  have hl := (Nat.length_toDigits_le_iff (by decide) hw).2 h
  simp [padded]
  omega

theorem number?_padded (hw : 0 < width) (h : n < 10 ^ width) (rest : List Char) :
    number? width (padded width n ++ rest) = some (n, rest) := by
  have hd : ∀ c ∈ padded width n, c.isDigit := fun _ hc => isDigit_of_mem_padded hc
  have hn := number?_of_digits hd rest
  rwa [length_padded hw h, ofDigitChars_padded] at hn

/-! ## The parts of a moment -/

theorem expect?_cons (c : Char) (rest : List Char) : expect? c (c :: rest) = some rest := by
  simp [expect?]

theorem takeWhile_digits (h : ∀ c ∈ cs, c.isDigit) {c : Char} (hc : digit? c = none) :
    (cs ++ c :: rest).takeWhile (fun c => (digit? c).isSome) = cs := by
  rw [List.takeWhile_append_of_pos fun c hc => by simp [digit?_of_isDigit (h c hc)]]
  simp [hc]

theorem fraction?_digits (hw : 0 < cs.length) (hw' : cs.length ≤ 9)
    (h : ∀ c ∈ cs, c.isDigit) {c : Char} (hc : digit? c = none) :
    fraction? ('.' :: cs ++ c :: rest) =
      some (Nat.ofDigitChars 10 cs 0 * 10 ^ (9 - cs.length), c :: rest) := by
  have hne : cs.isEmpty = false := by cases cs <;> simp_all
  simp only [fraction?, List.cons_append, takeWhile_digits h hc, hne, Bool.false_eq_true, if_false,
    List.take_of_length_le hw', mapM_digit? h, List.drop_left]
  simp [← foldl_digits]

/-- A fraction goes through its text, followed by what is no digit. -/
theorem fraction?_fractionText {nano : Nat} (h : nano < 1000000000) (rest : List Char) :
    fraction? (fractionText nano ++ 'Z' :: rest) = some (nano, 'Z' :: rest) := by
  have hpart : ∀ width, 0 < width → width ≤ 9 → nano / 10 ^ (9 - width) < 10 ^ width →
      nano % 10 ^ (9 - width) = 0 →
      fraction? ('.' :: padded width (nano / 10 ^ (9 - width)) ++ 'Z' :: rest) =
        some (nano, 'Z' :: rest) := by
    intro width h0 h9 hlt hmod
    have hl := length_padded h0 hlt
    rw [fraction?_digits (by omega) (by omega) (fun _ hc => isDigit_of_mem_padded hc) (by decide),
      ofDigitChars_padded, hl, Nat.div_mul_cancel (Nat.dvd_of_mod_eq_zero hmod)]
  unfold fractionText
  split
  · rename_i h0
    subst h0
    rfl
  · split
    · exact hpart 3 (by decide) (by decide) (by omega) (by assumption)
    · split
      · exact hpart 6 (by decide) (by decide) (by omega) (by assumption)
      · have h9 := hpart 9 (by decide) (by decide) (by omega) (by omega)
        simpa using h9

@[simp] theorem ofLocal_zero (m : Moment) : m.ofLocal 0 = m := by
  obtain ⟨date, hour, minute, second, nano, hv⟩ := m
  simp only [ofLocal, Int.sub_zero, Moment.mk.injEq, and_true]
  have h1 : ¬ ((hour * 60 + minute : Nat) : Int) < 0 := by omega
  have h2 : ¬ (1440 : Int) ≤ ((hour * 60 + minute : Nat) : Int) := by omega
  have h3 : (((hour * 60 + minute : Nat) : Int) % 1440).toNat = hour * 60 + minute := by omega
  rw [if_neg h1, if_neg h2, h3]
  exact ⟨rfl, by omega, by omega⟩

theorem ofNumbers?_day (d : Day) : Day.ofNumbers? d.year d.month d.day = some d := by
  simp [Day.ofNumbers?, d.valid]

/-- The parts that are read one after the other make a moment. -/
theorem afterYear?_of_parts {year : Int} {month day hour minute second nano : Nat} {date : Day}
    {c₁ c₂ c₃ c₄ c₅ c₆ c₇ c₈ c₉ c₁₀ : List Char} (h₁ : expect? '-' c₁ = some c₂)
    (h₂ : number? 2 c₂ = some (month, c₃)) (h₃ : expect? '-' c₃ = some c₄)
    (h₄ : number? 2 c₄ = some (day, 'T' :: c₅)) (hdate : Day.ofNumbers? year month day = some date)
    (h₅ : number? 2 c₅ = some (hour, c₆)) (h₆ : expect? ':' c₆ = some c₇)
    (h₇ : number? 2 c₇ = some (minute, c₈)) (h₈ : expect? ':' c₈ = some c₉)
    (h₉ : number? 2 c₉ = some (second, c₁₀)) (h₁₀ : fraction? c₁₀ = some (nano, ['Z']))
    (h : hour < 24 ∧ minute < 60 ∧ second ≤ 60 ∧ nano < 1000000000) :
    afterYear? year c₁ = some ⟨date, hour, minute, second, nano, h⟩ := by
  rw [afterYear?, h₁]
  show (number? 2 c₂ >>= _) = _
  rw [h₂]
  show (expect? '-' c₃ >>= _) = _
  rw [h₃]
  show (number? 2 c₄ >>= _) = _
  rw [h₄]
  show (Day.ofNumbers? year month day >>= _) = _
  rw [hdate]
  show (number? 2 c₅ >>= _) = _
  rw [h₅]
  show (expect? ':' c₆ >>= _) = _
  rw [h₆]
  show (number? 2 c₇ >>= _) = _
  rw [h₇]
  show (expect? ':' c₈ >>= _) = _
  rw [h₈]
  show (number? 2 c₉ >>= _) = _
  rw [h₉]
  show (fraction? c₁₀ >>= _) = _
  rw [h₁₀]
  exact (dif_pos h).trans (congrArg some (ofLocal_zero _))

/-- After its year a moment goes through its text. -/
theorem afterYear?_text (m : Moment) :
    afterYear? m.date.year ('-' :: padded 2 m.date.month ++ '-' :: padded 2 m.date.day ++
      'T' :: padded 2 m.hour ++ ':' :: padded 2 m.minute ++ ':' :: padded 2 m.second ++
      fractionText m.nano ++ ['Z']) = some m := by
  have hdate := m.date.valid
  have hday : m.date.day ≤ 31 := by
    refine Nat.le_trans hdate.2.2.2 ?_
    unfold daysInMonth
    repeat' split
    all_goals omega
  have htime := m.valid
  have htwo : ∀ n rest, n < 100 → number? 2 (padded 2 n ++ rest) = some (n, rest) :=
    fun n rest h => number?_padded (by decide) h rest
  simp only [List.cons_append, List.append_assoc]
  exact afterYear?_of_parts (expect?_cons _ _) (htwo _ _ (by omega)) (expect?_cons _ _)
    (htwo _ _ (by omega)) (ofNumbers?_day _) (htwo _ _ (by omega)) (expect?_cons _ _)
    (htwo _ _ (by omega)) (expect?_cons _ _) (htwo _ _ (by omega))
    (fraction?_fractionText htime.2.2.2 []) htime

/-! ## Whole texts -/

theorem toList_text (m : Moment) :
    m.text.toList = yearText m.date.year ++ ('-' :: padded 2 m.date.month ++
      '-' :: padded 2 m.date.day ++ 'T' :: padded 2 m.hour ++ ':' :: padded 2 m.minute ++
      ':' :: padded 2 m.second ++ fractionText m.nano ++ ['Z']) := by
  simp [text]

theorem yearText_of_le {year : Int} (h : 0 ≤ year ∧ year ≤ 9999) :
    yearText year = padded 4 year.toNat := by
  simp [yearText, h]

/-- A moment of a year of four digits goes through its text. -/
theorem read?_text {m : Moment} (h : 0 ≤ m.date.year ∧ m.date.year ≤ 9999) :
    read? m.text = some m := by
  rw [read?, toList_text, yearText_of_le h, number?_padded (by decide) (by omega)]
  simp only [Option.bind_eq_bind, Option.bind_some]
  rw [Int.toNat_of_nonneg h.1]
  exact afterYear?_text m

theorem readSigned?_of_isDigit {s : String} {c : Char} (hs : s.toList = c :: cs)
    (hc : c.isDigit) : readSigned? s = read? s := by
  unfold readSigned?
  rw [hs]
  split
  · rename_i h
    injection h with h _
    subst h
    cases hc
  · rename_i h
    injection h with h _
    subst h
    cases hc
  · rfl

theorem signedYear?_padded (h : n < 1000000) (rest : List Char) :
    signedYear? (padded 4 n ++ '-' :: rest) = some (n, '-' :: rest) := by
  have hd : ∀ c ∈ padded 4 n, c.isDigit := fun _ hc => isDigit_of_mem_padded hc
  have hl : 4 ≤ (padded 4 n).length := by simp [padded]; omega
  have hu : (padded 4 n).length ≤ 6 := by
    have := (Nat.length_toDigits_le_iff (b := 10) (n := n) (k := 6) (by decide) (by decide)).2 h
    simp [padded]
    omega
  rw [signedYear?, takeWhile_digits hd (by decide), if_neg (by omega), number?_of_digits hd,
    ofDigitChars_padded]

/-- The year of a moment has at most six digits. -/
def Writable (m : Moment) : Prop := m.date.year.natAbs < 1000000

instance (m : Moment) : Decidable m.Writable := inferInstanceAs (Decidable (_ < _))

/-- A moment goes through its text, read with a sign where its year has one. -/
theorem readSigned?_text {m : Moment} (h : m.Writable) : readSigned? m.text = some m := by
  by_cases hy : 0 ≤ m.date.year ∧ m.date.year ≤ 9999
  · rw [← read?_text hy]
    have hl : (padded 4 m.date.year.toNat).length = 4 := length_padded (by decide) (by omega)
    obtain ⟨c, cs, hc⟩ := List.exists_cons_of_length_pos (hl ▸ (by decide : 0 < 4))
    refine readSigned?_of_isDigit (c := c) (by rw [toList_text, yearText_of_le hy, hc]; rfl) ?_
    exact isDigit_of_mem_padded (hc ▸ List.mem_cons_self)
  · have hrest := afterYear?_text m
    unfold readSigned?
    rw [toList_text]
    by_cases hneg : m.date.year < 0
    · simp only [yearText, hy, if_false, hneg, if_true, List.cons_append] at hrest ⊢
      rw [signedYear?_padded h]
      simp only [Option.bind_eq_bind, Option.bind_some]
      rwa [show (-(m.date.year.natAbs : Int)) = m.date.year by omega]
    · simp only [yearText, hy, if_false, hneg, List.cons_append] at hrest ⊢
      rw [signedYear?_padded h]
      simp only [Option.bind_eq_bind, Option.bind_some]
      rwa [show (m.date.year.natAbs : Int) = m.date.year by omega]

end SchemaKeeper.Moment
