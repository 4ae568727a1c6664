import SchemaKeeper.Proofs.Moment
import SchemaKeeper.Proofs.Record.Canonical
import SchemaKeeper.Proofs.Value

/-!
# Reading where no type is declared

A value that is canonical under `any` is read back from each document that is the same as its
stored form.
-/
namespace SchemaKeeper.Record

open Value

variable {s : Schema} {path : String}

@[simp] theorem wordOf?_toInt (n : Int64) : wordOf? n.toInt = some n := by
  rw [wordOf?, if_pos ⟨n.minValue_le_toInt, n.toInt_le⟩, Int64.ofInt_toInt]

/-- A moment is read back from its stored date. -/
theorem dateOf?_stored {m : Moment} (h : 0 ≤ m.date.year ∧ m.date.year ≤ 9999) :
    dateOf? (Value.datetime m).stored = some m := by
  simp only [stored, dateOf?, Json.wrapped?, if_true, Option.bind_eq_bind, Option.bind_some,
    Moment.read?_text h]

theorem eq_string_of_stored {v : Value} {text : String}
    (h : (Json.string text).same v.stored = true) : v = .string text := by
  cases v with
  | string t =>
    rw [stored, Json.same, beq_iff_eq] at h
    rw [h]
  | float x =>
    rw [stored] at h
    split at h <;> cases h
  | _ => cases h

/-- A dict whose entries are no date is not taken for one. -/
theorem dateOf?_eq_none {entries : List (String × Value)} {members : List (String × Json)}
    (hd : isDate entries = false) (hj : Json.sameMembers members (storedEntries entries) = true) :
    dateOf? (.object members) = none := by
  cases hw : (Json.object members).wrapped? "$date" with
  | none => rw [dateOf?, hw, Option.bind_eq_bind, Option.bind_none]
  | some text =>
    -- The only member is a text, so the only entry is this text.
    have hmembers : members = [("$date", .string text)] := by
      unfold Json.wrapped? at hw
      split at hw
      · rename_i k t h
        injection h with h
        split at hw
        · rename_i hk
          injection hw with hw
          rw [h, hk, hw]
        · cases hw
      · cases hw
    subst hmembers
    rcases entries with - | ⟨⟨k, v⟩, - | ⟨e, rest⟩⟩
    · cases hj
    · simp only [storedEntries, Json.sameMembers, Bool.and_eq_true, beq_iff_eq, and_true] at hj
      obtain ⟨hk, hv⟩ := hj
      have hv := eq_string_of_stored hv
      subst hk hv
      simp only [isDate, BEq.rfl, Bool.true_and, Option.isSome_eq_false_iff,
        Option.isNone_iff_eq_none] at hd
      rw [dateOf?, hw, Option.bind_eq_bind, Option.bind_some, hd]
    · simp [storedEntries, Json.sameMembers] at hj

mutual

/-- A value is read back from what is the same as its stored form. -/
theorem readAny_same : ∀ {v : Value} {j : Json}, v.isStorable = true →
    isCanonical s path (.scalar .any) v = true → j.same v.stored = true →
      (readAny j).same v = true
  | .null, j, _, _, hj => by
    have hj : j = .null := Json.eq_of_same (b := .null) trivial hj
    subst hj
    rfl
  | .bool b, j, _, _, hj => by
    have hj : j = .bool b := Json.eq_of_same (b := .bool b) trivial hj
    subst hj
    simp [readAny, same]
  | .int n, j, _, _, hj => by
    have hj : j = .int n.toInt := Json.eq_of_same (b := .int n.toInt) trivial hj
    subst hj
    simp [readAny, numberOf, same]
  | .float x, j, hv, _, hj => by
    have hx : x.isFinite = true := hv
    rw [stored, if_pos hx] at hj
    obtain ⟨y, rfl, hy⟩ := Json.exists_float_of_same hj
    exact hy
  | .string t, j, _, _, hj => by
    have hj : j = .string t := Json.eq_of_same (b := .string t) trivial hj
    subst hj
    simp [readAny, same]
  | .datetime m, j, _, hc, hj => by
    have hj : j = (Value.datetime m).stored :=
      Json.eq_of_same (b := (Value.datetime m).stored) ⟨trivial, trivial⟩ hj
    have hd := dateOf?_stored (of_decide_eq_true hc)
    rw [stored] at hd hj
    rw [hj, readAny, hd]
    exact decide_eq_true rfl
  | .list items, j, hv, hc, hj => by
    obtain ⟨js, rfl, hjs⟩ := Json.exists_array_of_same hj
    exact readAnyItems_same hv hc hjs
  | .dict entries, j, hv, hc, hj => by
    obtain ⟨js, rfl, hjs⟩ := Json.exists_object_of_same hj
    simp only [isCanonical, Bool.and_eq_true, Bool.not_eq_true'] at hc
    rw [readAny, dateOf?_eq_none hc.1 hjs]
    exact readAnyMembers_same hv hc.2 hjs

theorem readAnyItems_same : ∀ {vs : List Value} {js : List Json}, itemsStorable vs = true →
    itemsCanonical s path (.scalar .any) vs = true → Json.sameItems js (storedItems vs) = true →
      sameItems (readAnyItems js) vs = true
  | [], [], _, _, _ => rfl
  | _ :: _, _ :: _, hv, hc, hj => by
    obtain ⟨hv1, hv2⟩ := Bool.and_eq_true_iff.1 hv
    obtain ⟨hc1, hc2⟩ := Bool.and_eq_true_iff.1 hc
    obtain ⟨hj1, hj2⟩ := Bool.and_eq_true_iff.1 hj
    exact Bool.and_eq_true_iff.2 ⟨readAny_same hv1 hc1 hj1, readAnyItems_same hv2 hc2 hj2⟩

theorem readAnyMembers_same : ∀ {es : List (String × Value)} {js : List (String × Json)},
    entriesStorable es = true → entriesCanonical s path (.scalar .any) es = true →
      Json.sameMembers js (storedEntries es) = true → sameEntries (readAnyMembers js) es = true
  | [], [], _, _, _ => rfl
  | (_, _) :: _, (_, _) :: _, hv, hc, hj => by
    obtain ⟨hv1, hv2⟩ := Bool.and_eq_true_iff.1 hv
    obtain ⟨hc1, hc2⟩ := Bool.and_eq_true_iff.1 hc
    simp only [storedEntries, Json.sameMembers, Bool.and_eq_true] at hj
    simp only [readAnyMembers, sameEntries, Bool.and_eq_true]
    exact ⟨⟨hj.1.1, readAny_same hv1 hc1 hj.1.2⟩, readAnyMembers_same hv2 hc2 hj.2⟩

end

end SchemaKeeper.Record
