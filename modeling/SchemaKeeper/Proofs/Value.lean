import SchemaKeeper.Proofs.Json
import SchemaKeeper.Record.Form
import SchemaKeeper.Value.Fits

/-!
# Values that are the same

Values that are the same are of one kind, are instances of the same types and are stored as
documents that are the same.
-/
namespace SchemaKeeper

theorem Double.isFinite_of_same {x y : Double} (h : x.same y = true) :
    x.isFinite = y.isFinite := by
  obtain ⟨-, -, rfl | ⟨hx, hy⟩⟩ := Double.same_iff.1 h
  · rfl
  · simp only [Double.isZero, Bool.and_eq_true, beq_iff_eq] at hx hy
    simp [Double.isFinite, hx.1, hy.1]

namespace Value

theorem itemsStorable_eq (vs : List Value) : itemsStorable vs = vs.all isStorable := by
  induction vs with
  | nil => rfl
  | cons v vs ih => rw [itemsStorable, ih, List.all_cons]

theorem entriesStorable_eq (es : List (String × Value)) :
    entriesStorable es = es.all fun e => e.2.isStorable := by
  induction es with
  | nil => rfl
  | cons e es ih => rw [entriesStorable, ih, List.all_cons]

mutual

theorem isStorable_of_same : ∀ {a b : Value}, a.same b = true → a.isStorable = b.isStorable
  | .null, .null, _ => rfl
  | .bool _, .bool _, _ => rfl
  | .int _, .int _, _ => rfl
  | .float _, .float _, h => Double.isFinite_of_same h
  | .string _, .string _, _ => rfl
  | .datetime _, .datetime _, _ => rfl
  | .list _, .list _, h => itemsStorable_of_same h
  | .tuple _, .tuple _, h => itemsStorable_of_same h
  | .dict _, .dict _, h => entriesStorable_of_same h
  | .document _ _ _, .document _ _ _, h => entriesStorable_of_same (Bool.and_eq_true_iff.1 h).2

theorem itemsStorable_of_same : ∀ {as bs : List Value},
    sameItems as bs = true → itemsStorable as = itemsStorable bs
  | [], [], _ => rfl
  | _ :: _, _ :: _, h => by
    obtain ⟨h1, h2⟩ := Bool.and_eq_true_iff.1 h
    rw [itemsStorable, itemsStorable, isStorable_of_same h1, itemsStorable_of_same h2]

theorem entriesStorable_of_same : ∀ {as bs : List (String × Value)},
    sameEntries as bs = true → entriesStorable as = entriesStorable bs
  | [], [], _ => rfl
  | (_, _) :: _, (_, _) :: _, h => by
    obtain ⟨h1, h2⟩ := Bool.and_eq_true_iff.1 h
    rw [entriesStorable, entriesStorable, isStorable_of_same (Bool.and_eq_true_iff.1 h1).2,
      entriesStorable_of_same h2]

end

mutual

/-- Only a number that is not finite can differ from itself. -/
theorem same_self : ∀ {v : Value}, v.isStorable = true → v.same v = true
  | .null, _ => rfl
  | .bool _, _ => by simp [same]
  | .int _, _ => by simp [same]
  | .float _, h => Double.same_self_of_isFinite h
  | .string _, _ => by simp [same]
  | .datetime _, _ => by simp [same]
  | .list _, h => sameItems_self h
  | .tuple _, h => sameItems_self h
  | .dict _, h => sameEntries_self h
  | .document _ _ _, h => by simp [same, sameEntries_self h]

theorem sameItems_self : ∀ {vs : List Value}, itemsStorable vs = true → sameItems vs vs = true
  | [], _ => rfl
  | _ :: _, h => by
    obtain ⟨h1, h2⟩ := Bool.and_eq_true_iff.1 h
    exact Bool.and_eq_true_iff.2 ⟨same_self h1, sameItems_self h2⟩

theorem sameEntries_self : ∀ {es : List (String × Value)},
    entriesStorable es = true → sameEntries es es = true
  | [], _ => rfl
  | (_, _) :: _, h => by
    obtain ⟨h1, h2⟩ := Bool.and_eq_true_iff.1 h
    simp [sameEntries, same_self h1, sameEntries_self h2]

end

theorem fitsScalar_of_same (k : Scalar) {a b : Value} (h : a.same b = true) :
    a.fitsScalar k = b.fitsScalar k := by
  cases k with
  | any => exact isStorable_of_same h
  | _ => cases a <;> cases b <;> first | rfl | cases h

theorem isNull_of_same {a b : Value} (h : a.same b = true) : a.isNull = b.isNull := by
  cases a <;> cases b <;> first | rfl | cases h

theorem isWild_of_same {a b : Value} (h : a.same b = true) : a.isWild = b.isWild := by
  cases a <;> cases b <;> first | rfl | cases h | exact congrArg not (Double.isFinite_of_same h)

theorem className?_of_same : ∀ {a b : Value}, a.same b = true → a.className? = b.className?
  | .document _ _ _, .document _ _ _, h => by
    simp only [same, Bool.and_eq_true, beq_iff_eq] at h
    rw [className?, className?, h.1.2]
  | .null, .null, _ => rfl
  | .bool _, .bool _, _ => rfl
  | .int _, .int _, _ => rfl
  | .float _, .float _, _ => rfl
  | .string _, .string _, _ => rfl
  | .datetime _, .datetime _, _ => rfl
  | .list _, .list _, _ => rfl
  | .tuple _, .tuple _, _ => rfl
  | .dict _, .dict _, _ => rfl

theorem all_of_sameItems {p : Value → Bool} (hp : ∀ {a b : Value}, a.same b = true → p a = p b) :
    ∀ {as bs : List Value}, sameItems as bs = true → as.all p = bs.all p
  | [], [], _ => rfl
  | _ :: _, _ :: _, h => by
    obtain ⟨h1, h2⟩ := Bool.and_eq_true_iff.1 h
    rw [List.all_cons, List.all_cons, hp h1, all_of_sameItems hp h2]

theorem all_of_sameEntries {p : Value → Bool}
    (hp : ∀ {a b : Value}, a.same b = true → p a = p b) :
    ∀ {as bs : List (String × Value)}, sameEntries as bs = true →
      (as.all fun e => p e.2) = bs.all fun e => p e.2
  | [], [], _ => rfl
  | (_, _) :: _, (_, _) :: _, h => by
    obtain ⟨h1, h2⟩ := Bool.and_eq_true_iff.1 h
    rw [List.all_cons, List.all_cons, hp (Bool.and_eq_true_iff.1 h1).2, all_of_sameEntries hp h2]

mutual

/-- Values that are the same are instances of the same types. -/
theorem fits_of_same : ∀ (t : FieldType) {a b : Value}, a.same b = true → a.fits t = b.fits t
  | .scalar k, a, b, h => by
    rw [fits, fits, isNull_of_same h, isWild_of_same h, fitsScalar_of_same k h]
  | .list t, a, b, h => by
    cases a <;> cases b <;> first | rfl | cases h | skip
    exact all_of_sameItems (fits_of_same t) h
  | .dict t, a, b, h => by
    cases a <;> cases b <;> first | rfl | cases h | skip
    exact all_of_sameEntries (fits_of_same t) h
  | .tuple ts, a, b, h => by
    cases a <;> cases b <;> first | rfl | cases h | exact fitsEach_of_same ts h
  | .document c, a, b, h => by
    rw [fits, fits, className?_of_same h, isStorable_of_same h]

theorem fitsEach_of_same : ∀ (ts : List FieldType) {as bs : List Value},
    sameItems as bs = true → fitsEach ts as = fitsEach ts bs
  | [], [], [], _ => rfl
  | [], _ :: _, _ :: _, _ => rfl
  | _ :: _, [], [], _ => rfl
  | t :: ts, _ :: _, _ :: _, h => by
    obtain ⟨h1, h2⟩ := Bool.and_eq_true_iff.1 h
    rw [fitsEach, fitsEach, fits_of_same t h1, fitsEach_of_same ts h2]

end

mutual

/-- An instance of a type holds no number that a document cannot. -/
theorem isStorable_of_fits : ∀ {t : FieldType} {v : Value}, v.fits t = true → v.isStorable = true
  | .scalar k, v, h => by
    simp only [fits, Bool.and_eq_true, Bool.not_eq_true'] at h
    obtain ⟨⟨-, hw⟩, hk⟩ := h
    cases v with
    | float x => simpa [isWild, isStorable] using hw
    | list items => cases k <;> first | exact hk | cases hk
    | dict entries => cases k <;> first | exact hk | cases hk
    | tuple items => cases k <;> first | exact hk | cases hk
    | document id className fields => cases k <;> first | exact hk | cases hk
    | _ => rfl
  | .list t, v, h => by
    cases v with
    | list items =>
      have hf := List.all_eq_true.1 h
      rw [isStorable, itemsStorable_eq]
      exact List.all_eq_true.2 fun v hv => isStorable_of_fits (hf v hv)
    | _ => cases h
  | .dict t, v, h => by
    cases v with
    | dict entries =>
      have hf := List.all_eq_true.1 h
      rw [isStorable, entriesStorable_eq]
      exact List.all_eq_true.2 fun e he => isStorable_of_fits (hf e he)
    | _ => cases h
  | .tuple ts, v, h => by
    cases v with
    | list items => exact itemsStorable_of_fitsEach h
    | tuple items => exact itemsStorable_of_fitsEach h
    | _ => cases h
  | .document c, v, h => (Bool.and_eq_true_iff.1 h).2

theorem itemsStorable_of_fitsEach : ∀ {ts : List FieldType} {vs : List Value},
    fitsEach ts vs = true → itemsStorable vs = true
  | [], [], _ => rfl
  | _ :: _, _ :: _, h => by
    obtain ⟨h1, h2⟩ := Bool.and_eq_true_iff.1 h
    exact Bool.and_eq_true_iff.2 ⟨isStorable_of_fits h1, itemsStorable_of_fitsEach h2⟩

end

mutual

/-- Values that are the same are stored as documents that are the same. -/
theorem stored_of_same : ∀ {a b : Value}, a.same b = true → a.stored.same b.stored = true
  | .null, .null, _ => rfl
  | .bool _, .bool _, h => h
  | .int a, .int b, h => by
    simp only [same, beq_iff_eq] at h
    rw [h, stored]
    exact beq_self_eq_true _
  | .float a, .float b, h => by
    rw [stored, stored, Double.isFinite_of_same h]
    split
    · exact h
    · rfl
  | .string _, .string _, h => h
  | .datetime a, .datetime b, h => by
    simp only [same, decide_eq_true_eq] at h
    simp [h, stored, Json.same, Json.sameMembers]
  | .list _, .list _, h => storedItems_of_same h
  | .tuple _, .tuple _, h => storedItems_of_same h
  | .dict _, .dict _, h => storedEntries_of_same h
  | .document _ _ _, .document _ _ _, h => by
    simp only [same, Bool.and_eq_true, decide_eq_true_eq] at h
    simp [h.1.1, stored, Json.same, Json.sameMembers]

theorem storedItems_of_same : ∀ {as bs : List Value},
    sameItems as bs = true → Json.sameItems (storedItems as) (storedItems bs) = true
  | [], [], _ => rfl
  | _ :: _, _ :: _, h => by
    obtain ⟨h1, h2⟩ := Bool.and_eq_true_iff.1 h
    exact Bool.and_eq_true_iff.2 ⟨stored_of_same h1, storedItems_of_same h2⟩

theorem storedEntries_of_same : ∀ {as bs : List (String × Value)},
    sameEntries as bs = true → Json.sameMembers (storedEntries as) (storedEntries bs) = true
  | [], [], _ => rfl
  | (_, _) :: _, (_, _) :: _, h => by
    simp only [sameEntries, storedEntries, Json.sameMembers, Bool.and_eq_true] at h ⊢
    exact ⟨⟨h.1.1, stored_of_same h.1.2⟩, storedEntries_of_same h.2⟩

end

theorem storedDocument_of_same (id : Uuid) {as bs : List (String × Value)}
    (h : sameEntries as bs = true) :
    (storedDocument id as).same (storedDocument id bs) = true := by
  refine Json.ofMembers_same ?_
  simp [Json.sameMembers, Json.same, storedEntries_of_same h]

end Value
end SchemaKeeper
