import Mathlib.Algebra.Group.Int.Defs
import SchemaKeeper.Proofs.Record.Read
import SchemaKeeper.Proofs.Validator.Accept

/-!
# Reading what a rule lets through

The rule of a type and the reader at this type go through a stored value separately.  Where the type
has no documents the two agree on all but integers: the rule takes an integer of any size for one
that is declared, and the reader only a signed word of 64 bits.
-/
namespace SchemaKeeper

namespace Json
variable {κ : Type}

mutual

/-- Every integer that stands where one is declared is a signed word of 64 bits. -/
def inWords : Shape κ → Json → Bool
  | .scalar .int, .int n => decide (-2 ^ 63 ≤ n ∧ n < 2 ^ 63)
  | .list t, .array js => js.all fun j => inWords t j
  | .dict t, .object ms => ms.all fun m => inWords t m.2
  | .tuple ts, .array js => eachInWords ts js
  | _, _ => true

/-- The same for items at the types of their positions. -/
def eachInWords : List (Shape κ) → List Json → Bool
  | t :: ts, j :: js => inWords t j && eachInWords ts js
  | _, _ => true

end

end Json

/-! ## Outcomes that are known -/

/-- The outcome is a value if the condition holds and the refusal if it does not. -/
def Decides {ε α : Type} (e : ε) (holds : Bool) (r : Except ε α) : Prop :=
  if holds then ∃ a, r = .ok a else r = .error e

namespace Decides
variable {ε α β γ : Type} {e : ε} {p q : Bool} {x : Except ε α} {y : Except ε β}

theorem of_ok {a : α} (h : x = .ok a) : Decides e true x := ⟨a, h⟩

theorem map (h : Decides e p x) (f : α → β) : Decides e p (x.map f) := by
  cases p with
  | true =>
    obtain ⟨a, rfl⟩ := h
    exact ⟨f a, rfl⟩
  | false =>
    obtain rfl : x = .error e := h
    rfl

/-- Of two steps that are refused alike it does not matter which one is. -/
theorem both (hx : Decides e p x) (hy : Decides e q y) (f : α → β → γ) :
    Decides e (p && q) (x >>= fun a => y >>= fun b => pure (f a b)) := by
  cases p with
  | true =>
    obtain ⟨a, rfl⟩ := hx
    exact hy.map (f a)
  | false =>
    obtain rfl : x = .error e := hx
    rfl

end Decides

namespace Record
variable {e : Refusal}

theorem readItems_decides {ask : Json → Except Refusal Value} {p : Json → Bool} :
    ∀ {js : List Json}, (∀ j ∈ js, Decides e (p j) (ask j)) →
      Decides e (js.all p) (readItems ask js)
  | [], _ => .of_ok rfl
  | j :: js, h => by
    obtain ⟨hj, hjs⟩ := List.forall_mem_cons.1 h
    exact hj.both (readItems_decides hjs) List.cons

theorem readMembers_decides {ask : Json → Except Refusal Value} {p : Json → Bool} :
    ∀ {ms : List (String × Json)}, (∀ m ∈ ms, Decides e (p m.2) (ask m.2)) →
      Decides e (ms.all fun m => p m.2) (readMembers ask ms)
  | [], _ => .of_ok rfl
  | (k, j) :: ms, h => by
    obtain ⟨hj, hms⟩ := List.forall_mem_cons.1 h
    exact hj.both (readMembers_decides hms) fun v vs => (k, v) :: vs

/-! ## The reader on what suits a type -/

theorem wordOf?_of_lt {n : Int} (h : -2 ^ 63 ≤ n ∧ n < 2 ^ 63) : wordOf? n = some (.ofInt n) :=
  if_pos ⟨h.1, Int.le_of_lt_add_one h.2⟩

theorem wordOf?_eq_none {n : Int} (h : ¬ (-2 ^ 63 ≤ n ∧ n < 2 ^ 63)) : wordOf? n = none :=
  if_neg fun hn => h ⟨hn.1, Int.lt_add_one_of_le hn.2⟩

/-- An integer is read where one is declared if it is a word. -/
theorem readAs_int_decides (f : DocClass → String → Except Refusal Value) (path : String) {j : Json}
    (hj : j.suits (.scalar .int) = true) :
    Decides (.mismatch path "int" "number") (j.inWords (.scalar .int : FieldType))
      (readAs f path (.scalar .int) j) := by
  cases j with
  | int n =>
    simp only [Json.inWords, readAs, readScalar?]
    by_cases hn : -2 ^ 63 ≤ n ∧ n < 2 ^ 63
    · rw [decide_eq_true hn, wordOf?_of_lt hn]
      exact .of_ok rfl
    · rw [decide_eq_false hn, wordOf?_eq_none hn]
      rfl
  | _ => cases hj

/-- A rule and the reader take the same for a date. -/
theorem isDate_eq (j : Json) : Rule.isDate j = (dateOf? j).isSome := by
  rw [Rule.isDate, dateOf?]
  cases j.wrapped? "$date" <;> rfl

/-- Of the other kinds of scalars all that suits is read. -/
theorem exists_readScalar? {k : Scalar} {j : Json} (hk : k ≠ .int)
    (hj : j.suits (.scalar k) = true) : ∃ v, readScalar? k j = some v := by
  cases k with
  | any => exact ⟨_, rfl⟩
  | int => exact absurd rfl hk
  | datetime =>
    rw [Json.suits, isDate_eq] at hj
    obtain ⟨m, hm⟩ := Option.isSome_iff_exists.1 hj
    exact ⟨.datetime m, by rw [readScalar?, hm, Option.map_some]⟩
  | bool | float | string =>
    cases j <;> first
      | exact ⟨_, rfl⟩
      | cases hj

theorem readAs_scalar_decides (f : DocClass → String → Except Refusal Value) (path : String)
    (k : Scalar) {j : Json} (hj : j.suits (.scalar k) = true) :
    Decides (.mismatch path "int" "number") (j.inWords (.scalar k : FieldType))
      (readAs f path (.scalar k) j) := by
  by_cases hint : k = .int
  · subst hint
    exact readAs_int_decides f path hj
  · have hwords : j.inWords (.scalar k : FieldType) = true := by
      cases k with
      | int => exact absurd rfl hint
      | _ => cases j <;> rfl
    rw [hwords]
    obtain ⟨v, hv⟩ := exists_readScalar? hint hj
    by_cases hany : k = .any
    · subst hany
      exact .of_ok (readAs_any f path j)
    · exact .of_ok (readAs_of_readScalar? f path hany hv)

mutual

/-- What suits a type without documents is read if the integers in it are words, and else refused
at the first that is none. -/
theorem readAs_decides (f : DocClass → String → Except Refusal Value) (path : String) :
    ∀ (t : FieldType) {j : Json}, t.leaves = [] → j.suits t.descriptor = true →
      Decides (.mismatch path "int" "number") (j.inWords t) (readAs f path t j)
  | .scalar k, j, _, hj => readAs_scalar_decides f path k hj
  | .list t, j, ht, hj => by
    cases j with
    | array js =>
      have hjs := List.all_eq_true.1 hj
      exact (readItems_decides fun j hin => readAs_decides f path t ht (hjs j hin)).map Value.list
    | _ => cases hj
  | .dict t, j, ht, hj => by
    cases j with
    | object ms =>
      have hms := List.all_eq_true.1 hj
      exact (readMembers_decides fun m hin => readAs_decides f path t ht (hms m hin)).map Value.dict
    | _ => cases hj
  | .tuple ts, j, ht, hj => by
    cases j with
    | array js =>
      have hlength : js.length = ts.length := by
        rw [Json.length_of_suitsEach hj, Shape.mapAll_eq_map, List.length_map]
      rw [readAs, if_pos hlength]
      exact (readEach_decides f path ts ht hj).map Value.tuple
    | _ => cases hj
  | .document c, _, ht, _ => by cases ht

theorem readEach_decides (f : DocClass → String → Except Refusal Value) (path : String) :
    ∀ (ts : List FieldType) {js : List Json}, Shape.leavesAll ts = [] →
      Json.suitsEach (Shape.mapAll DocClass.name ts) js = true →
        Decides (.mismatch path "int" "number") (Json.eachInWords ts js) (readEach f path ts js)
  | [], [], _, _ => .of_ok rfl
  | t :: ts, j :: js, ht, hj => by
    obtain ⟨ht1, ht2⟩ := List.append_eq_nil_iff.1 ht
    obtain ⟨hj1, hj2⟩ := Bool.and_eq_true_iff.1 hj
    exact (readAs_decides f path t ht1 hj1).both (readEach_decides f path ts ht2 hj2) List.cons

end

/-- What the rule of a type without documents lets through, the reader reads at this type, except
for integers: where one is declared and an integer stands that is no signed word of 64 bits, at
whatever depth, the rule lets it through and the reader refuses the value. -/
theorem readAs_accepted {t : FieldType} (ht : t.leaves = []) (field : String) {j : Json}
    (hj : Rule.check field (.ofDescriptor t.descriptor) j = .ok ())
    (f : DocClass → String → Except Refusal Value) (path : String) :
    (j.inWords t = true → ∃ v, readAs f path t j = .ok v) ∧
      (j.inWords t = false → readAs f path t j = .error (.mismatch path "int" "number")) := by
  have hdecides := readAs_decides f path t ht ((Rule.check_ok_iff t.descriptor field).1 hj)
  refine ⟨fun hwords => ?_, fun hwords => ?_⟩ <;> rw [hwords] at hdecides
  · exact hdecides
  · exact hdecides

section Sample

/-- Pairs of an integer and a date, by name. -/
def samplePairs : FieldType := .dict (.tuple [.scalar .int, .scalar .datetime])

/-- Of two stored pairs the second has the given integer. -/
def sampleStored (n : Int) : Json :=
  .object [("a", .array [.int 1, .object [("$date", .string "2020-01-01T00:00:00Z")]]),
    ("b", .array [.int n, .object [("$date", .string "2020-01-01T00:00:00Z")]])]

/-- The largest signed word is read and the next integer is refused. -/
theorem readAs_accepted_sample :
    (∃ v, readAs (fun _ _ => .ok .null) "pairs" samplePairs (sampleStored (2 ^ 63 - 1)) = .ok v) ∧
      readAs (fun _ _ => .ok .null) "pairs" samplePairs (sampleStored (2 ^ 63)) =
        .error (.mismatch "pairs" "int" "number") :=
  ⟨(readAs_accepted (t := samplePairs) rfl "pairs" (by decide) _ "pairs").1 (by decide),
    (readAs_accepted (t := samplePairs) rfl "pairs" (by decide) _ "pairs").2
      (by decide)⟩

/-- The rule of integers lets the integer after the largest word through, and nothing reads it where
an integer is declared. -/
theorem accepted_not_read : Rule.check "x" (.ofDescriptor (.scalar .int)) (.int (2 ^ 63)) = .ok () ∧
    ∀ f, readAs f "x" (.scalar .int) (.int (2 ^ 63)) = .error (.mismatch "x" "int" "number") :=
  ⟨rfl, fun _ => rfl⟩

end Sample

end Record
end SchemaKeeper
