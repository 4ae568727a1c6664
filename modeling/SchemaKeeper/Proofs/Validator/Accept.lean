import SchemaKeeper.Proofs.Json
import SchemaKeeper.Proofs.Outcome
import SchemaKeeper.Validator.Check

/-!
# What rules let through

A stored value suits a type if it is of the storage form that the type asks for, part by part.
The rule of a type complains about nothing exactly in the values that suit it, and the rule of a
collection exactly in the objects of which every member suits its property; beside these only
`_id` may stand there.
-/
namespace SchemaKeeper

namespace Json

mutual

/-- The stored value is of the form that a type asks for. -/
def suits : Descriptor → Json → Bool
  | .scalar .any, _ => true
  | .scalar .bool, j => Rule.isTruth j
  | .scalar .int, j => Rule.isInteger j
  | .scalar .float, j => Rule.isNumber j
  | .scalar .string, j => Rule.isText j
  | .scalar .datetime, j => Rule.isDate j
  | .list t, .array js => js.all fun j => suits t j
  | .list _, _ => false
  | .dict t, .object ms => ms.all fun m => suits t m.2
  | .dict _, _ => false
  | .tuple ts, .array js => suitsEach ts js
  | .tuple _, _ => false
  | .document _, j => (j.wrapped? "$oid").isSome

/-- As many stored values as types, each of its own form. -/
def suitsEach : List Descriptor → List Json → Bool
  | [], [] => true
  | t :: ts, j :: js => suits t j && suitsEach ts js
  | _, _ => false

end

theorem length_of_suitsEach : ∀ {ts : List Descriptor} {js : List Json},
    suitsEach ts js = true → js.length = ts.length
  | [], [], _ => rfl
  | _ :: _, _ :: _, h => congrArg (· + 1) (length_of_suitsEach (Bool.and_eq_true_iff.1 h).2)

/-- A wrapped text stands alone in its object. -/
theorem wrapped?_eq_some {name s : String} {j : Json} :
    j.wrapped? name = some s ↔ j = .object [(name, .string s)] := by
  unfold wrapped?
  split
  · rename_i k t
    split <;> simp_all
  · rename_i h
    simp only [reduceCtorEq, false_iff]
    rintro rfl
    exact h name s rfl

end Json

namespace Rule
open Json
variable {path : String}

theorem checkScalar_ok_iff {type : StorageType} {j : Json} {holds : Bool} :
    checkScalar path type j holds = .ok () ↔ holds = true := by
  cases holds <;> simp [checkScalar, mismatch]

theorem overMembers_ok_iff {ask : String → Json → Except Complaint Unit} {p : Json → Bool}
    (h : ∀ name j, ask name j = .ok () ↔ p j = true) (ms : List (String × Json)) :
    overMembers ask ms = .ok () ↔ (ms.all fun m => p m.2) = true := by
  induction ms with
  | nil => simp [overMembers]
  | cons m ms ih =>
    rw [overMembers, List.all_cons, Bool.and_eq_true, ← h m.1 m.2, ← ih]
    cases ask m.1 m.2 <;> simp

theorem overItems_ok_iff {ask : Nat → Json → Except Complaint Unit} {p : Json → Bool}
    (h : ∀ i j, ask i j = .ok () ↔ p j = true) :
    ∀ (i : Nat) (js : List Json), overItems ask i js = .ok () ↔ js.all p = true
  | _, [] => by simp [overItems]
  | i, j :: js => by
    rw [overItems, List.all_cons, Bool.and_eq_true, ← h i j, ← overItems_ok_iff h (i + 1) js]
    cases ask i j <;> simp

theorem checkLength_ok_iff {n m : Nat} : checkLength path (some n) (some n) m = .ok () ↔ m = n := by
  rcases Nat.lt_trichotomy m n with h | rfl | h
  · simp [checkLength, h, Nat.ne_of_lt h]
  · simp [checkLength]
  · simp [checkLength, h, Nat.not_lt.2 (Nat.le_of_lt h), Nat.ne_of_gt h]

/-- The storage type that the rule of a kind of scalar asks for. -/
theorem check_ofScalar_ok_iff (k : Scalar) (j : Json) :
    check path (ofScalar k) j = .ok () ↔ j.suits (.scalar k) = true := by
  cases k with
  | any => exact iff_of_true rfl rfl
  | _ =>
    cases j with
    | null => exact iff_of_false nofun nofun
    | _ => exact checkScalar_ok_iff

mutual

/-- The rule of a type lets through what suits the type. -/
theorem check_ok_iff : ∀ (t : Descriptor) (path : String) {j : Json},
    check path (ofDescriptor t) j = .ok () ↔ j.suits t = true
  | .scalar k, path, j => by rw [ofDescriptor, check_ofScalar_ok_iff]
  | .list t, path, j => by
    cases j with
    | array js =>
      simp only [ofDescriptor, any, check, checkLength, suits]
      exact overItems_ok_iff (fun i j => check_ok_iff t (itemPath path i) (j := j)) 0 js
    | _ => simp [ofDescriptor, any, check, mismatch, suits]
  | .dict t, path, j => by
    cases j with
    | object ms =>
      simp only [ofDescriptor, any, check, suits]
      exact overMembers_ok_iff (fun name j => check_ok_iff t (memberPath path name) (j := j)) ms
    | _ => simp [ofDescriptor, any, check, mismatch, suits]
  | .tuple ts, path, j => by
    cases j with
    | array js =>
      simp only [ofDescriptor, any, check, suits]
      by_cases hlength : js.length = ts.length
      · rw [checkLength_ok_iff.2 hlength]
        exact checkEach_ok_iff ts path 0 hlength
      · have hshort : ¬ checkLength path (some ts.length) (some ts.length) js.length = .ok () :=
          fun h => hlength (checkLength_ok_iff.1 h)
        cases hcheck : checkLength path (some ts.length) (some ts.length) js.length with
        | ok u => exact absurd hcheck hshort
        | error c =>
          simp only [reduceCtorEq, false_iff]
          exact fun h => hlength (length_of_suitsEach h)
    | _ => simp [ofDescriptor, any, check, mismatch, suits]
  | .document c, path, j => by
    cases j with
    | null => exact iff_of_false nofun nofun
    | _ => exact checkScalar_ok_iff

theorem checkEach_ok_iff : ∀ (ts : List Descriptor) (path : String) (i : Nat) {js : List Json},
    js.length = ts.length →
      (checkEach path i (ofDescriptors ts) js = .ok () ↔ suitsEach ts js = true)
  | [], _, _, [], _ => by simp [ofDescriptors, checkEach, suitsEach]
  | t :: ts, path, i, j :: js, h => by
    rw [ofDescriptors, checkEach, suitsEach, Bool.and_eq_true, ← check_ok_iff t (itemPath path i),
      ← checkEach_ok_iff ts path (i + 1) (Nat.succ.inj h)]
    cases check (itemPath path i) (ofDescriptor t) j <;> simp

end

/-! ## Whole documents -/

theorem checkClosed_ok_iff {title : Option String} {properties : List (String × Rule)}
    (ht : title.isSome = true) (ms : List (String × Json)) :
    checkClosed path title properties ms = .ok () ↔
      ∀ m ∈ ms, m.1 = "_id" ∨ (Entries.get? properties m.1).isSome = true := by
  induction ms with
  | nil => simp [checkClosed]
  | cons m ms ih =>
    rw [checkClosed, List.forall_mem_cons, ← ih, ht]
    by_cases hid : m.1 = "_id"
    · simp [hid]
    · cases h : Entries.get? properties m.1 <;> simp [hid]

theorem checkProperties_ok_iff {ms : List (String × Json)} :
    ∀ properties : List (String × Rule), checkProperties path properties ms = .ok () ↔
      ∀ e ∈ properties, ∀ j, Entries.get? ms e.1 = some j →
        check (memberPath path e.1) e.2 j = .ok ()
  | [] => by simp [checkProperties]
  | (name, r) :: rest => by
    rw [checkProperties, List.forall_mem_cons, ← checkProperties_ok_iff rest]
    cases h : Entries.get? ms name with
    | none => simp
    | some j => cases hc : check (memberPath path name) r j <;> simp [hc]

/-- The rule of a collection lets through the objects of which each member beside `_id` has a
property, and each member with a property suits it. -/
theorem checkDocument_ok_iff {name : String} {properties : List (String × Rule)}
    {ms : List (String × Json)} (hp : Entries.Ordered properties) (hm : Entries.Ordered ms)
    {types : String → Option Descriptor}
    (htypes : ∀ key, Entries.get? properties key = (types key).map ofDescriptor) :
    checkDocument { collection name with properties := properties } (.object ms) = .ok () ↔
      ∀ key j, Entries.get? ms key = some j →
        match types key with
        | some t => j.suits t = true
        | none => key = "_id" := by
  have hsplit : checkDocument { collection name with properties := properties } (.object ms) =
      .ok () ↔ checkClosed "$root" (some name) properties ms = .ok () ∧
        checkProperties "$root" properties ms = .ok () := by
    simp only [checkDocument, collection, any, check]
    cases checkClosed "$root" (some name) properties ms <;> simp
  rw [hsplit, checkClosed_ok_iff rfl, checkProperties_ok_iff]
  constructor
  · rintro ⟨hclosed, hproperties⟩ key j hj
    have hkey := htypes key
    cases ht : types key with
    | none =>
      rw [ht, Option.map_none] at hkey
      have hone := hclosed (key, j) (Entries.mem_of_get? hj)
      simpa [hkey] using hone
    | some t =>
      rw [ht, Option.map_some] at hkey
      exact (check_ok_iff t _).1 (hproperties (key, _) (Entries.mem_of_get? hkey) j hj)
  · intro h
    refine ⟨fun m hin => ?_, fun e he j hj => ?_⟩
    · have hone := h m.1 m.2 (Entries.get?_of_mem hm hin)
      rw [htypes]
      cases ht : types m.1 with
      | none =>
        rw [ht] at hone
        exact .inl hone
      | some t => exact .inr rfl
    · have hkey := Entries.get?_of_mem hp he
      have hone := h e.1 j hj
      rw [htypes] at hkey
      obtain ⟨t, ht, hrule⟩ := Option.map_eq_some_iff.1 hkey
      rw [ht] at hone
      rw [← hrule]
      exact (check_ok_iff t _).2 hone

end Rule
end SchemaKeeper
