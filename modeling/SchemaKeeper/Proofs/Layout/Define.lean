import SchemaKeeper.Layout.Basic
import SchemaKeeper.Proofs.Layout.Owner
import SchemaKeeper.Proofs.Outcome
import Mathlib.Data.List.Forall2

/-!
# Field definitions of a schema

`Layout.define` goes through the entries of a schema in order.  Each typed entry becomes one
definition, which has a collection exactly if documents stand there: the known one, or one named
with an identifier that no other entry has drawn.
-/
namespace SchemaKeeper

/-- The types of fields are the same if they have the same descriptor. -/
theorem FieldType.same_iff {a b : FieldType} : a.same b = true ↔ a.descriptor = b.descriptor := by
  simp [FieldType.same]

theorem Field.requireType_eq_ok {f : Field} {path : String} {t : FieldType} :
    f.requireType path = .ok t ↔ f.type = some t := by
  unfold Field.requireType
  cases f.type <;> simp

namespace Layout
variable {ids : Nat → Uuid} {known : Collections} {drawn drawn' : Nat}

/-- The collection that a path of a type gets, with the count of identifiers drawn after it. -/
def allot (ids : Nat → Uuid) (known : Collections) (drawn : Nat) (path : String)
    (type : FieldType) : Option String × Nat :=
  match type.nested? with
  | none => (none, drawn)
  | some c =>
    match known.get? path with
    | some name => (some name, drawn)
    | none => (some (collectionName c.name (ids drawn)), drawn + 1)

theorem define_cons (path : String) (field : Field) (rest : List (String × Field)) :
    define ids known drawn ((path, field) :: rest) = (do
      let type ← field.requireType path
      let (ds, n) ← define ids known (allot ids known drawn path type).2 rest
      return (⟨path, type.descriptor, (allot ids known drawn path type).1⟩ :: ds, n)) := rfl

/-- The collection of a definition: none for a type without documents, the known one, or a new
one that `owner` ascribes to the path. -/
def Allotted (ids : Nat → Uuid) (known : Collections) (drawn drawn' : Nat) (owner : Nat → String)
    (path : String) (type : FieldType) (collection : Option String) : Prop :=
  (type.nested? = none ∧ collection = none) ∨
    ∃ c name, type.nested? = some c ∧ collection = some name ∧
      (known.get? path = some name ∨ known.get? path = none ∧
        ∃ k, drawn ≤ k ∧ k < drawn' ∧ name = collectionName c.name (ids k) ∧ owner k = path)

/-- A definition says what an entry of a schema does. -/
def Defines (ids : Nat → Uuid) (known : Collections) (drawn drawn' : Nat) (owner : Nat → String)
    (e : String × Field) (d : FieldDefinition) : Prop :=
  d.path = e.1 ∧ ∃ t, e.2.type = some t ∧ d.type = t.descriptor ∧
    Allotted ids known drawn drawn' owner e.1 t d.collection

theorem Allotted.mono {owner owner' : Nat → String} {lo hi lo' hi' : Nat} {path : String}
    {type : FieldType} {collection : Option String} (h : Allotted ids known lo hi owner path type
    collection) (hlo : lo' ≤ lo) (hhi : hi ≤ hi') (ho : ∀ k, lo ≤ k → owner' k = owner k) :
    Allotted ids known lo' hi' owner' path type collection := by
  rcases h with h | ⟨c, name, hc, hname, h | ⟨hk, k, h1, h2, h3, h4⟩⟩
  · exact .inl h
  · exact .inr ⟨c, name, hc, hname, .inl h⟩
  · exact .inr ⟨c, name, hc, hname, .inr ⟨hk, k, by omega, by omega, h3, (ho k h1).trans h4⟩⟩

/-- What the definitions of the entries of a schema say. -/
theorem define_ok {es : List (String × Field)} {ds : List FieldDefinition}
    (h : define ids known drawn es = .ok (ds, drawn')) :
    drawn ≤ drawn' ∧
      ∃ owner, List.Forall₂ (Defines ids known drawn drawn' owner) es ds := by
  induction es generalizing drawn ds with
  | nil =>
    injection h with h
    injection h with h1 h2
    subst h1 h2
    exact ⟨Nat.le_refl _, fun _ => "", .nil⟩
  | cons e rest ih =>
    obtain ⟨path, field⟩ := e
    rw [define_cons] at h
    obtain ⟨type, htype, h⟩ := bind_eq_ok_iff.1 h
    obtain ⟨⟨ds', n⟩, hrest, h⟩ := bind_eq_ok_iff.1 h
    injection h with h
    injection h with h1 h2
    subst h1 h2
    obtain ⟨hle, owner, hds⟩ := ih hrest
    have htype := Field.requireType_eq_ok.1 htype
    -- The head is ascribed the identifier it drew, the tail those it drew after it.
    have hstep : drawn ≤ (allot ids known drawn path type).2 := by
      unfold allot
      split
      · exact Nat.le_refl _
      · split
        · exact Nat.le_refl _
        · exact Nat.le_succ _
    refine ⟨Nat.le_trans hstep hle, fun k => if k < (allot ids known drawn path type).2 then path
      else owner k, .cons ⟨rfl, type, htype, rfl, ?_⟩ ?_⟩
    · unfold Allotted allot
      cases hn : type.nested? with
      | none => exact .inl ⟨rfl, rfl⟩
      | some c =>
        cases hk : known.get? path with
        | some name => exact .inr ⟨c, name, rfl, rfl, .inl rfl⟩
        | none =>
          have hs : (allot ids known drawn path type).2 = drawn + 1 := by simp [allot, hn, hk]
          exact .inr ⟨c, _, rfl, rfl, .inr ⟨rfl, drawn, Nat.le_refl _, by omega, rfl, by simp⟩⟩
    · refine hds.imp fun e d hd => ?_
      obtain ⟨hp, t, ht, hdt, ha⟩ := hd
      exact ⟨hp, t, ht, hdt, ha.mono hstep (Nat.le_refl _) fun k hk => by simp [Nat.not_lt.2 hk]⟩

theorem exists_of_mem_right {α β : Type} {R : α → β → Prop} {as : List α} {bs : List β} {b : β}
    (h : List.Forall₂ R as bs) (hb : b ∈ bs) : ∃ a ∈ as, R a b := by
  induction h with
  | nil => cases hb
  | cons hab _ ih =>
    rcases List.mem_cons.1 hb with rfl | hb
    · exact ⟨_, List.mem_cons_self, hab⟩
    · obtain ⟨a, ha, hr⟩ := ih hb
      exact ⟨a, List.mem_cons_of_mem _ ha, hr⟩

/-- Typed entries can be defined. -/
theorem exists_define {es : List (String × Field)} (h : ∀ e ∈ es, ∃ t, e.2.type = some t)
    (drawn : Nat) : ∃ ds n, define ids known drawn es = .ok (ds, n) := by
  induction es generalizing drawn with
  | nil => exact ⟨[], drawn, rfl⟩
  | cons e rest ih =>
    obtain ⟨path, field⟩ := e
    obtain ⟨t, ht⟩ := h (path, field) List.mem_cons_self
    obtain ⟨ds, n, hrest⟩ := ih (fun e he => h e (List.mem_cons_of_mem _ he))
      (allot ids known drawn path t).2
    refine ⟨⟨path, t.descriptor, (allot ids known drawn path t).1⟩ :: ds, n, ?_⟩
    rw [define_cons, Field.requireType_eq_ok.2 ht, ok_bind, hrest]
    rfl

end Layout
end SchemaKeeper
