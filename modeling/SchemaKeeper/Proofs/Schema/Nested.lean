import Mathlib.Logic.Relation
import SchemaKeeper.Proofs.Schema.Types

/-!
# Classes inside classes

A class nests the classes that the types of its fields end in through lists and dicts; what stands
in a tuple is not among them.  A class is bigger than those that it nests, so that what is passed
on from the nested classes to the one around them holds of every class.
-/
namespace SchemaKeeper
namespace DocClass
variable {c k : DocClass} {r : Registry}

/-- The classes that the types of the fields end in, in the order of the fields. -/
def nested (c : DocClass) : List DocClass := c.fields.filterMap fun f => f.2 >>= Shape.nested?

/-- The type of a field of the first class ends in the second. -/
def Nests (c k : DocClass) : Prop := k ∈ c.nested

theorem nests_iff : c.Nests k ↔ ∃ name t, (name, some t) ∈ c.fields ∧ t.nested? = some k := by
  simp only [Nests, nested, List.mem_filterMap, Prod.exists, Option.bind_eq_bind,
    Option.bind_eq_some_iff]
  constructor
  · rintro ⟨name, _, h, t, rfl, hk⟩
    exact ⟨name, t, h, hk⟩
  · rintro ⟨name, t, h, hk⟩
    exact ⟨name, some t, h, t, rfl, hk⟩

/-- What is nested directly, or nested in what is nested. -/
abbrev Reaches (c k : DocClass) : Prop := Relation.ReflTransGen Nests c k

theorem sizeOf_nested? {t : FieldType} (h : t.nested? = some k) : sizeOf k < sizeOf t := by
  fun_induction Shape.nested? t with
  | case1 t ih | case2 t ih =>
    have := ih h
    simp only [Shape.list.sizeOf_spec, Shape.dict.sizeOf_spec]
    omega
  | case3 c =>
    obtain rfl := Option.some.inj h
    simp only [Shape.document.sizeOf_spec]
    omega
  | case4 | case5 => cases h

theorem Nests.sizeOf_lt (h : c.Nests k) : sizeOf k < sizeOf c := by
  obtain ⟨name, t, hmem, hk⟩ := nests_iff.1 h
  have hfield := List.sizeOf_lt_of_mem hmem
  have hnested := sizeOf_nested? hk
  cases c
  simp only [Prod.mk.sizeOf_spec, Option.some.sizeOf_spec] at hfield
  simp only [mk.sizeOf_spec]
  omega

/-- What holds of a class as soon as it holds of the nested ones holds of every class. -/
@[elab_as_elim]
theorem nestedInduction {motive : DocClass → Prop}
    (nest : ∀ c, (∀ k, c.Nests k → motive k) → motive c) (c : DocClass) : motive c :=
  nest c fun k _hk => nestedInduction nest k
termination_by sizeOf c
decreasing_by exact _hk.sizeOf_lt

end DocClass
end SchemaKeeper
