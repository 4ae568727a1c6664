import SchemaKeeper.Proofs.Outcome
import SchemaKeeper.Schema.Registry
import SchemaKeeper.Validator.Rule

/-!
# Types, their rules and their classes

A type goes through its validator rule unchanged, and a descriptor whose class names are all
registered stands for a live type with this very descriptor.  The latter needs a registry that
keeps every class under its own name, as one that is built by registering does.
-/
namespace SchemaKeeper

namespace Rule

mutual

/-- The rule of a type tells the type. -/
theorem descriptor_ofDescriptor (path : String) :
    ∀ d : Descriptor, (ofDescriptor d).descriptor path = .ok d
  | .scalar k => by cases k <;> rfl
  | .list t => by
    have ih := descriptor_ofDescriptor path t
    simp [ofDescriptor, any, descriptor, ih]
  | .dict t => by
    have ih := descriptor_ofDescriptor path t
    simp [ofDescriptor, any, descriptor, ih]
  | .tuple ts => by
    have ih := descriptors_ofDescriptors path ts
    simp [ofDescriptor, any, descriptor, ih]
  | .document c => rfl

theorem descriptors_ofDescriptors (path : String) :
    ∀ ds : List Descriptor, descriptors path (ofDescriptors ds) = .ok ds
  | [] => rfl
  | d :: ds => by
    have ih := descriptor_ofDescriptor path d
    have ihs := descriptors_ofDescriptors path ds
    simp [ofDescriptors, descriptors, ih, ihs]

end

end Rule

namespace Shape
variable {α β ε : Type} {f : α → Except ε β} {g : β → α}

mutual

/-- Looking the leaves up keeps the shape: named back, the result is where it came from. -/
theorem map_of_resolveWith (hg : ∀ a b, f a = .ok b → g b = a) :
    ∀ {s : Shape α} {t : Shape β}, s.resolveWith f = .ok t → t.map g = s
  | .scalar k, t, h => by
    injection h with h
    subst h; rfl
  | .list s, t, h => by
    obtain ⟨u, hu, h⟩ := bind_eq_ok_iff.1 h
    injection h with h
    subst h
    rw [Shape.map, map_of_resolveWith hg hu]
  | .dict s, t, h => by
    obtain ⟨u, hu, h⟩ := bind_eq_ok_iff.1 h
    injection h with h
    subst h
    rw [Shape.map, map_of_resolveWith hg hu]
  | .tuple ss, t, h => by
    obtain ⟨us, hus, h⟩ := bind_eq_ok_iff.1 h
    injection h with h
    subst h
    rw [Shape.map, mapAll_of_resolveAll hg hus]
  | .document a, t, h => by
    obtain ⟨b, hb, h⟩ := bind_eq_ok_iff.1 h
    injection h with h
    subst h
    rw [Shape.map, hg a b hb]

theorem mapAll_of_resolveAll (hg : ∀ a b, f a = .ok b → g b = a) :
    ∀ {ss : List (Shape α)} {ts : List (Shape β)}, resolveAll f ss = .ok ts → mapAll g ts = ss
  | [], ts, h => by
    injection h with h
    subst h; rfl
  | s :: ss, ts, h => by
    obtain ⟨u, hu, h⟩ := bind_eq_ok_iff.1 h
    obtain ⟨us, hus, h⟩ := bind_eq_ok_iff.1 h
    injection h with h
    subst h
    rw [mapAll, map_of_resolveWith hg hu, mapAll_of_resolveAll hg hus]

end

mutual

/-- A shape all of whose leaves are found resolves. -/
theorem resolveWith_of_leaves :
    ∀ (s : Shape α), (∀ a ∈ s.leaves, ∃ b, f a = .ok b) → ∃ t, s.resolveWith f = .ok t
  | .scalar k, _ => ⟨.scalar k, rfl⟩
  | .list s, h => by
    obtain ⟨t, ht⟩ := resolveWith_of_leaves s h
    exact ⟨.list t, by simp [resolveWith, ht]⟩
  | .dict s, h => by
    obtain ⟨t, ht⟩ := resolveWith_of_leaves s h
    exact ⟨.dict t, by simp [resolveWith, ht]⟩
  | .tuple ss, h => by
    obtain ⟨ts, hts⟩ := resolveAll_of_leaves ss h
    exact ⟨.tuple ts, by simp [resolveWith, hts]⟩
  | .document a, h => by
    obtain ⟨b, hb⟩ := h a (by simp [leaves])
    exact ⟨.document b, by simp [resolveWith, hb]⟩

theorem resolveAll_of_leaves :
    ∀ (ss : List (Shape α)), (∀ a ∈ leavesAll ss, ∃ b, f a = .ok b) →
      ∃ ts, resolveAll f ss = .ok ts
  | [], _ => ⟨[], rfl⟩
  | s :: ss, h => by
    obtain ⟨t, ht⟩ := resolveWith_of_leaves s
      fun a ha => h a (by simp [leavesAll, ha])
    obtain ⟨ts, hts⟩ := resolveAll_of_leaves ss
      fun a ha => h a (by simp [leavesAll, ha])
    exact ⟨t :: ts, by simp [resolveAll, ht, hts]⟩

end

mutual

/-- In a shape that resolves every leaf is found, and every leaf of what it resolves to was looked
up. -/
theorem leaves_of_resolveWith :
    ∀ {s : Shape α} {t : Shape β}, s.resolveWith f = .ok t →
      (∀ a ∈ s.leaves, ∃ b, f a = .ok b) ∧ ∀ b ∈ t.leaves, ∃ a, f a = .ok b
  | .scalar _, _, h => by
    cases h
    simp [leaves]
  | .list s, _, h => by
    obtain ⟨u, hu, ht⟩ := bind_eq_ok_iff.1 h
    cases ht
    simpa only [leaves] using leaves_of_resolveWith hu
  | .dict s, _, h => by
    obtain ⟨u, hu, ht⟩ := bind_eq_ok_iff.1 h
    cases ht
    simpa only [leaves] using leaves_of_resolveWith hu
  | .tuple ss, _, h => by
    obtain ⟨us, hus, ht⟩ := bind_eq_ok_iff.1 h
    cases ht
    exact leaves_of_resolveAll hus
  | .document a, _, h => by
    obtain ⟨b, hb, ht⟩ := bind_eq_ok_iff.1 h
    cases ht
    exact ⟨List.forall_mem_singleton.2 ⟨b, hb⟩, List.forall_mem_singleton.2 ⟨a, hb⟩⟩

theorem leaves_of_resolveAll :
    ∀ {ss : List (Shape α)} {ts : List (Shape β)}, resolveAll f ss = .ok ts →
      (∀ a ∈ leavesAll ss, ∃ b, f a = .ok b) ∧ ∀ b ∈ leavesAll ts, ∃ a, f a = .ok b
  | [], _, h => by
    cases h
    simp [leavesAll]
  | s :: ss, _, h => by
    obtain ⟨u, hu, h⟩ := bind_eq_ok_iff.1 h
    obtain ⟨us, hus, ht⟩ := bind_eq_ok_iff.1 h
    cases ht
    obtain ⟨hfound, hlooked⟩ := leaves_of_resolveWith hu
    obtain ⟨hfounds, hlookeds⟩ := leaves_of_resolveAll hus
    exact ⟨List.forall_mem_append.2 ⟨hfound, hfounds⟩,
      List.forall_mem_append.2 ⟨hlooked, hlookeds⟩⟩

end

mutual

theorem leaves_map (g : α → β) : ∀ s : Shape α, (s.map g).leaves = s.leaves.map g
  | .scalar _ => rfl
  | .list s => leaves_map g s
  | .dict s => leaves_map g s
  | .tuple ss => leavesAll_mapAll g ss
  | .document _ => rfl

theorem leavesAll_mapAll (g : α → β) :
    ∀ ss : List (Shape α), leavesAll (mapAll g ss) = (leavesAll ss).map g
  | [] => rfl
  | s :: ss => by
    rw [mapAll, leavesAll, leavesAll, leaves_map g s, leavesAll_mapAll g ss, List.map_append]

end

/-- What a descriptor stands for ends in what the name that it ends in stands for. -/
theorem nested?_of_resolveWith {b : β} : ∀ {d : Shape α} {t : Shape β},
    d.resolveWith f = .ok t → t.nested? = some b → ∃ a, d.nested? = some a ∧ f a = .ok b
  | .scalar _, t, h, hb => by
    cases h
    cases hb
  | .list d, t, h, hb => by
    obtain ⟨u, hu, ht⟩ := bind_eq_ok_iff.1 h
    cases ht
    obtain ⟨a, ha, hab⟩ := nested?_of_resolveWith hu hb
    exact ⟨a, ha, hab⟩
  | .dict d, t, h, hb => by
    obtain ⟨u, hu, ht⟩ := bind_eq_ok_iff.1 h
    cases ht
    obtain ⟨a, ha, hab⟩ := nested?_of_resolveWith hu hb
    exact ⟨a, ha, hab⟩
  | .tuple ds, t, h, hb => by
    obtain ⟨us, -, ht⟩ := bind_eq_ok_iff.1 h
    cases ht
    cases hb
  | .document a, t, h, hb => by
    obtain ⟨k, hk, ht⟩ := bind_eq_ok_iff.1 h
    cases ht
    injection hb with hb
    exact ⟨a, rfl, hb ▸ hk⟩

end Shape

namespace Registry

/-- Every class is kept under its own name. -/
def Named (r : Registry) : Prop := ∀ name c, r.get? name = some c → c.name = name

theorem named_empty : Named .empty := by
  intro name c h
  cases h

mutual

theorem named_register :
    ∀ (c : DocClass) {r : Registry}, r.Named → (register c r).Named
  | ⟨name, fields, indexes⟩, r, h => by
    unfold register
    split
    · exact h
    · refine named_registerFields fields fun key c hc => ?_
      rw [Keyed.get?_insert] at hc
      split at hc
      · rename_i hk
        injection hc with hc
        subst hc
        exact hk
      · exact h key c hc

theorem named_registerFields :
    ∀ (fields : List (String × Option FieldType)) {r : Registry},
      r.Named → (registerFields fields r).Named
  | [], _, h => h
  | (_, type) :: rest, _, h => named_registerFields rest (named_registerType type h)

theorem named_registerType :
    ∀ (type : Option FieldType) {r : Registry}, r.Named → (registerType type r).Named
  | none, _, h => h
  | some t, _, h => named_registerShape t h

theorem named_registerShape :
    ∀ (t : FieldType) {r : Registry}, r.Named → (registerShape t r).Named
  | .list t, _, h => named_registerShape t h
  | .dict t, _, h => named_registerShape t h
  | .document c, _, h => named_register c h
  | .scalar _, _, h => h
  | .tuple _, _, h => h

end

theorem resolve_eq_ok {r : Registry} {path name : String} {c : DocClass} :
    r.resolve path name = .ok c ↔ r.get? name = some c := by
  unfold resolve
  cases r.get? name <;> simp

end Registry

namespace Descriptor
variable {d : Descriptor} {path : String} {r : Registry} {t : FieldType}

/-- The live type of a descriptor has that descriptor. -/
theorem descriptor_of_fieldType (hr : r.Named) (h : d.fieldType path r = .ok t) :
    t.descriptor = d :=
  Shape.map_of_resolveWith (fun name c hc => hr name c (Registry.resolve_eq_ok.1 hc)) h

/-- A descriptor whose class names are registered stands for a live type. -/
theorem exists_fieldType (h : ∀ name ∈ d.leaves, r.contains name = true) :
    ∃ t, d.fieldType path r = .ok t :=
  Shape.resolveWith_of_leaves d fun name hn => by
    obtain ⟨c, hc⟩ := Option.isSome_iff_exists.1 (h name hn)
    exact ⟨c, Registry.resolve_eq_ok.2 hc⟩

end Descriptor
end SchemaKeeper
