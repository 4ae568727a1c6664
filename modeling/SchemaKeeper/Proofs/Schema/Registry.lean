import SchemaKeeper.Proofs.Layout.Definable
import SchemaKeeper.Proofs.Schema.Nested

/-!
# What a registry knows

A registry that classes are put into one after the other knows each of them by its name, and each
class that a known class nests.  It follows types through lists and dicts alone: a class in a tuple
is known only if it is reached in another way, and it is these classes that decide whether the
types of known classes are read back from their descriptors.
-/
namespace SchemaKeeper

namespace Shape
variable {κ : Type} {a : κ} {u t : Shape κ}

/-- The first shape stands somewhere in the second. -/
inductive Occurs : Shape κ → Shape κ → Prop where
  | here {t : Shape κ} : Occurs t t
  | list {u t : Shape κ} (h : Occurs u t) : Occurs u (.list t)
  | dict {u t : Shape κ} (h : Occurs u t) : Occurs u (.dict t)
  | tuple {u t : Shape κ} {ts : List (Shape κ)} (hmem : t ∈ ts) (h : Occurs u t) :
    Occurs u (.tuple ts)

/-- The leaves that stand in a tuple. -/
def tupled : Shape κ → List κ
  | .list t => tupled t
  | .dict t => tupled t
  | .tuple ts => leavesAll ts
  | .scalar _ => []
  | .document _ => []

/-- A leaf stands at the end of the lists and dicts, or in a tuple. -/
theorem mem_leaves_iff : a ∈ t.leaves ↔ t.nested? = some a ∨ a ∈ t.tupled := by
  fun_induction nested? t with
  | case1 t ih | case2 t ih => simpa only [leaves, tupled] using ih
  | case3 c => simp [leaves, tupled, eq_comm]
  | case4 k => simp [leaves, tupled]
  | case5 ts => simp [leaves, tupled]

theorem leaves_subset_leavesAll {ts : List (Shape κ)} (hmem : t ∈ ts) :
    t.leaves ⊆ leavesAll ts := by
  induction ts with
  | nil => cases hmem
  | cons s ts ih =>
    rw [leavesAll]
    rcases List.mem_cons.1 hmem with rfl | hmem
    · exact List.subset_append_left _ _
    · exact fun a ha => List.mem_append_right _ (ih hmem ha)

theorem Occurs.leaves_subset (h : u.Occurs t) : u.leaves ⊆ t.leaves := by
  induction h with
  | here => exact List.Subset.refl _
  | list h ih | dict h ih => exact ih
  | tuple hmem h ih => exact fun a ha => leaves_subset_leavesAll hmem (ih ha)

end Shape

namespace Registry
variable {c k : DocClass} {r r' r'' : Registry} {name : String} {t u : FieldType}

/-! ## To register and to read back -/

theorem registerShape_eq (t : FieldType) (r : Registry) :
    registerShape t r = match t.nested? with
      | some k => register k r
      | none => r := by
  fun_induction Shape.nested? t <;> simp_all [registerShape]

/-- Registers classes one after the other. -/
def registerAll (cs : List DocClass) (r : Registry) : Registry :=
  cs.foldl (fun r c => register c r) r

theorem registerFields_eq (fields : List (String × Option FieldType)) (r : Registry) :
    registerFields fields r = registerAll (fields.filterMap fun f => f.2 >>= Shape.nested?) r := by
  induction fields generalizing r with
  | nil => rfl
  | cons field fields ih =>
    obtain ⟨name, type⟩ := field
    cases type with
    | none =>
      rw [registerFields, registerType, ih]
      rfl
    | some t =>
      rw [registerFields, registerType, registerShape_eq, ih]
      cases hk : t.nested? <;> simp [hk, registerAll]

theorem register_eq (c : DocClass) (r : Registry) :
    register c r = if r.contains c.name then r else registerAll c.nested (r.insert c.name c) := by
  obtain ⟨name, fields, indexes⟩ := c
  rw [register, registerFields_eq]
  rfl

/-- The registry of classes that are registered one after the other. -/
def ofClasses (cs : List DocClass) : Registry := registerAll cs .empty

theorem named_registerAll (cs : List DocClass) (h : r.Named) : (registerAll cs r).Named := by
  induction cs generalizing r with
  | nil => exact h
  | cons c cs ih => exact ih (named_register c h)

/-- The type is read back from its descriptor. -/
def ReadsBack (r : Registry) (t : FieldType) : Prop :=
  ∀ path, ∃ u, t.descriptor.fieldType path r = .ok u ∧ u.same t = true

theorem readsBack_iff (hr : r.Named) :
    r.ReadsBack t ↔ ∀ k ∈ t.leaves, r.contains k.name = true := by
  have hleaves : t.descriptor.leaves = t.leaves.map DocClass.name := Shape.leaves_map _ t
  constructor
  · intro h k hk
    obtain ⟨u, hu, -⟩ := h ""
    have hname : k.name ∈ t.descriptor.leaves := hleaves ▸ List.mem_map_of_mem hk
    obtain ⟨c, hc⟩ := (Shape.leaves_of_resolveWith hu).1 k.name hname
    exact Keyed.contains_iff.2 ⟨c, resolve_eq_ok.1 hc⟩
  · intro h path
    have hfound : ∃ u, t.descriptor.fieldType path r = .ok u :=
      Descriptor.exists_fieldType (hleaves ▸ List.forall_mem_map.2 h)
    obtain ⟨u, hu⟩ := hfound
    exact ⟨u, hu, decide_eq_true (Descriptor.descriptor_of_fieldType hr hu)⟩

/-! ## What is added -/

/-- All classes stay, and each one that is added is reached from a source and nests classes with
known names alone. -/
structure Grows (sources : List DocClass) (r r' : Registry) : Prop where
  keeps : ∀ name c, r.get? name = some c → r'.get? name = some c
  adds : ∀ name c, r'.get? name = some c → r.get? name = some c ∨
    (∀ k, c.Nests k → r'.contains k.name = true) ∧ ∃ source ∈ sources, source.Reaches c

theorem Grows.refl (sources : List DocClass) (r : Registry) : Grows sources r r :=
  ⟨fun _ _ h => h, fun _ _ h => .inl h⟩

theorem Grows.contains {sources : List DocClass} (h : Grows sources r r')
    (hname : r.contains name = true) : r'.contains name = true := by
  obtain ⟨c, hc⟩ := Keyed.contains_iff.1 hname
  exact Keyed.contains_iff.2 ⟨c, h.keeps name c hc⟩

theorem Grows.trans {before after : List DocClass} (h : Grows before r r')
    (h' : Grows after r' r'') : Grows (before ++ after) r r'' := by
  refine ⟨fun name c hc => h'.keeps name c (h.keeps name c hc), fun name c hc => ?_⟩
  rcases h'.adds name c hc with hc | ⟨hnested, source, hsource, hreach⟩
  · rcases h.adds name c hc with hc | ⟨hnested, source, hsource, hreach⟩
    · exact .inl hc
    · exact .inr ⟨fun k hk => h'.contains (hnested k hk), source,
        List.mem_append_left _ hsource, hreach⟩
  · exact .inr ⟨hnested, source, List.mem_append_right _ hsource, hreach⟩

/-- What each of the classes does if it is registered, they do one after the other. -/
theorem grows_registerAll_of {cs : List DocClass}
    (h : ∀ c ∈ cs, ∀ r, Grows [c] r (register c r) ∧ (register c r).contains c.name = true)
    (r : Registry) :
    Grows cs r (registerAll cs r) ∧ ∀ c ∈ cs, (registerAll cs r).contains c.name = true := by
  induction cs generalizing r with
  | nil => exact ⟨.refl _ _, nofun⟩
  | cons c cs ih =>
    obtain ⟨hc, hrest⟩ := List.forall_mem_cons.1 h
    obtain ⟨hgrows, hknown⟩ := hc r
    obtain ⟨hgrows', hknown'⟩ := ih hrest (register c r)
    exact ⟨hgrows.trans hgrows', List.forall_mem_cons.2 ⟨hgrows'.contains hknown, hknown'⟩⟩

theorem grows_register (c : DocClass) (r : Registry) :
    Grows [c] r (register c r) ∧ (register c r).contains c.name = true := by
  induction c using DocClass.nestedInduction generalizing r with
  | nest c ih =>
    rw [register_eq]
    split
    · rename_i hknown
      exact ⟨.refl _ _, hknown⟩
    · rename_i hnew
      obtain ⟨hgrows, hnested⟩ := grows_registerAll_of ih (r.insert c.name c)
      have hput : (r.insert c.name c).get? c.name = some c := by simp
      refine ⟨⟨fun name k hk => hgrows.keeps name k ?_, fun name k hk => ?_⟩,
        Keyed.contains_iff.2 ⟨c, hgrows.keeps _ _ hput⟩⟩
      · rw [Keyed.get?_insert, if_neg]
        · exact hk
        · rintro rfl
          exact hnew (Keyed.contains_iff.2 ⟨k, hk⟩)
      · rcases hgrows.adds name k hk with hk | ⟨hknown, source, hsource, hreach⟩
        · rw [Keyed.get?_insert] at hk
          split at hk
          · obtain rfl := Option.some.inj hk
            exact .inr ⟨hnested, c, List.mem_singleton_self c, .refl⟩
          · exact .inl hk
        · exact .inr ⟨hknown, c, List.mem_singleton_self c, .head hsource hreach⟩

theorem grows_registerAll (cs : List DocClass) (r : Registry) :
    Grows cs r (registerAll cs r) ∧ ∀ c ∈ cs, (registerAll cs r).contains c.name = true :=
  grows_registerAll_of (fun c _ r => grows_register c r) r

/-! ## Closed registries -/

/-- Each class that occurs in a field of a known class, at any depth, is known by its name. -/
def Closed (r : Registry) : Prop :=
  ∀ name c, r.get? name = some c → ∀ field t, (field, some t) ∈ c.fields →
    ∀ k ∈ t.leaves, r.contains k.name = true

/-- What a registry of some classes promises. -/
structure Gathers (cs : List DocClass) (r : Registry) : Prop where
  /-- The classes are known. -/
  given : ∀ c ∈ cs, r.contains c.name = true
  /-- Each known class is known by its own name. -/
  named : r.Named
  /-- What a known class nests is known. -/
  nested : ∀ name c, r.get? name = some c → ∀ k, c.Nests k → r.contains k.name = true
  /-- Nothing else is known than what the classes reach. -/
  reached : ∀ name c, r.get? name = some c → ∃ source ∈ cs, source.Reaches c
  /-- The registry is closed exactly if it knows the classes in the tuples of known classes. -/
  closed_iff : r.Closed ↔ ∀ name c, r.get? name = some c → ∀ field t, (field, some t) ∈ c.fields →
    ∀ k ∈ t.tupled, r.contains k.name = true
  /-- All types that occur in the type of a field are read back exactly if the classes in its tuples
  are known. -/
  readsBack_iff : ∀ name c, r.get? name = some c → ∀ field t, (field, some t) ∈ c.fields →
    ((∀ u, u.Occurs t → r.ReadsBack u) ↔ ∀ k ∈ t.tupled, r.contains k.name = true)

/-- Whatever classes are registered one after the other, their registry knows them and what they
nest.  It is closed, and reads the types of known classes back, where no tuple holds a class that
is not known. -/
theorem gathers_ofClasses (cs : List DocClass) : (ofClasses cs).Gathers cs := by
  obtain ⟨hgrows, hgiven⟩ := grows_registerAll cs .empty
  have hnamed : (ofClasses cs).Named := named_registerAll cs named_empty
  have hadded : ∀ name c, (ofClasses cs).get? name = some c →
      (∀ k, c.Nests k → (ofClasses cs).contains k.name = true) ∧
        ∃ source ∈ cs, source.Reaches c := by
    intro name c hc
    rcases hgrows.adds name c hc with hempty | h
    · cases hempty
    · exact h
  have hleaves : ∀ name c, (ofClasses cs).get? name = some c → ∀ field t,
      (field, some t) ∈ c.fields → ((∀ k ∈ t.leaves, (ofClasses cs).contains k.name = true) ↔
        ∀ k ∈ t.tupled, (ofClasses cs).contains k.name = true) := by
    intro name c hc field t hmem
    refine ⟨fun h k hk => h k (Shape.mem_leaves_iff.2 (.inr hk)), fun h k hk => ?_⟩
    rcases Shape.mem_leaves_iff.1 hk with hk | hk
    · exact (hadded name c hc).1 k (DocClass.nests_iff.2 ⟨field, t, hmem, hk⟩)
    · exact h k hk
  refine ⟨hgiven, hnamed, fun name c hc => (hadded name c hc).1,
    fun name c hc => (hadded name c hc).2, ?_, fun name c hc field t hmem => ?_⟩
  · exact forall₃_congr fun name c hc => forall₃_congr fun field t hmem =>
      hleaves name c hc field t hmem
  · rw [← hleaves name c hc field t hmem]
    constructor
    · exact fun h => (readsBack_iff hnamed).1 (h t .here)
    · exact fun h u hu => (readsBack_iff hnamed).2 fun k hk => h k (hu.leaves_subset hk)

section Sample

/-- A pair of boxes. -/
def pairClass : DocClass :=
  .ofFields "Pair"
    [("pair", some (.tuple [.document Layout.boxClass, .document Layout.boxClass]))] []

/-- A registry does not know a class that is reached in a tuple alone, and does not read back the
type of the field in which it occurs. -/
theorem not_closed_pair : ¬ (ofClasses [pairClass]).Closed ∧
    ∃ t, ("pair", some t) ∈ pairClass.fields ∧ ¬ (ofClasses [pairClass]).ReadsBack t := by
  have hunknown : (ofClasses [pairClass]).contains "Box" = false := by decide +kernel
  have hbox : Layout.boxClass ∈ (Shape.tuple [.document Layout.boxClass,
      .document Layout.boxClass]).leaves := by simp [Shape.leaves, Shape.leavesAll]
  refine ⟨fun h => ?_, _, List.mem_singleton_self _, fun h => ?_⟩
  · have hknown := h "Pair" pairClass rfl "pair" _ (List.mem_singleton_self _) Layout.boxClass hbox
    exact nomatch hunknown.symm.trans hknown
  · have hknown := (readsBack_iff (named_registerAll [pairClass] named_empty)).1 h _ hbox
    exact nomatch hunknown.symm.trans hknown

end Sample

end Registry
end SchemaKeeper
