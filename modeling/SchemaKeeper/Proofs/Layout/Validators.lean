import SchemaKeeper.Proofs.Layout.Define

/-!
# Validators of a schema

A list of definitions describes a schema if it lists its typed paths in order.  The validators
laid out for such a schema speak of it: each is titled with the class at the path of its
collection, and each of its properties is the rule of a type whose path has its home there.
-/
namespace SchemaKeeper

theorem Schema.typeAt_eq_ok {s : Schema} {path : String} {t : FieldType} :
    s.typeAt path = .ok t ↔ ∃ f, s.get? path = some f ∧ f.type = some t := by
  unfold Schema.typeAt
  cases h : s.get? path with
  | none => simp
  | some f => simp [Field.requireType_eq_ok]

namespace Layout

theorem classAt_eq_ok {s : Schema} {path : String} {k : DocClass} :
    classAt s path = .ok k ↔ ∃ t, s.typeAt path = .ok t ∧ t.nested? = some k := by
  rw [classAt, bind_eq_ok_iff]
  refine exists_congr fun t => and_congr_right fun _ => ?_
  cases t.nested? <;> simp

/-- The definitions list the paths of a schema in order, each with its type, and documents stand
where there is a collection. -/
structure Describes (ds : List FieldDefinition) (s : Schema) : Prop where
  ascending : ds.Pairwise fun a b => a.path < b.path
  sound : ∀ d ∈ ds, ∃ t, s.typeAt d.path = .ok t ∧ d.type = t.descriptor ∧
    (d.collection = none ↔ t.nested? = none)
  complete : ∀ path f, s.get? path = some f → ∃ d ∈ ds, d.path = path

section Described
variable {ds : List FieldDefinition} {s : Schema} {d e : FieldDefinition}

/-- In a list in order a path stands once. -/
theorem eq_of_path_eq (h : ds.Pairwise fun a b => a.path < b.path) (hd : d ∈ ds) (he : e ∈ ds)
    (hp : d.path = e.path) : d = e := by
  have ho : Entries.Ordered (ds.map fun d => (d.path, d)) := List.pairwise_map.2 h
  exact Entries.functional_of_ordered ho (d.path, d) (List.mem_map.2 ⟨d, hd, rfl⟩) (e.path, e)
    (List.mem_map.2 ⟨e, he, rfl⟩) hp

theorem collections_get?_iff (h : ds.Pairwise fun a b => a.path < b.path) {path name : String} :
    (FieldDefinition.collections ds).get? path = some name ↔
      ∃ d ∈ ds, d.path = path ∧ d.collection = some name := by
  have hmem : ∀ {path name}, (path, name) ∈ (ds.filterMap fun d =>
      d.collection.map fun name => (d.path, name)) ↔
      ∃ d ∈ ds, d.path = path ∧ d.collection = some name := by
    intro path name
    simp only [List.mem_filterMap, Option.map_eq_some_iff, Prod.mk.injEq]
    constructor
    · rintro ⟨d, hd, n, hn, hp, rfl⟩
      exact ⟨d, hd, hp, hn⟩
    · rintro ⟨d, hd, hp, hn⟩
      exact ⟨d, hd, name, hn, hp, rfl⟩
  rw [FieldDefinition.collections, Keyed.get?_ofList_iff, hmem]
  rintro ⟨p, n⟩ hp ⟨q, m⟩ hq hpq
  obtain ⟨d, hd, hdp, hdn⟩ := hmem.1 hp
  obtain ⟨e, he, hep, hen⟩ := hmem.1 hq
  have hde : d = e := eq_of_path_eq h hd he (by rw [hdp, hep]; exact hpq)
  subst hde
  simpa [hdn] using hen

/-- The definitions of a schema describe it. -/
theorem describes_of_define {ids : Nat → Uuid} {known : Collections} {drawn n : Nat}
    (h : define ids known drawn s.entries = .ok (ds, n)) : Describes ds s := by
  obtain ⟨-, owner, hall⟩ := define_ok h
  obtain ⟨hl, hget⟩ := List.forall₂_iff_get.1 hall
  refine ⟨?_, ?_, ?_⟩
  · have hpaths : ds.map FieldDefinition.path = s.entries.map Prod.fst := by
      refine List.ext_getElem (by simp [hl]) fun i h1 h2 => ?_
      simp only [List.length_map] at h1 h2
      simpa using (hget i h2 h1).1
    have ho : (s.entries.map Prod.fst).Pairwise (· < ·) := List.pairwise_map.2 s.ordered
    rw [← hpaths] at ho
    exact List.pairwise_map.1 ho
  · intro d hd
    obtain ⟨e, he, hp, t, ht, hdt, ha⟩ := exists_of_mem_right hall hd
    refine ⟨t, Schema.typeAt_eq_ok.2 ⟨e.2, ?_, ht⟩, hdt, ?_⟩
    · rw [hp]
      exact Keyed.mem_entries_iff.1 he
    · rcases ha with ⟨hn, hc⟩ | ⟨c, name, hn, hc, -⟩
      · simpa [hn] using hc
      · simp_all
  · intro path f hf
    obtain ⟨i, hi, hid⟩ := List.getElem_of_mem (Keyed.mem_entries_iff.2 hf)
    have hd := (hget i hi (hl ▸ hi)).1
    exact ⟨ds.get ⟨i, hl ▸ hi⟩, List.get_mem _ _, by simpa [hid] using hd⟩

/-- Where the root has a document type it has a collection. -/
theorem Describes.root_collection (h : Describes ds s) {c : DocClass}
    (hroot : s.typeAt "" = .ok (.document c)) :
    ∃ name, (FieldDefinition.collections ds).get? "" = some name := by
  obtain ⟨f, hf, -⟩ := Schema.typeAt_eq_ok.1 hroot
  obtain ⟨d, hd, hp⟩ := h.complete "" f hf
  obtain ⟨t, ht, -, hc⟩ := h.sound d hd
  rw [hp, hroot] at ht
  injection ht with ht
  subst ht
  cases hn : d.collection with
  | none => simpa [Shape.nested?] using hc.1 hn
  | some name => exact ⟨name, (collections_get?_iff h.ascending).2 ⟨d, hd, hp, hn⟩⟩

/-- A collection is recorded where documents stand. -/
theorem Describes.nested?_ne_none_iff (h : Describes ds s) (hd : d ∈ ds) :
    d.type.nested? ≠ none ↔ d.collection ≠ none := by
  obtain ⟨t, -, htype, hcollection⟩ := h.sound d hd
  rw [htype, FieldType.descriptor, Shape.nested?_map, ne_eq, Option.map_eq_none_iff]
  exact hcollection.not.symm

/-- A collection stands where the type ends in a class. -/
theorem Describes.classAt_ok (h : Describes ds s) {path name : String}
    (hn : (FieldDefinition.collections ds).get? path = some name) :
    ∃ c, classAt s path = .ok c := by
  obtain ⟨d, hd, hp, hdn⟩ := (collections_get?_iff h.ascending).1 hn
  obtain ⟨t, ht, -, hc⟩ := h.sound d hd
  rw [hp] at ht
  cases hnest : t.nested? with
  | none => simp [hc.2 hnest] at hdn
  | some c => exact ⟨c, by simp [classAt, ht, hnest]⟩

end Described

/-! ## What the validators say -/

/-- A validator says what a schema does about the collection of a name: its class in the title,
and as properties the rules of types whose paths have their home there. -/
structure Speaks (s : Schema) (c : Collections) (name : String) (rule : Rule) : Prop where
  titled : ∃ path k ps, c.get? path = some name ∧ classAt s path = .ok k ∧
    rule = { Rule.collection k.name with properties := ps }
  ordered : Entries.Ordered rule.properties
  property : ∀ key x, Entries.get? rule.properties key = some x →
    ∃ path t, c.home? path = some (name, key) ∧ s.typeAt path = .ok t ∧
      x = .ofDescriptor t.descriptor

/-- All of the validators say what the schema does. -/
def Speak (s : Schema) (c : Collections) (v : Validators) : Prop :=
  ∀ name rule, v.get? name = some rule → Speaks s c name rule

variable {s : Schema} {c : Collections} {v v' : Validators}

theorem Speak.insert {name : String} {rule : Rule} (h : Speak s c v)
    (hr : Speaks s c name rule) : Speak s c (v.insert name rule) := by
  intro n x hx
  rw [Keyed.get?_insert] at hx
  split at hx
  · rename_i hn
    injection hx with hx
    subst hn hx
    exact hr
  · exact h n x hx

theorem Speaks.withProperty {name key path : String} {rule : Rule} {t : FieldType}
    (h : Speaks s c name rule) (hh : c.home? path = some (name, key))
    (ht : s.typeAt path = .ok t) :
    Speaks s c name (rule.withProperty key (.ofDescriptor t.descriptor)) := by
  refine ⟨?_, Entries.ordered_insert _ _ h.ordered, ?_⟩
  · obtain ⟨p, k, ps, hp, hk, hr⟩ := h.titled
    exact ⟨p, k, _, hp, hk, by rw [hr]; rfl⟩
  · intro q x hx
    simp only [Rule.withProperty, Entries.get?_insert] at hx
    split at hx
    · rename_i hq
      injection hx with hx
      subst hq hx
      exact ⟨path, t, hh, ht, rfl⟩
    · exact h.property q x hx

theorem titles_speak {es : List (String × String)} (hes : ∀ e ∈ es, c.get? e.1 = some e.2)
    (hv : Speak s c v) (h : titles s es v = .ok v') : Speak s c v' := by
  induction es generalizing v with
  | nil =>
    injection h with h
    exact h ▸ hv
  | cons e es ih =>
    obtain ⟨path, name⟩ := e
    obtain ⟨k, hk, h⟩ := bind_eq_ok_iff.1 h
    obtain ⟨he, hes⟩ := List.forall_mem_cons.1 hes
    refine ih hes (hv.insert ⟨⟨path, k, [], he, hk, rfl⟩, List.Pairwise.nil, ?_⟩) h
    intro key x hx
    cases hx

theorem exists_titles {es : List (String × String)}
    (h : ∀ e ∈ es, ∃ k, classAt s e.1 = .ok k) : ∃ v', titles s es v = .ok v' := by
  induction es generalizing v with
  | nil => exact ⟨v, rfl⟩
  | cons e es ih =>
    obtain ⟨⟨k, hk⟩, hes⟩ := List.forall_mem_cons.1 h
    obtain ⟨v', hv'⟩ := ih hes (v := v.insert e.2 (.collection k.name))
    exact ⟨v', by rw [titles, hk, ok_bind, hv']⟩

theorem assign_speak {es : List (String × Field)} (hes : ∀ e ∈ es, s.get? e.1 = some e.2)
    (hv : Speak s c v) (h : assign c es v = .ok v') : Speak s c v' := by
  induction es generalizing v with
  | nil =>
    injection h with h
    exact h ▸ hv
  | cons e es ih =>
    obtain ⟨path, field⟩ := e
    obtain ⟨he, hes⟩ := List.forall_mem_cons.1 hes
    rw [assign] at h
    split at h
    · exact ih hes hv h
    · rename_i name key hh
      obtain ⟨t, ht, h⟩ := bind_eq_ok_iff.1 h
      have htype := Schema.typeAt_eq_ok.2 ⟨field, he, Field.requireType_eq_ok.1 ht⟩
      split at h
      · exact ih hes hv h
      · rename_i rule hr
        exact ih hes (hv.insert ((hv name rule hr).withProperty hh htype)) h

theorem exists_assign {es : List (String × Field)} (h : ∀ e ∈ es, ∃ t, e.2.type = some t) :
    ∃ v', assign c es v = .ok v' := by
  induction es generalizing v with
  | nil => exact ⟨v, rfl⟩
  | cons e es ih =>
    obtain ⟨⟨t, ht⟩, hes⟩ := List.forall_mem_cons.1 h
    rw [assign]
    split
    · exact ih hes
    · rw [Field.requireType_eq_ok.2 ht, ok_bind]
      split <;> exact ih hes

/-- The validators of a schema speak of it. -/
theorem validators_speak (h : validators c s = .ok v) : Speak s c v := by
  obtain ⟨v₀, h₀, h⟩ := bind_eq_ok_iff.1 h
  refine assign_speak (fun e he => Keyed.mem_entries_iff.1 he) ?_ h
  refine titles_speak (fun e he => Keyed.mem_entries_iff.1 he) ?_ h₀
  intro name rule hr
  cases hr

theorem titles_contains {es : List (String × String)} (h : titles s es v = .ok v') {name : String}
    (hn : v.contains name = true ∨ name ∈ es.map Prod.snd) : v'.contains name = true := by
  induction es generalizing v with
  | nil =>
    injection h with h
    simpa [h] using hn
  | cons e es ih =>
    obtain ⟨path, n⟩ := e
    obtain ⟨k, -, h⟩ := bind_eq_ok_iff.1 h
    refine ih h ?_
    rcases hn with hn | hn
    · exact .inl (Keyed.contains_insert hn)
    · rcases List.mem_cons.1 hn with rfl | hn
      · exact .inl (by simp [Keyed.contains])
      · exact .inr hn

theorem assign_contains {es : List (String × Field)} (h : assign c es v = .ok v') {name : String}
    (hn : v.contains name = true) : v'.contains name = true := by
  induction es generalizing v with
  | nil =>
    injection h with h
    exact h ▸ hn
  | cons e es ih =>
    obtain ⟨path, field⟩ := e
    rw [assign] at h
    split at h
    · exact ih h hn
    · obtain ⟨t, -, h⟩ := bind_eq_ok_iff.1 h
      split at h
      · exact ih h hn
      · exact ih h (Keyed.contains_insert hn)

/-- Every collection has a validator. -/
theorem exists_validator (h : validators c s = .ok v) {name : String} (hn : name ∈ c.values) :
    ∃ rule, v.get? name = some rule := by
  obtain ⟨v₀, h₀, h⟩ := bind_eq_ok_iff.1 h
  exact Keyed.contains_iff.1 (assign_contains h (titles_contains h₀ (.inr hn)))

/-- A schema whose fields are typed has validators over collections that stand where types end in
classes. -/
theorem exists_validators_of_typed
    (hc : ∀ path name, c.get? path = some name → ∃ k, classAt s path = .ok k)
    (htyped : ∀ path f, s.get? path = some f → ∃ t, f.type = some t) :
    ∃ v, validators c s = .ok v := by
  obtain ⟨v₀, h₀⟩ := exists_titles (v := .empty) fun e he => hc e.1 e.2 (Keyed.mem_entries_iff.1 he)
  have hassign : ∃ v, assign c s.entries v₀ = .ok v :=
    exists_assign fun e he => htyped e.1 e.2 (Keyed.mem_entries_iff.1 he)
  obtain ⟨v, hv⟩ := hassign
  exact ⟨v, by rw [validators, h₀, ok_bind, hv]⟩

/-- A described schema has validators over the collections that describe it. -/
theorem exists_validators {ds : List FieldDefinition} (h : Describes ds s) :
    ∃ v, validators (FieldDefinition.collections ds) s = .ok v := by
  refine exists_validators_of_typed (fun path name hn => h.classAt_ok hn) fun path f hf => ?_
  obtain ⟨d, hd, hp⟩ := h.complete path f hf
  obtain ⟨t, ht, -⟩ := h.sound d hd
  obtain ⟨f', hf', hft⟩ := Schema.typeAt_eq_ok.1 ht
  rw [hp, hf] at hf'
  injection hf' with hf'
  exact ⟨t, hf' ▸ hft⟩

end Layout
end SchemaKeeper
