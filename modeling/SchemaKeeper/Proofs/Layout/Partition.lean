import SchemaKeeper.Proofs.Layout.Members

/-!
# How validators part a schema

A path continues another if it goes on behind it after a dot, and every path continues the root.  Of
the collection paths that a path continues the longest owns it.  The validators of a schema part its
paths by their owners: each path but the root is a property of the validator at its owner alone,
under what follows the owner, and there are no other properties.
-/
namespace SchemaKeeper

namespace Path
variable {base path name : String}

/-- The path goes on behind the base after a dot; all paths go on from the root. -/
def Continues (base path : String) : Prop := base = "" ∨ ∃ rest, path = base ++ "." ++ rest

theorem isWithin_iff_continues : isWithin base path = true ↔ Continues base path := by
  rw [isWithin, Continues, Bool.or_eq_true, decide_eq_true_iff, isBelow_iff]
  refine or_congr_right ⟨?_, ?_⟩
  · rintro ⟨rest, hrest⟩
    exact ⟨String.ofList rest, String.toList_inj.1 (by simp [hrest])⟩
  · rintro ⟨rest, rfl⟩
    exact ⟨rest.toList, by simp⟩

/-- A path continues no two bases of one length. -/
theorem Continues.eq_of_length {base' : String} (h : Continues base path)
    (h' : Continues base' path) (hlength : base.length = base'.length) : base = base' := by
  rcases h with rfl | ⟨rest, rfl⟩
  · exact (String.length_eq_zero_iff.1 hlength.symm).symm
  · rcases h' with rfl | ⟨rest', hrest'⟩
    · exact String.length_eq_zero_iff.1 hlength
    · have hlist := congrArg String.toList hrest'
      simp only [String.toList_append, List.append_assoc] at hlist
      rw [← String.length_toList, ← String.length_toList] at hlength
      exact String.toList_inj.1 (List.append_inj hlist hlength).1

/-- A name below a base is what the path is joined from. -/
theorem under_eq_iff (h : Continues base path) :
    under base path = name ↔ join base name = path := by
  refine ⟨?_, ?_⟩
  · rintro rfl
    exact join_under (isWithin_iff_continues.2 h)
  · rintro rfl
    exact under_join name

end Path

namespace Collections
variable {c : Collections} {owner owner' path : String}

/-- The owner of a path is the longest collection path that the path continues. -/
structure Owns (c : Collections) (owner path : String) : Prop where
  seat : c.contains owner = true
  continues : Path.Continues owner path
  longest : ∀ q, c.contains q = true → Path.Continues q path → q.length ≤ owner.length

theorem Owns.unique (h : c.Owns owner path) (h' : c.Owns owner' path) : owner = owner' :=
  h.continues.eq_of_length h'.continues <| Nat.le_antisymm
    (h'.longest owner h.seat h.continues) (h.longest owner' h'.seat h'.continues)

/-- A collection path claims every path but itself that continues it. -/
theorem claims_iff (hp : path ≠ "") : claims owner path = true ↔ Path.Continues owner path := by
  rw [claims, Bool.and_eq_true, Path.isWithin_iff_continues, bne_iff_ne, and_iff_right_iff_imp]
  rintro (rfl | ⟨rest, hrest⟩) rfl
  · exact hp rfl
  · have hlength := congrArg String.length hrest
    simp only [String.length_append] at hlength
    have hdot : ".".length = 1 := rfl
    omega

/-- The search finds the owner of every path but the root. -/
theorem owner?_eq_some_iff (hp : path ≠ "") : c.owner? path = some owner ↔ c.Owns owner path := by
  have hseat : ∀ {q}, q ∈ c.keys ↔ c.contains q = true := fun {q} =>
    Keyed.mem_keys.trans Keyed.contains_iff.symm
  have hsound : ∀ {o}, c.owner? path = some o → c.Owns o path := by
    intro o ho
    obtain ⟨hmem, hclaims⟩ := mem_of_longest ho
    exact ⟨hseat.1 hmem, (claims_iff hp).1 hclaims, fun q hq hcontinues =>
      length_le_of_longest ho (hseat.2 hq) ((claims_iff hp).2 hcontinues)⟩
  refine ⟨hsound, fun h => ?_⟩
  cases ho : c.owner? path with
  | none =>
    have hfalse := longest_eq_none.1 ho owner (hseat.2 h.seat)
    rw [(claims_iff hp).2 h.continues] at hfalse
    cases hfalse
  | some o => rw [(hsound ho).unique h]

instance : Decidable c.Apart :=
  decidable_of_iff (∀ e ∈ c.entries, ∀ f ∈ c.entries, e.2 = f.2 → e.1 = f.1) <| by
    constructor
    · intro h p q name hp hq
      exact h (p, name) (Keyed.mem_entries_iff.2 hp) (q, name) (Keyed.mem_entries_iff.2 hq) rfl
    · intro h e he f hf hname
      exact h e.1 f.1 e.2 (Keyed.mem_entries_iff.1 he) (hname ▸ Keyed.mem_entries_iff.1 hf)

end Collections

namespace Layout
variable {s : Schema} {c : Collections} {v : Validators} {owner key : String} {x : Rule}

/-- The property of a name in the validator of the collection at a path. -/
def propertyAt? (c : Collections) (v : Validators) (owner key : String) : Option Rule := do
  let name ← c.get? owner
  let rule ← v.get? name
  Entries.get? rule.properties key

/-- The validators part the paths of a schema among the collections. -/
structure Parts (s : Schema) (c : Collections) (v : Validators) : Prop where
  /-- Every collection has a validator, and there are no others. -/
  names : ∀ name, v.contains name = true ↔ name ∈ c.values
  /-- Beside its properties a validator has the class of its documents as its title, no more. -/
  titled : ∀ owner name, c.get? owner = some name → ∃ k ps, classAt s owner = .ok k ∧
    v.get? name = some { Rule.collection k.name with properties := ps }
  /-- The properties are the paths but the root, each at its owner, with the rule of its type. -/
  property : ∀ owner key x, propertyAt? c v owner key = some x ↔ ∃ path t, path ≠ "" ∧
    s.typeAt path = .ok t ∧ c.Owns owner path ∧ Path.join owner key = path ∧
      x = .ofDescriptor t.descriptor
  /-- Each path but the root is a property once. -/
  once : ∀ path, path ≠ "" → s.contains path = true → ∃! place : String × String,
    Path.join place.1 place.2 = path ∧ (propertyAt? c v place.1 place.2).isSome = true

/-- What the validators have as a property is a path at its owner. -/
theorem propertyAt?_eq_some_iff (hv : validators c s = .ok v) (ha : c.Apart) :
    propertyAt? c v owner key = some x ↔ ∃ path t, path ≠ "" ∧ s.typeAt path = .ok t ∧
      c.Owns owner path ∧ Path.join owner key = path ∧ x = .ofDescriptor t.descriptor := by
  have hmember : ∀ {t}, s.memberType? c owner key = some t ↔ Path.join owner key ≠ "" ∧
      s.typeAt (Path.join owner key) = .ok t ∧ c.Owns owner (Path.join owner key) := by
    intro t
    rw [Schema.memberType?, Schema.typeAt_eq_ok, ← Option.bind_eq_some_iff]
    by_cases hp : Path.join owner key = ""
    · simp [hp]
    · have hiff : c.owner? (Path.join owner key) = some owner ↔
          c.Owns owner (Path.join owner key) := Collections.owner?_eq_some_iff hp
      split
      · rename_i howner
        simp [hp, hiff.1 howner]
      · rename_i howner
        simp [hiff.not.1 howner]
  cases hn : c.get? owner with
  | none =>
    refine iff_of_false (by simp [propertyAt?, hn]) ?_
    rintro ⟨path, t, -, -, howns, -⟩
    obtain ⟨name, hname⟩ := Keyed.contains_iff.1 howns.seat
    rw [hn] at hname
    cases hname
  | some name =>
    obtain ⟨rule, hr⟩ := exists_validator hv (Keyed.mem_values.2 ⟨owner, hn⟩)
    have hproperty : propertyAt? c v owner key = Entries.get? rule.properties key := by
      simp [propertyAt?, hn, hr]
    rw [hproperty, get?_properties hv ha hn hr, Option.map_map, Option.map_eq_some_iff]
    constructor
    · rintro ⟨t, ht, rfl⟩
      obtain ⟨hp, htype, howns⟩ := hmember.1 ht
      exact ⟨_, t, hp, htype, howns, rfl, rfl⟩
    · rintro ⟨path, t, hp, htype, howns, rfl, rfl⟩
      exact ⟨t, hmember.2 ⟨hp, htype, howns⟩, rfl⟩

/-- Validators of a schema part its paths if the root is among the collections. -/
theorem parts_of_validators (hv : validators c s = .ok v) (ha : c.Apart)
    (hroot : c.contains "" = true)
    (htyped : ∀ path f, s.get? path = some f → ∃ t, f.type = some t) : Parts s c v where
  names name := by
    refine ⟨fun h => ?_, fun h => Keyed.contains_iff.2 (exists_validator hv h)⟩
    obtain ⟨rule, hrule⟩ := Keyed.contains_iff.1 h
    obtain ⟨path, k, ps, hpath, -⟩ := (validators_speak hv name rule hrule).titled
    exact Keyed.mem_values.2 ⟨path, hpath⟩
  titled owner name hn := by
    obtain ⟨rule, hrule⟩ := exists_validator hv (Keyed.mem_values.2 ⟨owner, hn⟩)
    obtain ⟨path, k, ps, hpath, hk, rfl⟩ := (validators_speak hv name rule hrule).titled
    obtain rfl := ha path owner name hpath hn
    exact ⟨k, ps, hk, hrule⟩
  property owner key x := propertyAt?_eq_some_iff hv ha
  once path hp hs := by
    obtain ⟨f, hf⟩ := Keyed.contains_iff.1 hs
    obtain ⟨t, ht⟩ := htyped path f hf
    have htype : s.typeAt path = .ok t := Schema.typeAt_eq_ok.2 ⟨f, hf, ht⟩
    obtain ⟨owner, howner⟩ := Collections.exists_owner? (Keyed.contains_iff.1 hroot) hp
    have howns := (Collections.owner?_eq_some_iff hp).1 howner
    have hjoin := (Path.under_eq_iff howns.continues).1 rfl
    have hproperty := (propertyAt?_eq_some_iff hv ha).2 ⟨path, t, hp, htype, howns, hjoin, rfl⟩
    refine ⟨(owner, Path.under owner path), ⟨hjoin, by rw [hproperty]; rfl⟩, ?_⟩
    rintro ⟨owner', key⟩ ⟨hjoin', hsome⟩
    obtain ⟨x, hx⟩ := Option.isSome_iff_exists.1 hsome
    obtain ⟨path', -, -, -, howns', hpath', -⟩ := (propertyAt?_eq_some_iff hv ha).1 hx
    obtain rfl := hpath'.symm.trans hjoin'
    obtain rfl := howns.unique howns'
    rw [(Path.under_eq_iff howns.continues).2 hpath']

/-- Over collections of distinct names that stand exactly where types end in classes, the root among
them, a schema whose fields are all typed has validators, and these part it: there is one for each
collection, titled with the class there; each path but the root is a property of exactly one, that
at the longest collection path which it continues, under what it joins to that path and with the
rule of its type; and they have no other properties. -/
theorem validators_part {k : DocClass} {root : FieldType} (hroot : s.typeAt "" = .ok root)
    (hk : root.nested? = some k)
    (htyped : ∀ path f, s.get? path = some f → ∃ t, f.type = some t)
    (hc : ∀ path, c.contains path = true ↔ ∃ t k, s.typeAt path = .ok t ∧ t.nested? = some k)
    (ha : c.Apart) : ∃ v, validators c s = .ok v ∧ Parts s c v := by
  have hclass : ∀ path name, c.get? path = some name → ∃ k, classAt s path = .ok k := by
    intro path name hn
    obtain ⟨t, k, ht, hk⟩ := (hc path).1 (Keyed.contains_iff.2 ⟨name, hn⟩)
    exact ⟨k, classAt_eq_ok.2 ⟨t, ht, hk⟩⟩
  obtain ⟨v, hv⟩ := exists_validators_of_typed hclass htyped
  exact ⟨v, hv, parts_of_validators hv ha ((hc "").2 ⟨root, k, hroot, hk⟩) htyped⟩

/-- The collections of definitions stand exactly where the types of the schema end in classes. -/
theorem Describes.contains_iff {ds : List FieldDefinition} (h : Describes ds s) {path : String} :
    (FieldDefinition.collections ds).contains path = true ↔
      ∃ t k, s.typeAt path = .ok t ∧ t.nested? = some k := by
  refine ⟨fun hpath => ?_, ?_⟩
  · obtain ⟨name, hname⟩ := Keyed.contains_iff.1 hpath
    obtain ⟨k, hk⟩ := h.classAt_ok hname
    obtain ⟨t, ht, hnested⟩ := classAt_eq_ok.1 hk
    exact ⟨t, k, ht, hnested⟩
  · rintro ⟨t, k, ht, hk⟩
    obtain ⟨f, hf, htype⟩ := Schema.typeAt_eq_ok.1 ht
    exact h.seat (by rw [hf, Option.bind_some, htype]) (by rw [hk]; rfl)

section Sample

/-- Tags with notes of their own.  A name that starts like theirs, one with dots inside and the
empty one are no collections. -/
def taggedSchema : Schema := .ofTypes
  [("", some (.document ⟨"Sample", [], []⟩)), ("tags", some (.list (.document ⟨"Tag", [], []⟩))),
    ("tags.notes", some (.dict (.document ⟨"Note", [], []⟩))),
    ("tags.notes.text", some (.scalar .string)), ("tags.a.b", some (.scalar .float)),
    ("tags.", some (.scalar .bool)), ("tagsx", some (.scalar .int))]

/-- What is recorded of it. -/
def taggedDefinitions : List FieldDefinition :=
  [⟨"", .document "Sample", some "sample.1"⟩, ⟨"tags", .list (.document "Tag"), some "tag.2"⟩,
    ⟨"tags.", .scalar .bool, none⟩, ⟨"tags.a.b", .scalar .float, none⟩,
    ⟨"tags.notes", .dict (.document "Note"), some "note.3"⟩,
    ⟨"tags.notes.text", .scalar .string, none⟩, ⟨"tagsx", .scalar .int, none⟩]

def taggedCollections : Collections := FieldDefinition.collections taggedDefinitions

theorem validators_part_tagged : ∃ v, validators taggedCollections taggedSchema = .ok v ∧
    propertyAt? taggedCollections v "tags.notes" "text" = some (.ofType .string) ∧
    propertyAt? taggedCollections v "tags" "" = some (.ofType .bool) ∧
    propertyAt? taggedCollections v "" "tagsx" = some (.ofType .long) ∧
    ∃! place : String × String, Path.join place.1 place.2 = "tags.a.b" ∧
      (propertyAt? taggedCollections v place.1 place.2).isSome = true := by
  have hdescribes : Describes taggedDefinitions taggedSchema := by decide +kernel
  have htyped : ∀ path f, taggedSchema.get? path = some f → ∃ t, f.type = some t := by
    have hall : ∀ e ∈ taggedSchema.entries, e.2.type.isSome = true := by decide +kernel
    exact fun path f hf =>
      Option.isSome_iff_exists.1 (hall (path, f) (Keyed.mem_entries_iff.2 hf))
  have hroot : taggedSchema.typeAt "" = .ok (.document ⟨"Sample", [], []⟩) := rfl
  obtain ⟨v, hv, hparts⟩ := validators_part (c := taggedCollections) hroot rfl htyped
    (fun path => hdescribes.contains_iff) (by decide +kernel)
  have howns : ∀ {owner path}, path ≠ "" → taggedCollections.owner? path = some owner →
      taggedCollections.Owns owner path := fun hp => (Collections.owner?_eq_some_iff hp).1
  refine ⟨v, hv, (hparts.property _ _ _).2 ?_, (hparts.property _ _ _).2 ?_,
    (hparts.property _ _ _).2 ?_, hparts.once _ (by decide) (by decide +kernel)⟩
  · exact ⟨"tags.notes.text", .scalar .string, by decide, rfl,
      howns (by decide) (by decide +kernel), by decide, rfl⟩
  · exact ⟨"tags.", .scalar .bool, by decide, rfl, howns (by decide) (by decide +kernel),
      by decide, rfl⟩
  · exact ⟨"tagsx", .scalar .int, by decide, rfl, howns (by decide) (by decide +kernel),
      by decide, rfl⟩

end Sample

end Layout
end SchemaKeeper
