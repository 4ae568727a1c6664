import SchemaKeeper.Proofs.Layout.Validators
import SchemaKeeper.Proofs.Validator.Accept

/-!
# Members of stored documents

In the documents of a collection a schema admits members of the paths that the collection owns,
each in the form of its type, and beside them an identifier alone.  The validators of the schema
let through just these documents.
-/
namespace SchemaKeeper

namespace Path

/-- A path within a base is its name below the base, joined. -/
theorem join_under {base path : String} (h : isWithin base path = true) :
    join base (under base path) = path := by
  by_cases hb : base = ""
  · simp [join, under, hb]
  · have hbelow : isBelow base path = true := by simpa [isWithin, hb] using h
    obtain ⟨rest, hrest⟩ := isBelow_iff.1 hbelow
    have hunder : (under base path).toList = rest := by
      rw [under, if_neg hb, hrest, String.toList_ofList,
        show base.toList ++ '.' :: rest = (base.toList ++ ['.']) ++ rest by simp]
      exact List.drop_left' (by simp)
    apply String.toList_inj.1
    rw [join_of_ne_root hb, hrest]
    simp [String.toList_append, hunder]

/-- A proper base of a name without dots below a path is no longer than the path. -/
theorem length_le_of_isBelow_join {base path name : String} (hp : path ≠ "")
    (hn : '.' ∉ name.toList) (h : isBelow base (join path name) = true) :
    base.toList.length ≤ path.toList.length := by
  obtain ⟨rest, hrest⟩ := isBelow_iff.1 h
  have hjoin : (join path name).toList = path.toList ++ '.' :: name.toList := by
    simp [join_of_ne_root hp, String.toList_append]
  rw [hjoin] at hrest
  by_contra hlong
  -- The dot behind the base would lie in the name.
  have hget := congrArg (fun l : List Char => l[base.toList.length]?) hrest
  simp only [List.getElem?_append_right (Nat.le_refl base.toList.length), Nat.sub_self,
    List.getElem?_cons_zero] at hget
  obtain ⟨k, hk⟩ := Nat.exists_eq_add_of_lt (Nat.not_le.1 hlong)
  rw [List.getElem?_append_right (by omega), hk,
    show path.toList.length + k + 1 - path.toList.length = k + 1 by omega,
    List.getElem?_cons_succ] at hget
  exact hn (List.mem_of_getElem? hget)

end Path

namespace Collections
variable {c : Collections} {path name : String}

/-- No candidate that claims a path is longer than its owner. -/
theorem length_le_of_longest {o k : String} : ∀ {candidates : List String},
    longest path candidates = some o → k ∈ candidates → claims k path = true →
      k.length ≤ o.length
  | candidate :: rest, h, hk, hclaims => by
    rw [longest] at h
    cases hrest : longest path rest with
    | none =>
      rcases List.mem_cons.1 hk with rfl | hk
      · simp only [hrest, hclaims, if_true, Option.some.injEq] at h
        exact Nat.le_of_eq (congrArg String.length h)
      · rw [longest_eq_none.1 hrest k hk] at hclaims
        cases hclaims
    | some best =>
      simp only [hrest] at h
      split at h
      · rename_i hlonger
        injection h with h
        subst h
        rcases List.mem_cons.1 hk with rfl | hk
        · exact Nat.le_refl _
        · exact Nat.le_trans (length_le_of_longest hrest hk hclaims)
            (Nat.le_of_lt (of_decide_eq_true (Bool.and_eq_true_iff.1 hlonger).2))
      · rename_i hshorter
        injection h with h
        subst h
        rcases List.mem_cons.1 hk with rfl | hk
        · simpa [hclaims] using hshorter
        · exact length_le_of_longest hrest hk hclaims

/-- A name without dots below a path that has a collection is owned by it. -/
theorem owner?_join (hp : c.contains path = true) (hn : '.' ∉ name.toList)
    (hname : Path.join path name ≠ path) : c.owner? (Path.join path name) = some path := by
  have hclaims : claims path (Path.join path name) = true := by
    simp [claims, Path.isWithin_join, Ne.symm hname]
  have hkey : path ∈ c.keys := Keyed.mem_keys.2 (Keyed.contains_iff.1 hp)
  cases ho : c.owner? (Path.join path name) with
  | none =>
    rw [longest_eq_none.1 ho path hkey] at hclaims
    cases hclaims
  | some o =>
    have hmost := length_le_of_longest ho hkey hclaims
    obtain ⟨-, howns⟩ := mem_of_longest ho
    have hwithin := (Bool.and_eq_true_iff.1 howns).2
    by_cases hroot : path = ""
    · -- Below the root a name without dots lies within nothing else.
      subst hroot
      by_cases hempty : o = ""
      · rw [hempty]
      · have hbelow : Path.isBelow o name = true := by simpa [Path.isWithin, hempty] using hwithin
        obtain ⟨rest, hrest⟩ := Path.isBelow_iff.1 hbelow
        exact absurd (by simp [hrest]) hn
    · have hne : o ≠ "" := by
        rintro rfl
        exact hroot (by simpa using hmost)
      have hbelow : Path.isBelow o (Path.join path name) = true := by
        simpa [Path.isWithin, hne] using hwithin
      have hle := Path.length_le_of_isBelow_join hroot hn hbelow
      obtain ⟨rest, hrest⟩ := Path.isBelow_iff.1 hbelow
      rw [Path.join_of_ne_root hroot] at hrest
      simp only [String.toList_append, List.append_assoc] at hrest
      have hlength : o.toList.length = path.toList.length := by
        simp only [String.length_toList] at hle ⊢
        omega
      exact congrArg some (String.toList_inj.1 (List.append_inj hrest.symm hlength).1)

end Collections

namespace Schema
variable {s s' : Schema} {c : Collections} {path name : String}

/-- The type of a member of the documents at a path: that of the member's own path, if it is the
collection there that owns it. -/
def memberType? (s : Schema) (c : Collections) (path name : String) : Option FieldType :=
  if c.owner? (Path.join path name) = some path then
    (s.get? (Path.join path name)).bind Field.type
  else none

/-- A stored value may stand under a name in the documents at a path. -/
def admits (s : Schema) (c : Collections) (path name : String) (j : Json) : Bool :=
  match s.memberType? c path name with
  | some t => j.suits t.descriptor
  | none => name == "_id"

/-- The types that schemas declare at each path have the same descriptor. -/
def Alike (s s' : Schema) : Prop :=
  ∀ path, ((s.get? path).bind Field.type).map FieldType.descriptor =
    ((s'.get? path).bind Field.type).map FieldType.descriptor

theorem Alike.admits (h : s.Alike s') (j : Json) :
    s.admits c path name j = s'.admits c path name j := by
  have hpath := h (Path.join path name)
  unfold Schema.admits memberType?
  by_cases ho : c.owner? (Path.join path name) = some path
  · rw [if_pos ho, if_pos ho]
    cases hs : (s.get? (Path.join path name)).bind Field.type <;>
      cases hs' : (s'.get? (Path.join path name)).bind Field.type <;> simp_all
  · rw [if_neg ho, if_neg ho]

end Schema

namespace Layout
variable {s s' : Schema} {c : Collections} {v v' : Validators} {rule : Rule}
  {path name key : String} {ds : List FieldDefinition}

/-! ## What definitions say of paths -/

instance : Decidable (Describes ds s) :=
  decidable_of_iff (ds.Pairwise (fun a b => a.path < b.path) ∧
      (∀ d ∈ ds, ∃ t ∈ (s.typeAt d.path).toOption, d.type = FieldType.descriptor t ∧
        (d.collection = none ↔ t.nested?.isNone = true)) ∧
      ∀ e ∈ s.entries, ∃ d ∈ ds, d.path = e.1) <| by
    have htype : ∀ path t, t ∈ (s.typeAt path).toOption ↔ s.typeAt path = .ok t := by
      intro path t
      cases s.typeAt path <;> simp [Except.toOption]
    constructor
    · rintro ⟨hascending, hsound, hcomplete⟩
      refine ⟨hascending, fun d hd => ?_, fun path f hf =>
        hcomplete (path, f) (Keyed.mem_entries_iff.2 hf)⟩
      obtain ⟨t, ht, htyped, hcollection⟩ := hsound d hd
      exact ⟨t, (htype _ _).1 ht, htyped, hcollection.trans Option.isNone_iff_eq_none⟩
    · rintro ⟨hascending, hsound, hcomplete⟩
      refine ⟨hascending, fun d hd => ?_, fun e he =>
        hcomplete e.1 e.2 (Keyed.mem_entries_iff.1 he)⟩
      obtain ⟨t, ht, htyped, hcollection⟩ := hsound d hd
      exact ⟨t, (htype _ _).2 ht, htyped, hcollection.trans Option.isNone_iff_eq_none.symm⟩

/-- What the definitions of a schema say is what the schema declares. -/
theorem Describes.declares_iff (h : Describes ds s) {path : String} {descriptor : Descriptor} :
    ((s.get? path).bind Field.type).map FieldType.descriptor = some descriptor ↔
      ∃ d ∈ ds, d.path = path ∧ d.type = descriptor := by
  constructor
  · intro hdeclared
    obtain ⟨t, ht, rfl⟩ := Option.map_eq_some_iff.1 hdeclared
    obtain ⟨f, hf, hft⟩ := Option.bind_eq_some_iff.1 ht
    obtain ⟨d, hd, rfl⟩ := h.complete path f hf
    obtain ⟨t', ht', htyped, -⟩ := h.sound d hd
    obtain ⟨f', hf', hft'⟩ := Schema.typeAt_eq_ok.1 ht'
    rw [hf] at hf'
    injection hf' with hf'
    rw [hf', hft'] at hft
    injection hft with hft
    exact ⟨d, hd, rfl, hft ▸ htyped⟩
  · rintro ⟨d, hd, rfl, rfl⟩
    obtain ⟨t, ht, htyped, -⟩ := h.sound d hd
    obtain ⟨f, hf, hft⟩ := Schema.typeAt_eq_ok.1 ht
    simp [hf, hft, htyped]

/-- Schemas with the same definitions are alike. -/
theorem Describes.alike (h : Describes ds s) (h' : Describes ds s') : s.Alike s' := by
  intro path
  exact Option.ext fun descriptor => h.declares_iff.trans h'.declares_iff.symm

/-- Where a type ends in a class there is a collection. -/
theorem Describes.seat (h : Describes ds s) {t : FieldType}
    (ht : (s.get? path).bind Field.type = some t) (hn : t.nested?.isSome = true) :
    (FieldDefinition.collections ds).contains path = true := by
  obtain ⟨f, hf, hft⟩ := Option.bind_eq_some_iff.1 ht
  obtain ⟨d, hd, rfl⟩ := h.complete path f hf
  obtain ⟨t', ht', -, hcollection⟩ := h.sound d hd
  rw [Schema.typeAt_eq_ok.2 ⟨f, hf, hft⟩] at ht'
  injection ht' with ht'
  subst ht'
  cases hname : d.collection with
  | none => simp [hcollection.1 hname] at hn
  | some name =>
    exact Keyed.contains_iff.2 ⟨name, (collections_get?_iff h.ascending).2 ⟨d, hd, rfl, hname⟩⟩

/-! ## What validators let through -/

/-- A property once put into a rule stays there, perhaps with another type. -/
theorem assign_keeps {es : List (String × Field)} (h : assign c es v = .ok v')
    (hr : ∃ rule x, v.get? name = some rule ∧ Entries.get? rule.properties key = some x) :
    ∃ rule x, v'.get? name = some rule ∧ Entries.get? rule.properties key = some x := by
  induction es generalizing v with
  | nil =>
    injection h with h
    exact h ▸ hr
  | cons e es ih =>
    obtain ⟨p, field⟩ := e
    rw [assign] at h
    split at h
    · exact ih h hr
    · rename_i n k hh
      obtain ⟨t, -, h⟩ := bind_eq_ok_iff.1 h
      split at h
      · exact ih h hr
      · rename_i other hother
        refine ih h ?_
        obtain ⟨rule, x, hrule, hx⟩ := hr
        by_cases hn : n = name
        · subst hn
          rw [hother] at hrule
          injection hrule with hrule
          subst hrule
          have hkept : ∃ y, Entries.get?
              (other.withProperty k (.ofDescriptor t.descriptor)).properties key = some y := by
            rw [Rule.withProperty, Entries.get?_insert]
            split
            · exact ⟨_, rfl⟩
            · exact ⟨x, hx⟩
          obtain ⟨y, hy⟩ := hkept
          exact ⟨_, y, by rw [Keyed.get?_insert, if_pos rfl], hy⟩
        · exact ⟨rule, x, by rw [Keyed.get?_insert, if_neg hn, hrule], hx⟩

/-- Each path whose home has a rule becomes a property there. -/
theorem assign_property {es : List (String × Field)} {field : Field}
    (h : assign c es v = .ok v') (hin : (path, field) ∈ es)
    (hh : c.home? path = some (name, key)) (hn : v.contains name = true) :
    ∃ rule x, v'.get? name = some rule ∧ Entries.get? rule.properties key = some x := by
  induction es generalizing v with
  | nil => cases hin
  | cons e es ih =>
    rcases List.mem_cons.1 hin with rfl | hin
    · rw [assign, hh] at h
      obtain ⟨t, -, h⟩ := bind_eq_ok_iff.1 h
      obtain ⟨rule, hrule⟩ := Keyed.contains_iff.1 hn
      simp only [hrule] at h
      have hput : Entries.get?
          (rule.withProperty key (.ofDescriptor t.descriptor)).properties key =
            some (.ofDescriptor t.descriptor) := by
        rw [Rule.withProperty, Entries.get?_insert, if_pos rfl]
      exact assign_keeps h ⟨_, _, by rw [Keyed.get?_insert, if_pos rfl], hput⟩
    · rw [assign] at h
      split at h
      · exact ih h hin hn
      · obtain ⟨t, -, h⟩ := bind_eq_ok_iff.1 h
        split at h
        · exact ih h hin hn
        · exact ih h hin (Keyed.contains_insert hn)

/-- The home of a path is the collection of its owner, and its name there the path joined on. -/
theorem home?_iff (ha : c.Apart) (hn : c.get? path = some name) {q : String} :
    c.home? q = some (name, key) ↔ c.owner? q = some path ∧ q = Path.join path key := by
  rw [Collections.home?_eq_some]
  constructor
  · rintro ⟨o, ho, hget, rfl⟩
    have hsame := ha o path name hget hn
    subst hsame
    have hwithin := (Bool.and_eq_true_iff.1 (Collections.owner?_spec ho).2).2
    exact ⟨ho, (Path.join_under hwithin).symm⟩
  · rintro ⟨ho, rfl⟩
    exact ⟨path, ho, hn, (Path.under_join key).symm⟩

/-- The properties of a validator are the rules of the types that the schema declares for the
members of the documents there. -/
theorem get?_properties (hv : validators c s = .ok v) (ha : c.Apart)
    (hn : c.get? path = some name) (hr : v.get? name = some rule) (key : String) :
    Entries.get? rule.properties key =
      ((s.memberType? c path key).map FieldType.descriptor).map Rule.ofDescriptor := by
  have hspeak := validators_speak hv name rule hr
  have hsound : ∀ x, Entries.get? rule.properties key = some x →
      ∃ t, s.memberType? c path key = some t ∧ x = Rule.ofDescriptor t.descriptor := by
    intro x hx
    obtain ⟨q, t, hh, ht, rfl⟩ := hspeak.property key x hx
    obtain ⟨ho, rfl⟩ := (home?_iff ha hn).1 hh
    obtain ⟨f, hf, htype⟩ := Schema.typeAt_eq_ok.1 ht
    exact ⟨t, by rw [Schema.memberType?, if_pos ho, hf, Option.bind_some, htype], rfl⟩
  cases ht : s.memberType? c path key with
  | none =>
    cases hx : Entries.get? rule.properties key with
    | none => rfl
    | some x =>
      obtain ⟨t, ht', -⟩ := hsound x hx
      rw [ht] at ht'
      cases ht'
  | some t =>
    unfold Schema.memberType? at ht
    split at ht
    · rename_i ho
      obtain ⟨f, hf, -⟩ := Option.bind_eq_some_iff.1 ht
      obtain ⟨v₀, h₀, hassign⟩ := bind_eq_ok_iff.1 hv
      have hcontains := titles_contains h₀ (.inr (Keyed.mem_values.2 ⟨path, hn⟩))
      obtain ⟨rule', x, hr', hx⟩ := assign_property hassign (Keyed.mem_entries_iff.2 hf)
        ((home?_iff ha hn).2 ⟨ho, rfl⟩) hcontains
      rw [hr] at hr'
      injection hr' with hr'
      subst hr'
      obtain ⟨t', ht', rfl⟩ := hsound x hx
      rw [Schema.memberType?, if_pos ho, ht] at ht'
      injection ht' with ht'
      rw [hx, ht']
      rfl
    · cases ht

/-- The validator of a collection lets through the documents of which the schema admits every
member. -/
theorem checkDocument_ok_iff (hv : validators c s = .ok v) (ha : c.Apart)
    (hn : c.get? path = some name) (hr : v.get? name = some rule) {ms : List (String × Json)}
    (hm : Entries.Ordered ms) :
    rule.checkDocument (.object ms) = .ok () ↔
      ∀ key j, Entries.get? ms key = some j → s.admits c path key j = true := by
  have hspeak := validators_speak hv name rule hr
  obtain ⟨p, k, ps, -, -, hrule⟩ := hspeak.titled
  have hordered := hspeak.ordered
  have hproperties := get?_properties hv ha hn hr
  subst hrule
  rw [Rule.checkDocument_ok_iff hordered hm hproperties]
  refine forall_congr' fun key => forall_congr' fun j => imp_congr_right fun _ => ?_
  unfold Schema.admits
  cases s.memberType? c path key <;> simp

end Layout
end SchemaKeeper
