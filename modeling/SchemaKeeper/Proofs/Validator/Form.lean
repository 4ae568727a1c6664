import SchemaKeeper.Proofs.Json
import SchemaKeeper.Validator.Form

/-!
# Rules go through their stored form

A rule of any depth is read back from its document as it was if, at every node of it, the
properties stand in the order of their names and the numbers of items are unsigned words of 64
bits.  What is read from the document of the rule of a collection is this rule, unless it cannot be
read at all: a tuple of more positions than such a word counts is refused.
-/
namespace SchemaKeeper

namespace Shape
variable {κ : Type}

mutual

/-- No tuple in the type has more positions than an unsigned word of 64 bits can count. -/
def isCounted : Shape κ → Bool
  | .scalar _ => true
  | .list t => isCounted t
  | .dict t => isCounted t
  | .tuple ts => decide (ts.length < UInt64.size) && allCounted ts
  | .document _ => true

def allCounted : List (Shape κ) → Bool
  | [] => true
  | t :: ts => isCounted t && allCounted ts

end

end Shape

namespace Rule

/-! ## Members of a stored rule -/

/-- The members of the stored form of a rule. -/
def members (r : Rule) : List (String × Json) :=
  valuesMember r.values ++ optional "bsonType" (fun t => .string t.text) r.type
    ++ itemsMember r.items ++ optional "maxItems" (fun n => .int (Int.ofNat n)) r.maxItems
    ++ optional "minItems" (fun n => .int (Int.ofNat n)) r.minItems
    ++ (match r.properties with
      | [] => []
      | p :: ps => [("properties", .object (propertyMembers (p :: ps)))])
    ++ optional "title" .string r.title

theorem json_eq (r : Rule) : r.json = .object r.members := by
  obtain ⟨type, title, properties, items, values, minItems, maxItems⟩ := r
  cases properties <;> simp [json, members]

theorem keys_optional {α : Type} (name : String) (f : α → Json) (o : Option α) :
    ((optional name f o).map Prod.fst).Sublist [name] := by
  cases o <;> simp [optional]

theorem keys_valuesMember (o : Option Rule) :
    ((valuesMember o).map Prod.fst).Sublist ["additionalProperties"] := by
  cases o <;> simp [valuesMember]

theorem keys_itemsMember (o : Option (Items Rule)) :
    ((itemsMember o).map Prod.fst).Sublist ["items"] := by
  rcases o with - | - | - <;> simp [itemsMember]

/-- Each member stands at most once, in ascending order. -/
theorem keys_members (r : Rule) : (r.members.map Prod.fst).Sublist
    ["additionalProperties", "bsonType", "items", "maxItems", "minItems", "properties",
      "title"] := by
  have hp : ((match r.properties with
      | [] => []
      | p :: ps => [("properties", Json.object (propertyMembers (p :: ps)))]).map
        Prod.fst).Sublist ["properties"] := by
    cases r.properties <;> simp
  simp only [members, List.map_append]
  exact ((((((keys_valuesMember _).append (keys_optional _ _ _)).append
    (keys_itemsMember _)).append (keys_optional _ _ _)).append (keys_optional _ _ _)).append
    hp).append (keys_optional _ _ _)

theorem record?_json (r : Rule) :
    (Tree.ofJson r.json).record? memberNames = some (Tree.ofMembers r.members) := by
  rw [json_eq]
  refine Tree.record?_object (fun m hm => ?_) ((keys_members r).nodup (by decide))
  have hk := (keys_members r).subset (List.mem_map_of_mem hm)
  simp only [List.mem_cons, List.not_mem_nil, or_false] at hk
  rcases hk with hk | hk | hk | hk | hk | hk | hk <;> simp [hk, memberNames]

@[simp] theorem get?_optional {α : Type} (name : String) (f : α → Json) (o : Option α)
    (q : String) : Entries.get? (optional name f o) q = if name = q then o.map f else none := by
  cases o <;> simp [optional]

@[simp] theorem get?_valuesMember (o : Option Rule) (q : String) :
    Entries.get? (valuesMember o) q =
      if "additionalProperties" = q then o.map json else none := by
  cases o <;> simp [valuesMember]

/-- The stored form of the rules for the items of an array. -/
def itemsJson : Items Rule → Json
  | .all r => json r
  | .each rs => .array (jsonAll rs)

@[simp] theorem get?_itemsMember (o : Option (Items Rule)) (q : String) :
    Entries.get? (itemsMember o) q = if "items" = q then o.map itemsJson else none := by
  rcases o with - | - | - <;> simp [itemsMember, itemsJson]

/-- What is stored of the properties of a rule: nothing where it has none. -/
def propertiesJson : List (String × Rule) → Option Json
  | [] => none
  | p :: ps => some (.object (propertyMembers (p :: ps)))

theorem get?_members (r : Rule) (q : String) : Entries.get? r.members q =
    if "additionalProperties" = q then r.values.map json
    else if "bsonType" = q then r.type.map fun t => .string t.text
    else if "items" = q then r.items.map itemsJson
    else if "maxItems" = q then r.maxItems.map fun n => .int (Int.ofNat n)
    else if "minItems" = q then r.minItems.map fun n => .int (Int.ofNat n)
    else if "properties" = q then propertiesJson r.properties
    else if "title" = q then r.title.map .string
    else none := by
  have hp : Entries.get? (match r.properties with
      | [] => []
      | p :: ps => [("properties", Json.object (propertyMembers (p :: ps)))]) q =
      if "properties" = q then propertiesJson r.properties else none := by
    cases r.properties <;> simp [propertiesJson]
  simp only [members, Entries.get?_append, get?_valuesMember, get?_optional, get?_itemsMember, hp]
  grind

/-! ## Reading a stored rule -/

/-- The properties that the members of a record say. -/
def properties? (ms : List (String × Tree)) : Option (List (String × Rule)) :=
  match Entries.get? ms "properties" with
  | none => some []
  | some (.object ps) => (ofProperties? ps).map Entries.ofList
  | some _ => none

/-- The rules for items that the members of a record say. -/
def items? (ms : List (String × Tree)) : Option (Option (Items Rule)) :=
  match Entries.get? ms "items" with
  | none => some none
  | some .null => some none
  | some (.array ts) =>
    if (Tree.array ts).isReadable then
      match ofAll? ts with
      | some rs => some (some (.each rs))
      | none => (ofTree? (.array ts)).map fun r => some (.all r)
    else none
  | some c => if c.isReadable then (ofTree? c).map fun r => some (.all r) else none

/-- The rule for all members of an object that the members of a record say. -/
def values? (ms : List (String × Tree)) : Option (Option Rule) :=
  match Entries.get? ms "additionalProperties" with
  | none => some none
  | some .null => some none
  | some c => (ofTree? c).map some

/-- A tree says a rule part by part. -/
theorem ofTree?_eq (t : Tree) : ofTree? t = (do
    let ms ← t.record? memberNames
    let type ← Tree.orElse? (Tree.nullable? typeOfTree?) none ms "bsonType"
    let title ← Tree.orElse? (Tree.nullable? Tree.string?) none ms "title"
    let minItems ← Tree.orElse? (Tree.nullable? Tree.word?) none ms "minItems"
    let maxItems ← Tree.orElse? (Tree.nullable? Tree.word?) none ms "maxItems"
    let properties ← properties? ms
    let items ← items? ms
    let values ← values? ms
    return ⟨type, title, properties, items, values, minItems, maxItems⟩) := by
  rw [ofTree?]
  split
  · rename_i h
    rw [h]
    rfl
  · rename_i ms h
    simp only [h, Option.bind_eq_bind, Option.bind_some]
    refine Option.bind_congr fun type _ => Option.bind_congr fun title _ =>
      Option.bind_congr fun low _ => Option.bind_congr fun high _ => ?_
    unfold properties? items? values?
    split <;> rename_i hp <;> simp only [hp, Option.bind_some, Option.bind_none]
    all_goals
      try refine Option.bind_congr fun properties _ => ?_
      split <;> rename_i hi <;> simp only [hi, Option.bind_some]
      · split <;> rename_i hv <;> simp [hv]
      · split <;> rename_i hv <;> simp [hv]
      · rename_i ts
        by_cases hread : (Tree.array ts).isReadable = true
        · rw [if_pos hread, if_pos hread]
          cases ho : ofAll? ts with
          | none =>
            refine Option.bind_congr fun items _ => ?_
            split <;> rename_i hv <;> simp [hv]
          | some rs =>
            simp only [Option.bind_some]
            split <;> rename_i hv <;> simp [hv]
        · rw [if_neg hread, if_neg hread]
          rfl
      · split
        · refine Option.bind_congr fun items _ => ?_
          split <;> rename_i hv <;> simp [hv]
        · rfl

theorem ne_null_of_mem_members {r : Rule} {m : String × Json} (hm : m ∈ r.members) :
    m.2 ≠ .null := by
  have hopt : ∀ {α : Type} {name : String} {f : α → Json} {o : Option α}, (∀ a, f a ≠ .null) →
      m ∈ optional name f o → m.2 ≠ .null := by
    intro α name f o hf h
    cases o with
    | none => cases h
    | some a => exact List.mem_singleton.1 h ▸ hf a
  simp only [members, List.mem_append] at hm
  rcases hm with (((((hm | hm) | hm) | hm) | hm) | hm) | hm
  · cases hv : r.values with
    | none => simp [hv, valuesMember] at hm
    | some x => simp_all [valuesMember, json_eq]
  · exact hopt (by simp) hm
  · rcases hi : r.items with - | (xs | x)
    · simp [hi, itemsMember] at hm
    · rw [hi, itemsMember, List.mem_singleton] at hm
      simp [hm]
    · rw [hi, itemsMember, List.mem_singleton] at hm
      simp [hm, json_eq]
  · exact hopt (by simp) hm
  · exact hopt (by simp) hm
  · cases hp : r.properties <;> simp_all
  · exact hopt (by simp) hm

/-- The stored form of a rule is not the name of a storage type. -/
theorem nullable?_typeOfTree?_json (r : Rule) :
    Tree.nullable? typeOfTree? (Tree.ofJson r.json) = none := by
  have hnull : ∀ t, (∃ name, Tree.ofMembers r.members = [(name, t)]) → t ≠ .null := by
    rintro t ⟨name, h⟩ rfl
    rw [Tree.ofMembers_eq_map] at h
    obtain ⟨m, hm, hmt⟩ := List.mem_map.1 (h ▸ List.mem_singleton_self (name, Tree.null))
    have hj := ne_null_of_mem_members hm
    cases hj' : m.2 <;> simp_all [Tree.ofJson]
  have hchoice : (Tree.object (Tree.ofMembers r.members)).choice? false = none := by
    unfold Tree.choice?
    split
    · simp_all
    · rename_i name h
      injection h with h
      exact absurd rfl (hnull .null ⟨name, h⟩)
    · rfl
    · rfl
  rw [json_eq, Tree.ofJson]
  simp [Tree.nullable?, typeOfTree?, hchoice]

/-- The stored forms of rules, one after the other, are not a rule given by its members. -/
theorem ofTree?_jsonAll {rs : List Rule} (h : rs ≠ []) :
    ofTree? (.array (Tree.ofItems (jsonAll rs))) = none := by
  obtain ⟨r, rs, rfl⟩ := List.exists_cons_of_ne_nil h
  rw [ofTree?_eq, jsonAll, Tree.ofItems, Tree.record?]
  split
  · simp [memberNames, Tree.orElse?, nullable?_typeOfTree?_json]
  · rfl

/-- What reading the stored form of a rule takes over from the rule. -/
theorem of_ofTree?_json {r r' : Rule} (h : ofTree? (Tree.ofJson r.json) = some r') :
    r'.type = r.type ∧ r'.title = r.title ∧ r'.minItems = r.minItems ∧ r'.maxItems = r.maxItems ∧
    (∃ ps, ofProperties? (Tree.ofMembers (propertyMembers r.properties)) = some ps ∧
      r'.properties = Entries.ofList ps) ∧
    (match r.items with
      | none => r'.items = none
      | some (.all x) => ∃ y, ofTree? (Tree.ofJson x.json) = some y ∧ r'.items = some (.all y)
      | some (.each xs) =>
        ∃ ys, ofAll? (Tree.ofItems (jsonAll xs)) = some ys ∧ r'.items = some (.each ys)) ∧
    (match r.values with
      | none => r'.values = none
      | some x => ∃ y, ofTree? (Tree.ofJson x.json) = some y ∧ r'.values = some y) := by
  rw [ofTree?_eq, record?_json] at h
  simp only [Option.bind_eq_bind, Option.bind_some, Option.bind_eq_some_iff] at h
  obtain ⟨type, htype, title, htitle, low, hlow, high, hhigh, ps, hps, items, hitems, values,
    hvalues, h⟩ := h
  injection h with h
  subst h
  simp only [Tree.orElse?, properties?, items?, values?, Tree.get?_ofMembers, get?_members]
    at htype htitle hlow hhigh hps hitems hvalues
  refine ⟨?_, ?_, ?_, ?_, ?_, ?_, ?_⟩
  · cases ht : r.type <;> simp_all [Tree.ofJson, Tree.nullable?, typeOfTree?, Tree.choice?,
      StorageType.ofText?_text]
  · cases ht : r.title <;> simp_all [Tree.ofJson, Tree.nullable?, Tree.string?]
  · cases hn : r.minItems <;> simp_all [Tree.ofJson, Tree.nullable?, Tree.word?]
  · cases hn : r.maxItems <;> simp_all [Tree.ofJson, Tree.nullable?, Tree.word?]
  · cases hp : r.properties with
    | nil =>
      refine ⟨[], by simp [propertyMembers, Tree.ofMembers, ofProperties?], ?_⟩
      simpa [hp, propertiesJson, Entries.ofList, eq_comm] using hps
    | cons p rest =>
      simp [hp, propertiesJson, Tree.ofJson] at hps
      obtain ⟨rs, hrs, hps⟩ := hps
      exact ⟨rs, hrs, hps.symm⟩
  · rcases hi : r.items with - | (xs | x)
    · simpa [hi, eq_comm] using hitems
    · have hread : (Tree.array (Tree.ofItems (jsonAll xs))).isReadable = true :=
        Tree.isReadable_ofJson (.array (jsonAll xs))
      simp [hi, itemsJson, Tree.ofJson, hread] at hitems
      cases xs with
      | nil => simpa [jsonAll, Tree.ofItems, ofAll?, eq_comm] using hitems
      | cons x xs =>
        rw [ofTree?_jsonAll (by simp)] at hitems
        split at hitems
        · rename_i ys hys
          injection hitems with hitems
          exact ⟨ys, hys, hitems.symm⟩
        · cases hitems
    · have hread := Tree.isReadable_ofJson (json x)
      rw [json_eq, Tree.ofJson] at hread
      simp [hi, itemsJson, json_eq, Tree.ofJson, hread] at hitems
      obtain ⟨y, hy, hitems⟩ := hitems
      exact ⟨y, by rw [json_eq, Tree.ofJson, hy], hitems.symm⟩
  · cases hv : r.values with
    | none => simpa [hv, eq_comm] using hvalues
    | some x =>
      simp [hv, json_eq, Tree.ofJson] at hvalues
      obtain ⟨y, hy, hvalues⟩ := hvalues
      exact ⟨y, by rw [json_eq, Tree.ofJson, hy], hvalues.symm⟩

mutual

/-- What is read from the stored form of the rule of a type is this rule. -/
theorem eq_of_ofTree?_ofDescriptor :
    ∀ (d : Descriptor) {r : Rule}, ofTree? (Tree.ofJson (ofDescriptor d).json) = some r →
      r = ofDescriptor d
  | .scalar k, ⟨_, _, _, _, _, _, _⟩, h => by
    obtain ⟨h1, h2, h3, h4, ⟨ps, hps, h5⟩, h6, h7⟩ := of_ofTree?_json h
    cases k <;> simp_all [ofDescriptor, ofScalar, any, ofType, propertyMembers, Tree.ofMembers,
      ofProperties?, Entries.ofList]
  | .list t, ⟨_, _, _, _, _, _, _⟩, h => by
    obtain ⟨h1, h2, h3, h4, ⟨ps, hps, h5⟩, h6, h7⟩ := of_ofTree?_json h
    obtain ⟨y, hy, h6⟩ := h6
    have ih := eq_of_ofTree?_ofDescriptor t hy
    simp_all [ofDescriptor, any, propertyMembers, Tree.ofMembers, ofProperties?, Entries.ofList]
  | .dict t, ⟨_, _, _, _, _, _, _⟩, h => by
    obtain ⟨h1, h2, h3, h4, ⟨ps, hps, h5⟩, h6, h7⟩ := of_ofTree?_json h
    obtain ⟨y, hy, h7⟩ := h7
    have ih := eq_of_ofTree?_ofDescriptor t hy
    simp_all [ofDescriptor, any, propertyMembers, Tree.ofMembers, ofProperties?, Entries.ofList]
  | .tuple ts, ⟨_, _, _, _, _, _, _⟩, h => by
    obtain ⟨h1, h2, h3, h4, ⟨ps, hps, h5⟩, h6, h7⟩ := of_ofTree?_json h
    obtain ⟨ys, hys, h6⟩ := h6
    have ih := eq_of_ofAll?_ofDescriptors ts hys
    simp_all [ofDescriptor, any, propertyMembers, Tree.ofMembers, ofProperties?, Entries.ofList]
  | .document c, ⟨_, _, _, _, _, _, _⟩, h => by
    obtain ⟨h1, h2, h3, h4, ⟨ps, hps, h5⟩, h6, h7⟩ := of_ofTree?_json h
    simp_all [ofDescriptor, any, propertyMembers, Tree.ofMembers, ofProperties?, Entries.ofList]

theorem eq_of_ofAll?_ofDescriptors :
    ∀ (ds : List Descriptor) {rs : List Rule},
      ofAll? (Tree.ofItems (jsonAll (ofDescriptors ds))) = some rs → rs = ofDescriptors ds
  | [], rs, h => by
    simpa [ofDescriptors, jsonAll, Tree.ofItems, ofAll?, eq_comm] using h
  | d :: ds, rs, h => by
    rw [ofDescriptors, jsonAll, Tree.ofItems, ofAll?] at h
    simp only [Option.bind_eq_bind, Option.bind_eq_some_iff] at h
    obtain ⟨x, hx, xs, hxs, h⟩ := h
    injection h with h
    rw [← h, ofDescriptors, eq_of_ofTree?_ofDescriptor d hx, eq_of_ofAll?_ofDescriptors ds hxs]

end

/-- An optional member is read back, if its values are. -/
theorem orElse?_ofMembers_map {α : Type} {decode : Tree → Option α} {f : α → Json}
    {ms : List (String × Json)} {name : String} {o : Option α}
    (hget : Entries.get? ms name = o.map f)
    (hdecode : ∀ a ∈ o, Tree.nullable? decode (Tree.ofJson (f a)) = some (some a)) :
    Tree.orElse? (Tree.nullable? decode) none (Tree.ofMembers ms) name = some o := by
  rw [Tree.orElse?, Tree.get?_ofMembers, hget]
  cases o with
  | none => rfl
  | some a => exact hdecode a rfl

theorem nullable?_word?_of_lt {n : Nat} (h : n < UInt64.size) :
    Tree.nullable? Tree.word? (Tree.ofJson (.int (Int.ofNat n))) = some (some n) := by
  have hword : (n : Int) < 18446744073709551616 := Int.ofNat_lt.2 h
  simp [Tree.ofJson, Tree.nullable?, Tree.word?, hword]

/-- A rule whose parts are read from their stored form is read from its own, if its numbers of items
are words of 64 bits. -/
theorem ofTree?_json {r : Rule} {ps : List (String × Rule)}
    (hlow : ∀ n ∈ r.minItems, n < UInt64.size) (hhigh : ∀ n ∈ r.maxItems, n < UInt64.size)
    (hps : ofProperties? (Tree.ofMembers (propertyMembers r.properties)) = some ps)
    (hitems : match r.items with
      | none => True
      | some (.all x) => ofTree? (Tree.ofJson x.json) = some x
      | some (.each xs) => ofAll? (Tree.ofItems (jsonAll xs)) = some xs)
    (hvalues : ∀ x ∈ r.values, ofTree? (Tree.ofJson x.json) = some x) :
    ofTree? (Tree.ofJson r.json) = some { r with properties := Entries.ofList ps } := by
  have htype : Tree.orElse? (Tree.nullable? typeOfTree?) none (Tree.ofMembers r.members)
      "bsonType" = some r.type :=
    orElse?_ofMembers_map (get?_members r _) fun t _ => by
      simp [Tree.ofJson, Tree.nullable?, typeOfTree?, Tree.choice?, StorageType.ofText?_text]
  have htitle : Tree.orElse? (Tree.nullable? Tree.string?) none (Tree.ofMembers r.members) "title" =
      some r.title := orElse?_ofMembers_map (get?_members r _) fun _ _ => rfl
  have hmin : Tree.orElse? (Tree.nullable? Tree.word?) none (Tree.ofMembers r.members) "minItems" =
      some r.minItems :=
    orElse?_ofMembers_map (get?_members r _) fun n hn => nullable?_word?_of_lt (hlow n hn)
  have hmax : Tree.orElse? (Tree.nullable? Tree.word?) none (Tree.ofMembers r.members) "maxItems" =
      some r.maxItems :=
    orElse?_ofMembers_map (get?_members r _) fun n hn => nullable?_word?_of_lt (hhigh n hn)
  have hproperties : properties? (Tree.ofMembers r.members) = some (Entries.ofList ps) := by
    cases hp : r.properties with
    | nil =>
      rw [hp, propertyMembers, Tree.ofMembers, ofProperties?] at hps
      injection hps with hps
      simp [properties?, get?_members, hp, propertiesJson, ← hps, Entries.ofList]
    | cons p rest =>
      rw [hp] at hps
      simp [properties?, get?_members, hp, propertiesJson, Tree.ofJson, hps]
  have hitems' : items? (Tree.ofMembers r.members) = some r.items := by
    rcases hi : r.items with - | (xs | x)
    · simp [items?, get?_members, hi]
    · have hread : (Tree.array (Tree.ofItems (jsonAll xs))).isReadable = true :=
        Tree.isReadable_ofJson (.array (jsonAll xs))
      simp only [hi] at hitems
      simp [items?, get?_members, hi, itemsJson, Tree.ofJson, hread, hitems]
    · have hread := Tree.isReadable_ofJson (json x)
      simp only [hi] at hitems
      rw [json_eq, Tree.ofJson] at hread hitems
      simp [items?, get?_members, hi, itemsJson, json_eq, Tree.ofJson, hread, hitems]
  have hvalues' : values? (Tree.ofMembers r.members) = some r.values := by
    cases hv : r.values with
    | none => simp [values?, get?_members, hv]
    | some x =>
      have hx := hvalues x hv
      rw [json_eq, Tree.ofJson] at hx
      simp [values?, get?_members, hv, json_eq, Tree.ofJson, hx]
  rw [ofTree?_eq, record?_json]
  simp [htype, htitle, hmin, hmax, hproperties, hitems', hvalues']

/-! ## Rules of any depth -/

/-- At every node the properties stand in the order of their names, each once, and the numbers of
items are unsigned words of 64 bits. -/
inductive Formed : Rule → Prop where
  | intro {r : Rule} (low : ∀ n ∈ r.minItems, n < UInt64.size)
    (high : ∀ n ∈ r.maxItems, n < UInt64.size) (ordered : Entries.Ordered r.properties)
    (properties : ∀ e ∈ r.properties, Formed e.2)
    (all : ∀ x, r.items = some (.all x) → Formed x)
    (each : ∀ xs, r.items = some (.each xs) → ∀ x ∈ xs, Formed x)
    (values : ∀ x, r.values = some x → Formed x) : Formed r

theorem ofProperties?_of_forall {ps : List (String × Rule)}
    (h : ∀ e ∈ ps, ofTree? (Tree.ofJson e.2.json) = some e.2) :
    ofProperties? (Tree.ofMembers (propertyMembers ps)) = some ps := by
  induction ps with
  | nil => simp [propertyMembers, Tree.ofMembers, ofProperties?]
  | cons p ps ih =>
    obtain ⟨hp, hps⟩ := List.forall_mem_cons.1 h
    rw [propertyMembers, Tree.ofMembers, ofProperties?, hp, ih hps]
    rfl

theorem ofAll?_of_forall {rs : List Rule}
    (h : ∀ x ∈ rs, ofTree? (Tree.ofJson x.json) = some x) :
    ofAll? (Tree.ofItems (jsonAll rs)) = some rs := by
  induction rs with
  | nil => simp [jsonAll, Tree.ofItems, ofAll?]
  | cons x rs ih =>
    obtain ⟨hx, hrs⟩ := List.forall_mem_cons.1 h
    rw [jsonAll, Tree.ofItems, ofAll?, hx, ih hrs]
    rfl

/-- A well-formed rule is read from its stored form. -/
theorem Formed.ofTree?_json {r : Rule} (h : r.Formed) :
    ofTree? (Tree.ofJson r.json) = some r := by
  induction h with
  | @intro r low high ordered properties all each values ihp iha ihe ihv =>
    rw [Rule.ofTree?_json low high (ofProperties?_of_forall ihp) _ ihv,
      Entries.ofList_of_ordered ordered]
    · cases r
      rfl
    · rcases hi : r.items with - | (xs | x)
      · trivial
      · exact ofAll?_of_forall (ihe xs hi)
      · exact iha x hi

mutual

/-- The rule of a type is well formed, if its tuples can be counted in a word. -/
theorem formed_ofDescriptor : ∀ d : Descriptor, d.isCounted = true → (ofDescriptor d).Formed
  | .scalar k, _ => by
    cases k <;> exact .intro nofun nofun .nil nofun nofun nofun nofun
  | .list t, h => by
    refine .intro nofun nofun .nil nofun ?_ nofun nofun
    rintro _ ⟨⟩
    exact formed_ofDescriptor t h
  | .dict t, h => by
    refine .intro nofun nofun .nil nofun nofun nofun ?_
    rintro _ ⟨⟩
    exact formed_ofDescriptor t h
  | .tuple ts, h => by
    rw [Shape.isCounted, Bool.and_eq_true, decide_eq_true_eq] at h
    refine .intro ?_ ?_ .nil nofun nofun ?_ nofun
    · rintro _ ⟨⟩
      exact h.1
    · rintro _ ⟨⟩
      exact h.1
    · rintro _ ⟨⟩
      exact formed_ofDescriptors ts h.2
  | .document c, _ => .intro nofun nofun .nil nofun nofun nofun nofun

theorem formed_ofDescriptors : ∀ ds : List Descriptor, Shape.allCounted ds = true →
    ∀ x ∈ ofDescriptors ds, x.Formed
  | [], _ => nofun
  | d :: ds, h => by
    obtain ⟨hd, hds⟩ := Bool.and_eq_true_iff.1 h
    exact List.forall_mem_cons.2 ⟨formed_ofDescriptor d hd, formed_ofDescriptors ds hds⟩

end

/-- The rule of a collection: a title, and the rules of types as properties. -/
structure IsTitled (r : Rule) : Prop where
  titled : ∃ title ps, r = { collection title with properties := ps }
  ordered : Entries.Ordered r.properties
  types : ∀ e ∈ r.properties, ∃ d, e.2 = ofDescriptor d

theorem eq_of_ofProperties? {ps rs : List (String × Rule)} (hp : ∀ e ∈ ps, ∃ d, e.2 = ofDescriptor d)
    (h : ofProperties? (Tree.ofMembers (propertyMembers ps)) = some rs) : rs = ps := by
  induction ps generalizing rs with
  | nil => simpa [propertyMembers, Tree.ofMembers, ofProperties?, eq_comm] using h
  | cons p ps ih =>
    obtain ⟨name, x⟩ := p
    obtain ⟨⟨d, hd⟩, hps⟩ := List.forall_mem_cons.1 hp
    simp only at hd
    subst hd
    rw [propertyMembers, Tree.ofMembers, ofProperties?] at h
    simp only [Option.bind_eq_bind, Option.bind_eq_some_iff] at h
    obtain ⟨y, hy, ys, hys, h⟩ := h
    injection h with h
    rw [← h, eq_of_ofTree?_ofDescriptor d hy, ih hps hys]

/-- What is read from the document of the rule of a collection is this rule. -/
theorem IsTitled.eq_of_ofDocument? {r r' : Rule} (hr : r.IsTitled)
    (h : ofDocument? r.document = some r') : r' = r := by
  have h : ofTree? (Tree.ofJson r.json) = some r' := by
    simpa [ofDocument?, document, Json.get?] using h
  obtain ⟨h1, h2, h3, h4, ⟨ps, hps, h5⟩, h6, h7⟩ := of_ofTree?_json h
  rw [eq_of_ofProperties? hr.types hps, Entries.ofList_of_ordered hr.ordered] at h5
  obtain ⟨title, qs, hrt⟩ := hr.titled
  obtain ⟨_, _, _, _, _, _, _⟩ := r'
  subst hrt
  simp_all [collection, any]

/-- The rule of a collection is read from its document, if the tuples in it can be counted in a
word. -/
theorem IsTitled.ofDocument?_document {r : Rule} (hr : r.IsTitled)
    (hc : ∀ e ∈ r.properties, ∃ d : Descriptor, d.isCounted = true ∧ e.2 = ofDescriptor d) :
    ofDocument? r.document = some r := by
  obtain ⟨title, ps, hrt⟩ := hr.titled
  have hformed : r.Formed := by
    refine .intro (by simp [hrt, collection, any]) (by simp [hrt, collection, any]) hr.ordered
      (fun e he => ?_) (by simp [hrt, collection, any]) (by simp [hrt, collection, any])
      (by simp [hrt, collection, any])
    obtain ⟨d, hcounted, hd⟩ := hc e he
    exact hd ▸ formed_ofDescriptor d hcounted
  simpa [ofDocument?, document, Json.get?] using hformed.ofTree?_json

/-! ## Stored rules hold no fractions -/

theorem floatFree_optional {α : Type} {name : String} {f : α → Json} (hf : ∀ a, (f a).FloatFree) :
    ∀ o : Option α, Json.MembersFloatFree (optional name f o)
  | none => trivial
  | some a => ⟨hf a, trivial⟩

mutual

theorem floatFree_json : ∀ r : Rule, r.json.FloatFree
  | ⟨type, title, properties, items, values, minItems, maxItems⟩ => by
    have hvalues := Json.membersFloatFree_iff.1 (floatFree_valuesMember values)
    have hitems := Json.membersFloatFree_iff.1 (floatFree_itemsMember items)
    have hproperties := floatFree_propertyMembers properties
    rw [json_eq]
    refine Json.membersFloatFree_iff.2 fun m hm => ?_
    simp only [members, List.mem_append] at hm
    rcases hm with (((((hm | hm) | hm) | hm) | hm) | hm) | hm
    · exact hvalues m hm
    · exact Json.membersFloatFree_iff.1 (floatFree_optional (by intro _; trivial) type) m hm
    · exact hitems m hm
    · exact Json.membersFloatFree_iff.1 (floatFree_optional (by intro _; trivial) maxItems) m hm
    · exact Json.membersFloatFree_iff.1 (floatFree_optional (by intro _; trivial) minItems) m hm
    · cases properties with
      | nil => cases hm
      | cons p ps => exact List.mem_singleton.1 hm ▸ hproperties
    · exact Json.membersFloatFree_iff.1 (floatFree_optional (by intro _; trivial) title) m hm

theorem floatFree_valuesMember : ∀ o : Option Rule, Json.MembersFloatFree (valuesMember o)
  | none => trivial
  | some r => ⟨floatFree_json r, trivial⟩

theorem floatFree_itemsMember :
    ∀ o : Option (Items Rule), Json.MembersFloatFree (itemsMember o)
  | none => trivial
  | some (.all r) => ⟨floatFree_json r, trivial⟩
  | some (.each rs) => ⟨floatFree_jsonAll rs, trivial⟩

theorem floatFree_propertyMembers :
    ∀ ps : List (String × Rule), Json.MembersFloatFree (propertyMembers ps)
  | [] => trivial
  | (_, r) :: ps => ⟨floatFree_json r, floatFree_propertyMembers ps⟩

theorem floatFree_jsonAll : ∀ rs : List Rule, Json.ItemsFloatFree (jsonAll rs)
  | [] => trivial
  | r :: rs => ⟨floatFree_json r, floatFree_jsonAll rs⟩

end

theorem floatFree_document (r : Rule) : r.document.FloatFree := ⟨floatFree_json r, trivial⟩

end Rule
end SchemaKeeper
