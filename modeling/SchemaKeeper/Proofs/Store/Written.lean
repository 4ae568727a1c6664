import SchemaKeeper.Json.Reader
import SchemaKeeper.Proofs.Json
import SchemaKeeper.Proofs.Store.Catalog
import SchemaKeeper.Store.CatalogText

/-!
# Catalogs read back

What a catalog is written as decodes to the catalog, but for one thing: a validator that is null is
written as null, and null is read as no validator.  A catalog that was read holds none of these, and
the members of all its documents ascend.
-/
namespace SchemaKeeper

theorem exists_of_mapM_some {α β : Type} {f : α → Option β} {as : List α} {bs : List β} {b : β}
    (h : as.mapM f = some bs) (hb : b ∈ bs) : ∃ a ∈ as, f a = some b := by
  induction as generalizing bs with
  | nil =>
    cases h
    cases hb
  | cons a as ih =>
    rw [List.mapM_cons] at h
    obtain ⟨b', ha, h⟩ := Option.bind_eq_some_iff.1 h
    obtain ⟨bs', has, h⟩ := Option.bind_eq_some_iff.1 h
    cases h
    rcases List.mem_cons.1 hb with rfl | hb
    · exact ⟨a, List.mem_cons_self, ha⟩
    · obtain ⟨a', ha', hf⟩ := ih has hb
      exact ⟨a', List.mem_cons_of_mem a ha', hf⟩

/-! ## Integers that are read -/

namespace Numeral

theorem gather_lt {n : Nat} {ds : List Nat} (hn : n < UInt64.size) :
    (gather n ds).1 < UInt64.size := by
  induction ds generalizing n with
  | nil => exact hn
  | cons d ds ih =>
    rw [gather]
    split
    · rename_i h
      exact ih h
    · exact hn

theorem float?_ne_int {negative : Bool} {word : Nat} {power z : Int} :
    float? negative word power ≠ some (.int z) := by
  simp [float?]

/-- A number that stands for an integer stands for one of 64 bits. -/
theorem int_lt_of_value? {n : Numeral} {z : Int} (h : n.value? = some (.int z)) :
    z < UInt64.size := by
  have hword : (gather (gather 0 n.whole).1 n.fraction).1 < UInt64.size :=
    gather_lt (gather_lt (by decide))
  unfold value? at h
  dsimp only at h
  split at h
  · split at h
    · split at h
      · injection h with h
        injection h with h
        omega
      · split at h
        · injection h with h
          injection h with h
          omega
        · cases h
    · exact absurd h float?_ne_int
  · split at h
    · split at h <;> cases h
    · exact absurd h float?_ne_int

end Numeral

namespace Tree
variable {fuel depth : Nat} {cs rest : List Char} {z : Int}

theorem int_lt_of_scanNumber? (h : scanNumber? cs = some (.int z, rest)) : z < UInt64.size := by
  obtain ⟨⟨n, _⟩, -, h⟩ := Option.map_eq_some_iff.1 h
  dsimp only at h
  split at h
  · rename_i hz
    cases h
    exact Numeral.int_lt_of_value? hz
  · cases h
  · cases h

/-- A value is a number, an object of the members that follow, or neither. -/
theorem scanValue?_cases {t : Tree} (h : scanValue? fuel depth cs = some (t, rest)) :
    (∃ cs, scanNumber? cs = some (t, rest)) ∨
      (∃ ms, t = within depth (ofScanned ms) ∧
        (ms = [] ∨ ∃ fuel cs, scanMembers? fuel (depth + 1) cs = some (ms, rest))) ∨
      ((∀ z, t ≠ .int z) ∧ ∀ members, t ≠ .object members) := by
  have hcontainer : ∀ items, (∀ z, within depth (.array items) ≠ .int z) ∧
      ∀ members, within depth (.array items) ≠ .object members := fun items => by
    rw [within]
    split <;> exact ⟨nofun, nofun⟩
  cases fuel with
  | zero => cases h
  | succ fuel =>
    rw [scanValue?] at h
    split at h
    · obtain ⟨⟨s, _⟩, -, h⟩ := Option.map_eq_some_iff.1 h
      cases s <;> cases h <;> exact .inr (.inr ⟨nofun, nofun⟩)
    · split at h
      · cases h
        exact .inr (.inr (hcontainer []))
      · obtain ⟨⟨items, _⟩, -, h⟩ := Option.map_eq_some_iff.1 h
        cases h
        exact .inr (.inr (hcontainer items))
    · split at h
      · cases h
        exact .inr (.inl ⟨[], rfl, .inl rfl⟩)
      · obtain ⟨⟨ms, _⟩, hms, h⟩ := Option.map_eq_some_iff.1 h
        cases h
        exact .inr (.inl ⟨ms, rfl, .inr ⟨_, _, hms⟩⟩)
    · obtain ⟨_, -, h⟩ := Option.map_eq_some_iff.1 h
      cases h
      exact .inr (.inr ⟨nofun, nofun⟩)
    · obtain ⟨_, -, h⟩ := Option.map_eq_some_iff.1 h
      cases h
      exact .inr (.inr ⟨nofun, nofun⟩)
    · obtain ⟨_, -, h⟩ := Option.map_eq_some_iff.1 h
      cases h
      exact .inr (.inr ⟨nofun, nofun⟩)
    · exact .inl ⟨_, h⟩

theorem within_ofScanned_ne_int {ms : List (Option String × Tree)} :
    within depth (ofScanned ms) ≠ .int z := by
  rw [within, ofScanned]
  repeat' split
  all_goals nofun

theorem int_lt_of_scanValue? (h : scanValue? fuel depth cs = some (.int z, rest)) :
    z < UInt64.size := by
  obtain ⟨cs, h⟩ | ⟨ms, h, -⟩ | ⟨h, -⟩ := scanValue?_cases h
  · exact int_lt_of_scanNumber? h
  · exact absurd h.symm within_ofScanned_ne_int
  · exact absurd rfl (h z)

theorem int_lt_of_scanMembers? {ms : List (Option String × Tree)} {name : Option String}
    (h : scanMembers? fuel depth cs = some (ms, rest)) (hm : (name, .int z) ∈ ms) :
    z < UInt64.size := by
  induction fuel generalizing cs ms rest with
  | zero => cases h
  | succ fuel ih =>
    rw [scanMembers?] at h
    split at h
    · obtain ⟨⟨first, cs⟩, -, h⟩ := Option.bind_eq_some_iff.1 h
      dsimp only at h
      split at h
      · obtain ⟨⟨t, cs⟩, ht, h⟩ := Option.bind_eq_some_iff.1 h
        dsimp only at h
        split at h
        · obtain ⟨⟨ms', _⟩, hms, h⟩ := Option.bind_eq_some_iff.1 h
          cases h
          rcases List.mem_cons.1 hm with hm | hm
          · cases hm
            exact int_lt_of_scanValue? ht
          · exact ih hms hm
        · cases h
          cases List.mem_singleton.1 hm
          exact int_lt_of_scanValue? ht
        · cases h
      · cases h
    · cases h

/-- The members of an object are those that were read for it. -/
theorem mem_of_within {ms : List (Option String × Tree)} {members : List (String × Tree)}
    {m : String × Tree} (h : .object members = within depth (ofScanned ms)) (hm : m ∈ members) :
    (some m.1, m.2) ∈ ms := by
  rw [within, ofScanned] at h
  split at h
  · split at h
    · rename_i named hnamed
      cases h
      obtain ⟨⟨name, t⟩, hp, hpm⟩ := exists_of_mapM_some hnamed hm
      obtain ⟨k, rfl, rfl⟩ := Option.map_eq_some_iff.1 hpm
      exact hp
    · cases h
  · cases h

/-- An integer that a text gives as a member has 64 bits. -/
theorem int_lt_of_read? {text name : String} {members : List (String × Tree)}
    (h : read? text = some (.object members)) (hm : (name, .int z) ∈ members) :
    z < UInt64.size := by
  unfold read? at h
  dsimp only at h
  split at h
  · rename_i hscan
    split at h
    · cases h
      obtain ⟨cs, h⟩ | ⟨ms, h, rfl | ⟨fuel, cs, hms⟩⟩ | ⟨-, h⟩ := scanValue?_cases hscan
      · obtain ⟨⟨n, _⟩, -, h⟩ := Option.map_eq_some_iff.1 h
        dsimp only at h
        split at h <;> cases h
      · cases mem_of_within h hm
      · exact int_lt_of_scanMembers? hms (mem_of_within h hm)
      · exact absurd rfl (h members)
    · cases h
  · cases h

/-! ## Documents -/

mutual

/-- A document whose members ascend is read back as it is. -/
theorem settle?_ofJson : ∀ {j : Json}, j.IsSettled → (ofJson j).settle? = some j
  | .null, _ | .bool _, _ | .int _, _ | .float _, _ | .string _, _ => rfl
  | .array items, h => by rw [ofJson, settle?, settleItems?_ofItems h, Option.map_some]
  | .object members, h => by
    rw [ofJson, settle?, settleMembers?_ofMembers h.2, Option.map_some, Json.ofMembers,
      Entries.ofList_of_ordered h.1]

theorem settleItems?_ofItems :
    ∀ {js : List Json}, Json.ItemsSettled js → settleItems? (ofItems js) = some js
  | [], _ => rfl
  | j :: js, h => by
    rw [ofItems, settleItems?, settle?_ofJson h.1, settleItems?_ofItems h.2]
    rfl

theorem settleMembers?_ofMembers : ∀ {ms : List (String × Json)},
    Json.MembersSettled ms → settleMembers? (ofMembers ms) = some ms
  | [], _ => rfl
  | (k, j) :: ms, h => by
    rw [ofMembers, settleMembers?, settle?_ofJson h.1, settleMembers?_ofMembers h.2]
    rfl

end

theorem membersSettled_iff {ms : List (String × Json)} :
    Json.MembersSettled ms ↔ ∀ m ∈ ms, m.2.IsSettled := by
  induction ms with
  | nil => simp [Json.MembersSettled]
  | cons m ms ih => simp [Json.MembersSettled, ih]

theorem isSettled_ofMembers {ms : List (String × Json)} (h : Json.MembersSettled ms) :
    (Json.ofMembers ms).IsSettled := by
  refine ⟨Entries.ordered_ofList ms, membersSettled_iff.2 fun m hm => ?_⟩
  rcases Entries.mem_of_mem_foldl_insert ms hm with hm | hm
  · exact membersSettled_iff.1 h m hm
  · cases hm

mutual

/-- The members of a document that was read ascend. -/
theorem isSettled_of_settle? : ∀ {t : Tree} {j : Json}, t.settle? = some j → j.IsSettled
  | .null, _, h | .bool _, _, h | .int _, _, h | .float _, _, h | .string _, _, h => by
    cases h
    trivial
  | .array items, _, h => by
    obtain ⟨js, hjs, rfl⟩ := Option.map_eq_some_iff.1 h
    exact itemsSettled_of_settleItems? hjs
  | .object members, _, h => by
    obtain ⟨ms, hms, rfl⟩ := Option.map_eq_some_iff.1 h
    exact isSettled_ofMembers (membersSettled_of_settleMembers? hms)
  | .unreadable, _, h => by cases h

theorem itemsSettled_of_settleItems? :
    ∀ {ts : List Tree} {js : List Json}, settleItems? ts = some js → Json.ItemsSettled js
  | [], _, h => by
    cases h
    trivial
  | t :: ts, _, h => by
    obtain ⟨j, hj, h⟩ := Option.bind_eq_some_iff.1 h
    obtain ⟨js, hjs, h⟩ := Option.bind_eq_some_iff.1 h
    cases h
    exact ⟨isSettled_of_settle? hj, itemsSettled_of_settleItems? hjs⟩

theorem membersSettled_of_settleMembers? : ∀ {ts : List (String × Tree)}
    {ms : List (String × Json)}, settleMembers? ts = some ms → Json.MembersSettled ms
  | [], _, h => by
    cases h
    trivial
  | (k, t) :: ts, _, h => by
    obtain ⟨j, hj, h⟩ := Option.bind_eq_some_iff.1 h
    obtain ⟨ms, hms, h⟩ := Option.bind_eq_some_iff.1 h
    cases h
    exact ⟨isSettled_of_settle? hj, membersSettled_of_settleMembers? hms⟩

end

/-! ## Null -/

end Tree

namespace Json

def isNull : Json → Bool
  | .null => true
  | _ => false

end Json

namespace Tree

theorem eq_null_of_settle? {t : Tree} (h : t.settle? = some .null) : t = .null := by
  cases t with
  | null => rfl
  | array items =>
    obtain ⟨js, -, hjs⟩ := Option.map_eq_some_iff.1 h
    cases hjs
  | object members =>
    obtain ⟨ms, -, hms⟩ := Option.map_eq_some_iff.1 h
    cases hms
  | bool b | int n | float x | string s | unreadable => cases h

/-- Null is read as nothing. -/
theorem nullable?_ofJson {v : Json} (h : v.IsSettled) :
    nullable? settle? (ofJson v) = some ((some v).filter fun v => !v.isNull) := by
  have hv := settle?_ofJson h
  cases v with
  | null => rfl
  | bool b | int n | float x | string s | array items | object members =>
    exact congrArg (Option.map some) hv

theorem settle?_of_nullable? {t : Tree} {v : Json} (h : nullable? settle? t = some (some v)) :
    t.settle? = some v ∧ v ≠ .null := by
  unfold nullable? at h
  split at h
  · cases h
  · rename_i hnull
    obtain ⟨v', hv, h⟩ := Option.map_eq_some_iff.1 h
    cases h
    refine ⟨hv, ?_⟩
    rintro rfl
    exact hnull (eq_null_of_settle? hv)

theorem word?_ofNat {n : Nat} (h : Int.ofNat n < UInt64.size) :
    word? (.int (Int.ofNat n)) = some n := by
  rw [word?, if_pos ⟨Int.natCast_nonneg n, h⟩]
  exact congrArg some (Int.toNat_natCast n)

/-! ## Maps -/

/-- A map is read back value by value. -/
theorem keyed?_ofKeyed {α β : Type} {decode : Tree → Option β} {encode : α → Json} {f : α → β}
    {m : Keyed α} (h : ∀ key a, m.get? key = some a → decode (ofJson (encode a)) = some (f a)) :
    keyed? decode (ofJson (.ofKeyed (m.mapValues fun _ => encode))) =
      some (m.mapValues fun _ => f) := by
  have hpairs : ∀ entries : List (String × α),
      (∀ e ∈ entries, decode (ofJson (encode e.2)) = some (f e.2)) →
      ((ofMembers (Entries.mapValues (fun _ => encode) entries)).mapM fun m =>
        (decode m.2).map fun v => (m.1, v)) = some (Entries.mapValues (fun _ => f) entries) := by
    intro entries
    induction entries with
    | nil => exact fun _ => rfl
    | cons e entries ih =>
      intro hall
      obtain ⟨he, hentries⟩ := List.forall_mem_cons.1 hall
      have hrest := ih hentries
      simp only [Entries.mapValues, List.map_cons, ofMembers, List.mapM_cons, he] at hrest ⊢
      rw [hrest]
      rfl
  rw [Json.ofKeyed, ofJson, keyed?, Keyed.mapValues,
    hpairs m.entries fun e he => h e.1 e.2 (Keyed.mem_entries_iff.1 he), Option.map_some]
  congr 1
  exact Keyed.ext_get? fun q => congrArg (Entries.get? · q)
    (Entries.ofList_of_ordered (m.mapValues fun _ => f).ordered)

/-- The values of a map that was read have been read. -/
theorem exists_of_keyed? {α : Type} {decode : Tree → Option α} {t : Tree} {m : Keyed α}
    {key : String} {a : α} (h : keyed? decode t = some m) (ha : m.get? key = some a) :
    ∃ t, decode t = some a := by
  cases t with
  | object members =>
    obtain ⟨pairs, hpairs, rfl⟩ := Option.map_eq_some_iff.1 h
    obtain ⟨p, -, hp⟩ := exists_of_mapM_some hpairs (Keyed.mem_of_get?_ofList ha)
    obtain ⟨v, hv, hpair⟩ := Option.map_eq_some_iff.1 hp
    cases hpair
    exact ⟨p.2, hv⟩
  | null | bool b | int n | float x | string s | array items | unreadable => cases h

/-! ## The tree of a document -/

mutual

/-- The tree is that of the document. -/
def isOf : Tree → Json → Bool
  | .null, .null => true
  | .bool a, .bool b => a == b
  | .int m, .int n => m == n
  | .float x, .float y => x == y
  | .string s, .string t => s == t
  | .array ts, .array js => itemsOf ts js
  | .object ms, .object ns => membersOf ms ns
  | _, _ => false

def itemsOf : List Tree → List Json → Bool
  | [], [] => true
  | t :: ts, j :: js => isOf t j && itemsOf ts js
  | _, _ => false

def membersOf : List (String × Tree) → List (String × Json) → Bool
  | [], [] => true
  | (k, t) :: ms, (q, j) :: ns => k == q && (isOf t j && membersOf ms ns)
  | _, _ => false

end

mutual

theorem isOf_iff : ∀ {t : Tree} {j : Json}, t.isOf j = true ↔ t = ofJson j
  | .null, j | .bool _, j | .int _, j | .float _, j | .string _, j | .unreadable, j => by
    cases j <;> simp [isOf, ofJson]
  | .array ts, j => by
    cases j <;> simp [isOf, ofJson, @itemsOf_iff ts]
  | .object ms, j => by
    cases j <;> simp [isOf, ofJson, @membersOf_iff ms]

theorem itemsOf_iff : ∀ {ts : List Tree} {js : List Json}, itemsOf ts js = true ↔ ts = ofItems js
  | [], js => by cases js <;> simp [itemsOf, ofItems]
  | t :: ts, js => by
    cases js <;> simp [itemsOf, ofItems, @isOf_iff t, @itemsOf_iff ts]

theorem membersOf_iff : ∀ {ms : List (String × Tree)} {ns : List (String × Json)},
    membersOf ms ns = true ↔ ms = ofMembers ns
  | [], ns => by cases ns <;> simp [membersOf, ofMembers]
  | (k, t) :: ms, ns => by
    cases ns <;> simp [membersOf, ofMembers, @isOf_iff t, @membersOf_iff ms, and_assoc]

end

end Tree

/-! ## Indexes -/

namespace Index

theorem keyOfTree?_json (k : String × Direction) :
    keyOfTree? (.ofJson (.array [.string k.1, .string k.2.text])) = some k := by
  obtain ⟨field, direction⟩ := k
  cases direction <;> rfl

/-- An index is read back as it is. -/
theorem ofTree?_json (i : Index) : ofTree? (.ofJson i.json) = some i := by
  have hrecord : (Tree.ofJson i.json).record? ["keys", "unique"] = some (Tree.ofMembers _) :=
    Tree.record?_object (by simp) (by simp)
  have hkeys : Tree.list? keyOfTree? (.ofJson (.array (i.keys.map fun k =>
      .array [.string k.1, .string k.2.text]))) = some i.keys :=
    Tree.list?_map fun k _ => keyOfTree?_json k
  rw [ofTree?, hrecord, Option.bind_eq_bind, Option.bind_some, Tree.require?_ofMembers rfl hkeys]
  rfl

end Index

/-! ## Collections -/

namespace Collection
variable {state : Collection}

/-- The collection without its validator if that is null. -/
def withoutNull (state : Collection) : Collection :=
  { state with validator := state.validator.filter fun v => !v.isNull }

theorem withoutNull_eq_iff : state.withoutNull = state ↔ state.validator ≠ some .null := by
  obtain ⟨documents, indexes, validator⟩ := state
  cases validator with
  | none => simp [withoutNull]
  | some v => cases v <;> simp [withoutNull, Json.isNull]

/-- A collection is read back as it is, but for a validator that is null. -/
theorem ofTree?_json (h : state.Holds Json.IsSettled) :
    ofTree? (.ofJson state.json) = some state.withoutNull := by
  have hdocuments := @Tree.keyed?_ofKeyed _ _ Tree.settle? id id state.documents fun key j hj =>
    Tree.settle?_ofJson (h.documents key j hj)
  have hsame : (state.documents.mapValues fun _ => id) = state.documents :=
    Keyed.ext_get? fun q => by simp
  rw [hsame] at hdocuments
  have hindexes := Tree.list?_map fun i (_ : i ∈ state.indexes) => Index.ofTree?_json i
  obtain ⟨documents, indexes, validator⟩ := state
  have hmembers : ∃ ms, Tree.record? ["documents", "indexes", "validator"]
        (.ofJson (json ⟨documents, indexes, validator⟩)) = some (Tree.ofMembers ms) ∧
      Entries.get? ms "documents" = some (.ofKeyed documents) ∧
      Entries.get? ms "indexes" = some (.array (indexes.map Index.json)) ∧
      Entries.get? ms "validator" = validator := by
    cases validator <;>
      exact ⟨_, Tree.record?_object (by simp) (by simp), rfl, rfl, rfl⟩
  obtain ⟨ms, hrecord, hd, hi, hv⟩ := hmembers
  have hvalidator : Tree.orElse? (Tree.nullable? Tree.settle?) none (Tree.ofMembers ms) "validator" =
      some (validator.filter fun v => !v.isNull) := by
    rw [Tree.orElse?, Tree.get?_ofMembers, hv]
    cases validator with
    | none => rfl
    | some v => exact Tree.nullable?_ofJson (h.validator v rfl)
  simp only [ofTree?, hrecord, Option.bind_eq_bind, Option.bind_some,
    Tree.orElse?_ofMembers hd hdocuments, Tree.orElse?_ofMembers hi hindexes, hvalidator]
  rfl

/-- A collection that was read has documents whose members ascend and no validator that is null. -/
theorem of_ofTree? {t : Tree} (h : ofTree? t = some state) :
    state.Holds Json.IsSettled ∧ state.validator ≠ some .null := by
  obtain ⟨ms, -, h⟩ := Option.bind_eq_some_iff.1 h
  obtain ⟨documents, hdocuments, h⟩ := Option.bind_eq_some_iff.1 h
  obtain ⟨indexes, -, h⟩ := Option.bind_eq_some_iff.1 h
  obtain ⟨validator, hvalidator, h⟩ := Option.bind_eq_some_iff.1 h
  cases h
  have hsettled : ∀ id document, documents.get? id = some document → document.IsSettled := by
    intro id document hd
    rw [Tree.orElse?] at hdocuments
    split at hdocuments
    · obtain ⟨t, ht⟩ := Tree.exists_of_keyed? hdocuments hd
      exact Tree.isSettled_of_settle? ht
    · cases hdocuments
      cases hd
  have hread : ∀ v, validator = some v → v.IsSettled ∧ v ≠ .null := by
    rintro v rfl
    rw [Tree.orElse?] at hvalidator
    split at hvalidator
    · obtain ⟨hv, hnull⟩ := Tree.settle?_of_nullable? hvalidator
      exact ⟨Tree.isSettled_of_settle? hv, hnull⟩
    · cases hvalidator
  exact ⟨⟨hsettled, fun v hv => (hread v hv).1⟩, fun hv => (hread .null hv).2 rfl⟩

end Collection

namespace Catalog
variable {c : Catalog}

/-- The catalog without the validators that are null. -/
def withoutNull (c : Catalog) : Catalog :=
  { c with collections := c.collections.mapValues fun _ => Collection.withoutNull }

theorem withoutNull_eq_iff : c.withoutNull = c ↔
    ∀ name state, c.collections.get? name = some state → state.validator ≠ some .null := by
  constructor
  · intro h name state hs
    have hget : c.withoutNull.collections.get? name = some state.withoutNull := by
      simp [withoutNull, hs]
    rw [h, hs] at hget
    exact Collection.withoutNull_eq_iff.1 (Option.some.inj hget).symm
  · intro h
    have hcollections : c.withoutNull.collections = c.collections := by
      refine Keyed.ext_get? fun name => ?_
      cases hs : c.collections.get? name with
      | none => simp [withoutNull, hs]
      | some state => simp [withoutNull, hs, Collection.withoutNull_eq_iff.2 (h name state hs)]
    exact congrArg (Catalog.mk c.version) hcollections

/-- The text of the catalog says what is written. -/
def IsLegible (c : Catalog) : Prop := Tree.read? c.text = some (.ofJson c.json)

instance : DecidablePred IsLegible := fun c =>
  decidable_of_iff ((Tree.read? c.text).any (·.isOf c.json) = true) (by
    simp [IsLegible, Option.any_eq_true, Tree.isOf_iff])

/-- The text of a catalog gives the catalog back, but for the validators that are null. -/
theorem read?_text (hlegible : c.IsLegible) (h : c.Holds Json.IsSettled) :
    read? c.text = some c.withoutNull := by
  have hmembers : ∃ ms, (Tree.ofJson c.json).record? ["version", "collections"] =
        some (Tree.ofMembers ms) ∧
      Entries.get? ms "version" = some (.int (Int.ofNat c.version)) ∧
      Entries.get? ms "collections" =
        some (.ofKeyed (c.collections.mapValues fun _ => Collection.json)) :=
    ⟨_, Tree.record?_object (by simp) (by simp), rfl, rfl⟩
  obtain ⟨ms, hrecord, hversion, hcollections⟩ := hmembers
  have hsmall : Int.ofNat c.version < UInt64.size :=
    Tree.int_lt_of_read? hlegible (List.mem_cons_self ..)
  have hword : Tree.word? (.ofJson (.int (Int.ofNat c.version))) = some c.version :=
    Tree.word?_ofNat hsmall
  have hstates := @Tree.keyed?_ofKeyed _ _ Collection.ofTree? Collection.json _ c.collections
    fun name state hs => Collection.ofTree?_json (h name state hs)
  have hread : Tree.read? c.text = some (.ofJson c.json) := hlegible
  rw [read?, hread, Option.bind_eq_bind, Option.bind_some]
  simp only [ofTree?, hrecord, Option.bind_eq_bind, Option.bind_some,
    Tree.require?_ofMembers hversion hword, Tree.require?_ofMembers hcollections hstates]
  rfl

/-- A catalog that was read has documents whose members ascend and no validator that is null. -/
theorem of_read? {text : String} (h : read? text = some c) :
    c.Holds Json.IsSettled ∧ c.withoutNull = c := by
  obtain ⟨t, -, h⟩ := Option.bind_eq_some_iff.1 h
  obtain ⟨ms, -, h⟩ := Option.bind_eq_some_iff.1 h
  obtain ⟨version, -, h⟩ := Option.bind_eq_some_iff.1 h
  obtain ⟨collections, hcollections, h⟩ := Option.bind_eq_some_iff.1 h
  cases h
  obtain ⟨t, -, hcollections⟩ := Option.bind_eq_some_iff.1 hcollections
  have hread : ∀ name state, collections.get? name = some state →
      state.Holds Json.IsSettled ∧ state.validator ≠ some .null := fun name state hs => by
    obtain ⟨t, ht⟩ := Tree.exists_of_keyed? hcollections hs
    exact Collection.of_ofTree? ht
  exact ⟨fun name state hs => (hread name state hs).1,
    withoutNull_eq_iff.2 fun name state hs => (hread name state hs).2⟩

end Catalog
end SchemaKeeper
