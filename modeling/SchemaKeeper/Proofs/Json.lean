import SchemaKeeper.Json.Tree
import SchemaKeeper.Proofs.Keyed

/-!
# Documents without fractions, and documents as trees

The only documents that are the same without being equal hold floating-point numbers, and they
differ in the signs of zeros alone.  A document is readable as a tree, and its members are found in
the tree under their names.
-/
namespace SchemaKeeper

theorem Double.same_comm (x y : Double) : x.same y = y.same x := by
  simp only [Double.same, Bool.beq_comm (a := x.bits)]
  cases x.isUndefined <;> cases y.isUndefined <;> cases x.isZero <;> cases y.isZero <;> rfl

theorem Double.same_iff {x y : Double} : x.same y = true ↔
    x.isUndefined = false ∧ y.isUndefined = false ∧ (x = y ∨ x.isZero = true ∧ y.isZero = true) := by
  cases x
  cases y
  simp [Double.same, and_assoc]

theorem Double.same_self_of_isFinite {x : Double} (h : x.isFinite = true) : x.same x = true := by
  refine Double.same_iff.2 ⟨?_, ?_, .inl rfl⟩ <;> simp_all [Double.isFinite, Double.isUndefined]

theorem Double.same_trans {x y z : Double} (h : x.same y = true) (h' : y.same z = true) :
    x.same z = true := by
  obtain ⟨hx, -, hxy⟩ := Double.same_iff.1 h
  obtain ⟨-, hz, hyz⟩ := Double.same_iff.1 h'
  refine Double.same_iff.2 ⟨hx, hz, ?_⟩
  rcases hxy with rfl | ⟨hx, hy⟩
  · exact hyz
  · rcases hyz with rfl | ⟨-, hz⟩
    · exact .inr ⟨hx, hy⟩
    · exact .inr ⟨hx, hz⟩

/-- The number, a zero without its sign. -/
def Double.unsigned (x : Double) : Double := if x.isZero then ⟨0⟩ else x

theorem Double.unsigned_of_same {x y : Double} (h : x.same y = true) : x.unsigned = y.unsigned := by
  obtain ⟨-, -, rfl | ⟨hx, hy⟩⟩ := Double.same_iff.1 h
  · rfl
  · simp [unsigned, hx, hy]

namespace Json

mutual

/-- No floating-point number occurs. -/
def FloatFree : Json → Prop
  | .float _ => False
  | .array items => ItemsFloatFree items
  | .object members => MembersFloatFree members
  | _ => True

def ItemsFloatFree : List Json → Prop
  | [] => True
  | j :: js => FloatFree j ∧ ItemsFloatFree js

def MembersFloatFree : List (String × Json) → Prop
  | [] => True
  | (_, j) :: js => FloatFree j ∧ MembersFloatFree js

end

mutual

theorem eq_of_same : ∀ {a b : Json}, b.FloatFree → a.same b = true → a = b
  | .null, .null, _, _ => rfl
  | .bool a, .bool b, _, h => by simpa [same] using h
  | .int a, .int b, _, h => by simpa [same] using h
  | .float _, .float _, hb, _ => hb.elim
  | .string a, .string b, _, h => by simpa [same] using h
  | .array as, .array bs, hb, h => by rw [eq_of_sameItems hb h]
  | .object as, .object bs, hb, h => by rw [eq_of_sameMembers hb h]

theorem eq_of_sameItems : ∀ {as bs : List Json}, ItemsFloatFree bs → sameItems as bs = true → as = bs
  | [], [], _, _ => rfl
  | a :: as, b :: bs, hb, h => by
    obtain ⟨h1, h2⟩ := Bool.and_eq_true_iff.1 h
    rw [eq_of_same hb.1 h1, eq_of_sameItems hb.2 h2]

theorem eq_of_sameMembers :
    ∀ {as bs : List (String × Json)}, MembersFloatFree bs → sameMembers as bs = true → as = bs
  | [], [], _, _ => rfl
  | (k, a) :: as, (k', b) :: bs, hb, h => by
    obtain ⟨h1, h2⟩ := Bool.and_eq_true_iff.1 h
    obtain ⟨hk, h1⟩ := Bool.and_eq_true_iff.1 h1
    rw [eq_of_same hb.1 h1, eq_of_sameMembers hb.2 h2, eq_of_beq hk]

end

mutual

theorem same_comm : ∀ a b : Json, a.same b = b.same a
  | .null, b => by cases b <;> rfl
  | .bool _, b => by cases b <;> simp [same, Bool.beq_comm]
  | .int _, b => by cases b <;> simp [same, Bool.beq_comm]
  | .float x, b => by cases b <;> simp [same, Double.same_comm x]
  | .string _, b => by cases b <;> simp [same, Bool.beq_comm]
  | .array as, b => by cases b <;> simp [same, sameItems_comm as]
  | .object as, b => by cases b <;> simp [same, sameMembers_comm as]

theorem sameItems_comm : ∀ as bs : List Json, sameItems as bs = sameItems bs as
  | [], bs => by cases bs <;> rfl
  | a :: as, bs => by
    cases bs with
    | nil => rfl
    | cons b bs => rw [sameItems, sameItems, same_comm a, sameItems_comm as]

theorem sameMembers_comm :
    ∀ as bs : List (String × Json), sameMembers as bs = sameMembers bs as
  | [], bs => by cases bs <;> rfl
  | (k, a) :: as, bs => by
    rcases bs with - | ⟨⟨k', b⟩, bs⟩
    · rfl
    · rw [sameMembers, sameMembers, same_comm a, sameMembers_comm as, Bool.beq_comm (a := k)]

end

mutual

theorem same_trans : ∀ {a b c : Json}, a.same b = true → b.same c = true → a.same c = true
  | .null, .null, .null, _, _ => rfl
  | .bool _, .bool _, .bool _, h, h' => by simp_all [same]
  | .int _, .int _, .int _, h, h' => by simp_all [same]
  | .float _, .float _, .float _, h, h' => Double.same_trans h h'
  | .string _, .string _, .string _, h, h' => by simp_all [same]
  | .array _, .array _, .array _, h, h' => sameItems_trans h h'
  | .object _, .object _, .object _, h, h' => sameMembers_trans h h'

theorem sameItems_trans : ∀ {as bs cs : List Json},
    sameItems as bs = true → sameItems bs cs = true → sameItems as cs = true
  | [], [], [], _, _ => rfl
  | _ :: _, _ :: _, _ :: _, h, h' => by
    obtain ⟨h1, h2⟩ := Bool.and_eq_true_iff.1 h
    obtain ⟨h1', h2'⟩ := Bool.and_eq_true_iff.1 h'
    exact Bool.and_eq_true_iff.2 ⟨same_trans h1 h1', sameItems_trans h2 h2'⟩

theorem sameMembers_trans : ∀ {as bs cs : List (String × Json)},
    sameMembers as bs = true → sameMembers bs cs = true → sameMembers as cs = true
  | [], [], [], _, _ => rfl
  | (k, a) :: as, (k', b) :: bs, (k'', c) :: cs, h, h' => by
    simp only [sameMembers, Bool.and_eq_true, beq_iff_eq] at h h' ⊢
    exact ⟨⟨h.1.1.trans h'.1.1, same_trans h.1.2 h'.1.2⟩, sameMembers_trans h.2 h'.2⟩

end

theorem sameMembers_insert (k : String) {a b : Json} (hab : a.same b = true) :
    ∀ {as bs : List (String × Json)}, sameMembers as bs = true →
      sameMembers (Entries.insert k a as) (Entries.insert k b bs) = true
  | [], [], _ => by simp [Entries.insert, sameMembers, hab]
  | (n, x) :: as, (m, y) :: bs, h => by
    simp only [sameMembers, Bool.and_eq_true, beq_iff_eq] at h
    obtain ⟨⟨rfl, hxy⟩, hrest⟩ := h
    rw [Entries.insert, Entries.insert]
    split
    · simp [sameMembers, hab, hxy, hrest]
    · split
      · simp [sameMembers, hab, hrest]
      · simp [sameMembers, hxy, sameMembers_insert k hab hrest]

theorem sameMembers_foldl_insert : ∀ {ps qs as bs : List (String × Json)},
    sameMembers ps qs = true → sameMembers as bs = true →
      sameMembers (ps.foldl (fun es p => Entries.insert p.1 p.2 es) as)
        (qs.foldl (fun es p => Entries.insert p.1 p.2 es) bs) = true
  | [], [], _, _, _, h => h
  | (k, a) :: ps, (l, b) :: qs, as, bs, hp, h => by
    simp only [sameMembers, Bool.and_eq_true, beq_iff_eq] at hp
    obtain ⟨⟨rfl, hab⟩, hps⟩ := hp
    rw [List.foldl_cons, List.foldl_cons]
    exact sameMembers_foldl_insert hps (sameMembers_insert k hab h)

/-- Objects collected from members that are the same are the same. -/
theorem ofMembers_same {ps qs : List (String × Json)} (h : sameMembers ps qs = true) :
    (ofMembers ps).same (ofMembers qs) = true := sameMembers_foldl_insert h rfl

/-- Lists of members that are the same have the same names with values that are the same. -/
theorem get?_sameMembers (name : String) :
    ∀ {as bs : List (String × Json)}, sameMembers as bs = true →
      (Entries.get? as name = none ∧ Entries.get? bs name = none) ∨
        ∃ a b, Entries.get? as name = some a ∧ Entries.get? bs name = some b ∧ a.same b = true
  | [], [], _ => .inl ⟨rfl, rfl⟩
  | (k, a) :: as, (k', b) :: bs, h => by
    obtain ⟨h1, h2⟩ := Bool.and_eq_true_iff.1 h
    obtain ⟨hk, h3⟩ := Bool.and_eq_true_iff.1 h1
    have hk := eq_of_beq hk
    subst hk
    rw [Entries.get?_cons, Entries.get?_cons]
    by_cases hn : k = name
    · exact .inr ⟨a, b, by simp [hn], by simp [hn], h3⟩
    · simpa [hn] using get?_sameMembers name h2

theorem exists_float_of_same : ∀ {j : Json} {x : Double}, j.same (.float x) = true →
    ∃ y, j = .float y ∧ y.same x = true
  | .float y, _, h => ⟨y, rfl, h⟩

theorem exists_array_of_same : ∀ {j : Json} {items : List Json}, j.same (.array items) = true →
    ∃ js, j = .array js ∧ sameItems js items = true
  | .array js, _, h => ⟨js, rfl, h⟩

theorem exists_object_of_same : ∀ {j : Json} {members : List (String × Json)},
    j.same (.object members) = true → ∃ ms, j = .object ms ∧ sameMembers ms members = true
  | .object ms, _, h => ⟨ms, rfl, h⟩

theorem itemsFloatFree_iff {js : List Json} : ItemsFloatFree js ↔ ∀ j ∈ js, j.FloatFree := by
  induction js with
  | nil => simp [ItemsFloatFree]
  | cons j js ih => simp [ItemsFloatFree, ih]

theorem membersFloatFree_iff {ms : List (String × Json)} :
    MembersFloatFree ms ↔ ∀ m ∈ ms, m.2.FloatFree := by
  induction ms with
  | nil => simp [MembersFloatFree]
  | cons m ms ih => simp [MembersFloatFree, ih]

/-! ## Without the signs of zeros -/

mutual

/-- The document, the zeros in it without their signs. -/
def unsigned : Json → Json
  | .float x => .float x.unsigned
  | .array items => .array (itemsUnsigned items)
  | .object members => .object (membersUnsigned members)
  | j => j

def itemsUnsigned : List Json → List Json
  | [] => []
  | j :: js => unsigned j :: itemsUnsigned js

def membersUnsigned : List (String × Json) → List (String × Json)
  | [] => []
  | (k, j) :: js => (k, unsigned j) :: membersUnsigned js

end

mutual

/-- Documents that are the same differ in the signs of zeros alone. -/
theorem unsigned_of_same : ∀ {a b : Json}, a.same b = true → a.unsigned = b.unsigned
  | .null, .null, _ => rfl
  | .bool a, .bool b, h => by simpa [same, unsigned] using h
  | .int a, .int b, h => by simpa [same, unsigned] using h
  | .float _, .float _, h => congrArg Json.float (Double.unsigned_of_same h)
  | .string a, .string b, h => by simpa [same, unsigned] using h
  | .array _, .array _, h => congrArg Json.array (itemsUnsigned_of_same h)
  | .object _, .object _, h => congrArg Json.object (membersUnsigned_of_same h)

theorem itemsUnsigned_of_same :
    ∀ {as bs : List Json}, sameItems as bs = true → itemsUnsigned as = itemsUnsigned bs
  | [], [], _ => rfl
  | _ :: _, _ :: _, h => by
    obtain ⟨h1, h2⟩ := Bool.and_eq_true_iff.1 h
    simp [itemsUnsigned, unsigned_of_same h1, itemsUnsigned_of_same h2]

theorem membersUnsigned_of_same : ∀ {as bs : List (String × Json)},
    sameMembers as bs = true → membersUnsigned as = membersUnsigned bs
  | [], [], _ => rfl
  | (_, _) :: _, m :: _, h => by
    obtain ⟨_, _⟩ := m
    simp only [sameMembers, Bool.and_eq_true, beq_iff_eq] at h
    simp [membersUnsigned, h.1.1, unsigned_of_same h.1.2, membersUnsigned_of_same h.2]

end

end Json

namespace Tree

theorem ofMembers_eq_map (ms : List (String × Json)) :
    ofMembers ms = ms.map fun m => (m.1, ofJson m.2) := by
  induction ms with
  | nil => rfl
  | cons m ms ih => rw [ofMembers, ih, List.map_cons]

@[simp] theorem get?_ofMembers (ms : List (String × Json)) (name : String) :
    Entries.get? (ofMembers ms) name = (Entries.get? ms name).map ofJson := by
  rw [ofMembers_eq_map, Entries.get?_map]

mutual

/-- A document is readable as a tree. -/
theorem exists_settle? : ∀ j : Json, ∃ j', (ofJson j).settle? = some j'
  | .null => ⟨_, rfl⟩
  | .bool _ => ⟨_, rfl⟩
  | .int _ => ⟨_, rfl⟩
  | .float _ => ⟨_, rfl⟩
  | .string _ => ⟨_, rfl⟩
  | .array items => by
    obtain ⟨js, h⟩ := exists_settleItems? items
    exact ⟨_, by rw [ofJson, settle?, h]; rfl⟩
  | .object members => by
    obtain ⟨ms, h⟩ := exists_settleMembers? members
    exact ⟨_, by rw [ofJson, settle?, h]; rfl⟩

theorem exists_settleItems? : ∀ js : List Json, ∃ js', settleItems? (ofItems js) = some js'
  | [] => ⟨_, rfl⟩
  | j :: js => by
    obtain ⟨j', h⟩ := exists_settle? j
    obtain ⟨js', hs⟩ := exists_settleItems? js
    exact ⟨j' :: js', by simp [ofItems, settleItems?, h, hs]⟩

theorem exists_settleMembers? :
    ∀ ms : List (String × Json), ∃ ms', settleMembers? (ofMembers ms) = some ms'
  | [] => ⟨_, rfl⟩
  | (k, j) :: ms => by
    obtain ⟨j', h⟩ := exists_settle? j
    obtain ⟨ms', hs⟩ := exists_settleMembers? ms
    exact ⟨(k, j') :: ms', by simp [ofMembers, settleMembers?, h, hs]⟩

end

@[simp] theorem isReadable_ofJson (j : Json) : (ofJson j).isReadable = true := by
  obtain ⟨j', h⟩ := exists_settle? j
  rw [isReadable, h]
  rfl

/-- An object whose members are known, each once, is a record of them. -/
theorem record?_object {names : List String} {ms : List (String × Json)}
    (hn : ∀ m ∈ ms, m.1 ∈ names) (hd : (ms.map Prod.fst).Nodup) :
    (ofJson (.object ms)).record? names = some (ofMembers ms) := by
  have hkeys : (ofMembers ms).map Prod.fst = ms.map Prod.fst := by
    rw [ofMembers_eq_map, List.map_map]
    rfl
  have hf : ((ofMembers ms).filter fun m => names.contains m.1) = ofMembers ms := by
    refine List.filter_eq_self.2 fun m hm => ?_
    rw [ofMembers_eq_map] at hm
    obtain ⟨m', hm', rfl⟩ := List.mem_map.1 hm
    exact List.contains_iff_mem.2 (hn m' hm')
  simp only [ofJson, record?, hf, hkeys, hd, if_true]

theorem require?_ofMembers {α : Type} {decode : Tree → Option α} {ms : List (String × Json)}
    {name : String} {j : Json} {a : α} (hj : Entries.get? ms name = some j)
    (ha : decode (ofJson j) = some a) : require? decode (ofMembers ms) name = some a := by
  rw [require?, get?_ofMembers, hj]
  exact ha

theorem orElse?_ofMembers {α : Type} {decode : Tree → Option α} {ms : List (String × Json)}
    {name : String} {j : Json} {a absent : α} (hj : Entries.get? ms name = some j)
    (ha : decode (ofJson j) = some a) : orElse? decode absent (ofMembers ms) name = some a := by
  rw [orElse?, get?_ofMembers, hj]
  exact ha

theorem list?_map {α : Type} {decode : Tree → Option α} {encode : α → Json} {as : List α}
    (h : ∀ a ∈ as, decode (ofJson (encode a)) = some a) :
    list? decode (ofJson (.array (as.map encode))) = some as := by
  induction as with
  | nil => rfl
  | cons a as ih =>
    obtain ⟨ha, has⟩ := List.forall_mem_cons.1 h
    have ih := ih has
    simp only [ofJson, list?, List.map_cons, ofItems] at ih ⊢
    rw [List.mapM_cons, ha, ih]
    rfl

end Tree
end SchemaKeeper
