/-!
# Maps keyed by text

A map is a list of entries in strictly ascending order of their keys, so two maps are equal
exactly when they answer every key alike (`Keyed.ext_get?`).  The operations are first written on
lists of entries: trees that hold such lists inside themselves use them directly, and `Keyed`
packs a list with the proof of its order.
-/
namespace SchemaKeeper

namespace Entries
variable {α β : Type}

/-- Keys ascend strictly, so no key occurs twice. -/
def Ordered (entries : List (String × α)) : Prop :=
  entries.Pairwise fun a b => a.1 < b.1

/-- The value under a key. -/
def get? : List (String × α) → String → Option α
  | [], _ => none
  | (k, v) :: rest, key => if k = key then some v else get? rest key

/-- Puts a value under a key, in place of one already there. -/
def insert (key : String) (value : α) : List (String × α) → List (String × α)
  | [] => [(key, value)]
  | (k, v) :: rest =>
    if key < k then (key, value) :: (k, v) :: rest
    else if k = key then (key, value) :: rest
    else (k, v) :: insert key value rest

/-- Takes a key out. -/
def erase (key : String) (entries : List (String × α)) : List (String × α) :=
  entries.filter fun e => e.1 != key

/-- Collects pairs in order; of two with one key the later stays. -/
def ofList (pairs : List (String × α)) : List (String × α) :=
  pairs.foldl (fun entries p => insert p.1 p.2 entries) []

/-- Changes every value and keeps the keys. -/
def mapValues (f : String → α → β) (entries : List (String × α)) : List (String × β) :=
  entries.map fun e => (e.1, f e.1 e.2)

theorem key_ne_of_lt {a b : String} (h : a < b) : a ≠ b := by
  rintro rfl; exact String.lt_irrefl a h

theorem key_lt_of_not_lt {a b : String} (h : ¬ a < b) (hne : b ≠ a) : b < a := by
  by_cases hba : b < a
  · exact hba
  · exact absurd (String.le_antisymm (String.not_lt.1 h) (String.not_lt.1 hba)) hne

theorem ordered_cons {k : String} {v : α} {rest : List (String × α)} :
    Ordered ((k, v) :: rest) ↔ (∀ e ∈ rest, k < e.1) ∧ Ordered rest := by
  unfold Ordered; rw [List.pairwise_cons]

theorem mem_insert {key : String} {value : α} {e : String × α} :
    ∀ {entries : List (String × α)},
      e ∈ insert key value entries → e = (key, value) ∨ e ∈ entries
  | [], h => by simpa [insert] using h
  | (k, v) :: rest, h => by
    unfold insert at h
    split at h
    · exact List.mem_cons.1 h
    · split at h
      · rcases List.mem_cons.1 h with h | h
        · exact .inl h
        · exact .inr (List.mem_cons_of_mem _ h)
      · rcases List.mem_cons.1 h with h | h
        · exact .inr (h ▸ List.mem_cons_self)
        · exact (mem_insert h).imp_right (List.mem_cons_of_mem _)

theorem ordered_insert (key : String) (value : α) :
    ∀ {entries : List (String × α)}, Ordered entries → Ordered (insert key value entries)
  | [], _ => by simp [insert, Ordered]
  | (k, v) :: rest, h => by
    obtain ⟨hk, hrest⟩ := ordered_cons.1 h
    unfold insert
    split
    · rename_i hlt
      refine ordered_cons.2 ⟨fun e he => ?_, h⟩
      rcases List.mem_cons.1 he with rfl | he
      · exact hlt
      · exact String.lt_trans hlt (hk e he)
    · rename_i hlt
      split
      · rename_i heq
        exact ordered_cons.2 ⟨fun e he => heq ▸ hk e he, hrest⟩
      · rename_i hne
        refine ordered_cons.2 ⟨fun e he => ?_, ordered_insert key value hrest⟩
        rcases mem_insert he with rfl | he
        · exact key_lt_of_not_lt hlt hne
        · exact hk e he

theorem ordered_filter (p : String × α → Bool) {entries : List (String × α)}
    (h : Ordered entries) : Ordered (entries.filter p) := List.Pairwise.filter p h

theorem ordered_erase (key : String) {entries : List (String × α)} (h : Ordered entries) :
    Ordered (erase key entries) := ordered_filter _ h

theorem ordered_mapValues (f : String → α → β) {entries : List (String × α)}
    (h : Ordered entries) : Ordered (mapValues f entries) := by
  unfold Ordered mapValues
  rw [List.pairwise_map]
  exact h

theorem ordered_foldl_insert (pairs : List (String × α)) :
    ∀ {entries : List (String × α)}, Ordered entries →
      Ordered (pairs.foldl (fun es p => insert p.1 p.2 es) entries) := by
  induction pairs with
  | nil => intro _ h; exact h
  | cons p rest ih => intro _ h; exact ih (ordered_insert _ _ h)

theorem ordered_ofList (pairs : List (String × α)) : Ordered (ofList pairs) :=
  ordered_foldl_insert pairs List.Pairwise.nil

theorem get?_eq_none_of_lt {key : String} :
    ∀ {entries : List (String × α)}, (∀ e ∈ entries, key < e.1) → get? entries key = none
  | [], _ => rfl
  | (k, v) :: rest, h => by
    have hk : k ≠ key := (key_ne_of_lt (h (k, v) List.mem_cons_self)).symm
    simp only [get?, hk, if_false]
    exact get?_eq_none_of_lt fun e he => h e (List.mem_cons_of_mem _ he)

/-- Reading after a write: the written key answers the value, every other key as before. -/
theorem get?_insert (key : String) (value : α) (q : String) :
    ∀ entries : List (String × α),
      get? (insert key value entries) q = if key = q then some value else get? entries q
  | [] => rfl
  | (k, v) :: rest => by
    unfold insert
    split
    · rfl
    · split
      · rename_i heq
        subst heq
        simp only [get?]
        split <;> rfl
      · rename_i hne
        simp only [get?, get?_insert key value q rest]
        by_cases hk : k = q
        · subst hk; simp [Ne.symm hne]
        · simp [hk]

theorem get?_filter (p : String → Bool) (q : String) :
    ∀ entries : List (String × α),
      get? (entries.filter fun e => p e.1) q = if p q then get? entries q else none
  | [] => by simp [get?]
  | (k, v) :: rest => by
    have ih := get?_filter p q rest
    by_cases hk : k = q
    · subst hk
      by_cases hp : p k
      · simp [hp, get?]
      · simp [hp] at ih ⊢; exact ih
    · by_cases hp : p k <;> simp [hp, get?, hk, ih]

theorem get?_erase (key q : String) (entries : List (String × α)) :
    get? (erase key entries) q = if key = q then none else get? entries q := by
  rw [erase, get?_filter (fun k => k != key)]
  by_cases h : key = q
  · subst h; simp
  · simp [h, Ne.symm h]

theorem get?_mapValues (f : String → α → β) (q : String) :
    ∀ entries : List (String × α), get? (mapValues f entries) q = (get? entries q).map (f q)
  | [] => rfl
  | (k, v) :: rest => by
    have ih := get?_mapValues f q rest
    unfold mapValues at ih ⊢
    by_cases hk : k = q
    · subst hk; simp [get?]
    · simp [get?, hk, ih]

theorem mem_of_get? {key : String} {value : α} :
    ∀ {entries : List (String × α)}, get? entries key = some value → (key, value) ∈ entries
  | (k, v) :: rest, h => by
    unfold get? at h
    split at h
    · rename_i heq
      subst heq
      injection h with h
      subst h
      exact List.mem_cons_self
    · exact List.mem_cons_of_mem _ (mem_of_get? h)

theorem get?_of_mem {key : String} {value : α} :
    ∀ {entries : List (String × α)}, Ordered entries → (key, value) ∈ entries →
      get? entries key = some value
  | (k, v) :: rest, ho, h => by
    obtain ⟨hk, hrest⟩ := ordered_cons.1 ho
    rcases List.mem_cons.1 h with h | h
    · injection h with h1 h2
      simp [get?, h1, h2]
    · have hne : k ≠ key := key_ne_of_lt (hk _ h)
      simp only [get?, hne, if_false]
      exact get?_of_mem hrest h

/-- Ordered lists of entries that answer every key alike are equal. -/
theorem ext_get? : ∀ {a b : List (String × α)}, Ordered a → Ordered b →
    (∀ q, get? a q = get? b q) → a = b
  | [], [], _, _, _ => rfl
  | [], (k, v) :: rest, _, _, h => by simpa [get?] using h k
  | (k, v) :: rest, [], _, _, h => by simpa [get?] using h k
  | (k, v) :: rest, (k', v') :: rest', ha, hb, h => by
    obtain ⟨hk, hrest⟩ := ordered_cons.1 ha
    obtain ⟨hk', hrest'⟩ := ordered_cons.1 hb
    have hkk : k = k' := by
      by_cases hkk : k = k'
      · exact hkk
      · exfalso
        have h1 : (k, v) ∈ (k', v') :: rest' := by
          apply mem_of_get?
          rw [← h k]; simp [get?]
        have h2 : (k', v') ∈ (k, v) :: rest := by
          apply mem_of_get?
          rw [h k']; simp [get?]
        rcases List.mem_cons.1 h1 with h1 | h1
        · exact hkk (congrArg Prod.fst h1)
        · rcases List.mem_cons.1 h2 with h2 | h2
          · exact hkk (congrArg Prod.fst h2).symm
          · exact String.lt_asymm (hk' _ h1) (hk _ h2)
    subst hkk
    have hv : v = v' := by simpa [get?] using h k
    subst hv
    have ht : rest = rest' := by
      refine ext_get? hrest hrest' fun q => ?_
      by_cases hq : k = q
      · subst hq
        rw [get?_eq_none_of_lt hk, get?_eq_none_of_lt hk']
      · simpa [get?, hq] using h q
    rw [ht]

end Entries

/-- A map from texts to values, its entries in ascending order of the keys. -/
structure Keyed (α : Type) where
  entries : List (String × α)
  ordered : Entries.Ordered entries

namespace Keyed
variable {α β : Type}

instance [DecidableEq α] : DecidableEq (Keyed α) := fun a b =>
  if h : a.entries = b.entries then
    isTrue (by cases a; cases b; simpa using h)
  else isFalse fun hab => h (congrArg Keyed.entries hab)

/-- Two maps agree if they have the same keys with the same values. -/
instance [BEq α] : BEq (Keyed α) := ⟨fun a b => a.entries == b.entries⟩

/-- The map without entries. -/
def empty : Keyed α := ⟨[], List.Pairwise.nil⟩

instance : EmptyCollection (Keyed α) := ⟨empty⟩
instance : Inhabited (Keyed α) := ⟨empty⟩

/-- The value under a key. -/
def get? (m : Keyed α) (key : String) : Option α := Entries.get? m.entries key

def contains (m : Keyed α) (key : String) : Bool := (m.get? key).isSome

def size (m : Keyed α) : Nat := m.entries.length

def isEmpty (m : Keyed α) : Bool := m.entries.isEmpty

/-- The keys in ascending order. -/
def keys (m : Keyed α) : List String := m.entries.map (·.1)

/-- The values in the order of their keys. -/
def values (m : Keyed α) : List α := m.entries.map (·.2)

/-- Puts a value under a key, in place of one already there. -/
def insert (key : String) (value : α) (m : Keyed α) : Keyed α :=
  ⟨Entries.insert key value m.entries, Entries.ordered_insert key value m.ordered⟩

/-- Takes a key out. -/
def erase (key : String) (m : Keyed α) : Keyed α :=
  ⟨Entries.erase key m.entries, Entries.ordered_erase key m.ordered⟩

/-- Keeps the entries whose key passes. -/
def filterKeys (keep : String → Bool) (m : Keyed α) : Keyed α :=
  ⟨m.entries.filter fun e => keep e.1, Entries.ordered_filter _ m.ordered⟩

/-- Changes every value and keeps the keys. -/
def mapValues (f : String → α → β) (m : Keyed α) : Keyed β :=
  ⟨Entries.mapValues f m.entries, Entries.ordered_mapValues f m.ordered⟩

/-- Collects pairs in order; of two with one key the later stays. -/
def ofList (pairs : List (String × α)) : Keyed α :=
  ⟨Entries.ofList pairs, Entries.ordered_ofList pairs⟩

/-- Adds all entries of the second map; where both have a key, the second map wins. -/
def union (m other : Keyed α) : Keyed α :=
  other.entries.foldl (fun acc e => acc.insert e.1 e.2) m

@[simp] theorem get?_empty (q : String) : (empty : Keyed α).get? q = none := rfl

@[simp] theorem get?_insert (key : String) (value : α) (m : Keyed α) (q : String) :
    (m.insert key value).get? q = if key = q then some value else m.get? q :=
  Entries.get?_insert key value q m.entries

@[simp] theorem get?_erase (key : String) (m : Keyed α) (q : String) :
    (m.erase key).get? q = if key = q then none else m.get? q :=
  Entries.get?_erase key q m.entries

@[simp] theorem get?_filterKeys (keep : String → Bool) (m : Keyed α) (q : String) :
    (m.filterKeys keep).get? q = if keep q then m.get? q else none :=
  Entries.get?_filter keep q m.entries

@[simp] theorem get?_mapValues (f : String → α → β) (m : Keyed α) (q : String) :
    (m.mapValues f).get? q = (m.get? q).map (f q) :=
  Entries.get?_mapValues f q m.entries

/-- An entry is listed exactly when its key answers its value. -/
theorem mem_entries_iff {m : Keyed α} {key : String} {value : α} :
    (key, value) ∈ m.entries ↔ m.get? key = some value :=
  ⟨Entries.get?_of_mem m.ordered, Entries.mem_of_get?⟩

/-- Maps that answer every key alike are equal. -/
@[ext] theorem ext_get? {a b : Keyed α} (h : ∀ q, a.get? q = b.get? q) : a = b := by
  have := Entries.ext_get? a.ordered b.ordered h
  cases a; cases b; simp_all

end Keyed

end SchemaKeeper
