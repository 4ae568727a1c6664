import SchemaKeeper.Keyed

/-!
# Further laws of maps

What a collected list, a union and the listings of keys and values answer.  A list of pairs that
gives each key one value is collected into the map that answers exactly these pairs.
-/
namespace SchemaKeeper

namespace Entries
variable {α β : Type}

instance (entries : List (String × α)) : Decidable (Ordered entries) :=
  inferInstanceAs (Decidable (entries.Pairwise fun a b => a.1 < b.1))

@[simp] theorem get?_nil (q : String) : get? ([] : List (String × α)) q = none := rfl

@[simp] theorem get?_cons (k : String) (v : α) (rest : List (String × α)) (q : String) :
    get? ((k, v) :: rest) q = if k = q then some v else get? rest q := rfl

theorem get?_append (q : String) :
    ∀ a b : List (String × α), get? (a ++ b) q = (get? a q).or (get? b q)
  | [], b => by simp
  | (k, v) :: a, b => by
    rw [List.cons_append, get?_cons, get?_cons, get?_append q a b]
    split <;> simp

theorem get?_eq_none {q : String} :
    ∀ {entries : List (String × α)}, get? entries q = none ↔ ∀ e ∈ entries, e.1 ≠ q
  | [] => by simp
  | (k, v) :: rest => by
    rw [get?_cons, List.forall_mem_cons]
    by_cases h : k = q
    · simp [h]
    · simp [h, get?_eq_none]

theorem get?_map (f : α → β) (q : String) (entries : List (String × α)) :
    get? (entries.map fun e => (e.1, f e.2)) q = (get? entries q).map f :=
  get?_mapValues (fun _ => f) q entries

theorem mem_foldl_insert {k : String} {v : α} :
    ∀ (pairs : List (String × α)) {entries : List (String × α)},
      get? (pairs.foldl (fun es p => insert p.1 p.2 es) entries) k = some v →
        (k, v) ∈ pairs ∨ get? entries k = some v
  | [], _, h => .inr h
  | (k', v') :: pairs, entries, h => by
    rcases mem_foldl_insert pairs h with hin | hin
    · exact .inl (List.mem_cons_of_mem _ hin)
    · rw [get?_insert] at hin
      split at hin
      · rename_i hk
        injection hin with hv
        rw [← hk, ← hv]
        exact .inl List.mem_cons_self
      · exact .inr hin

theorem mem_of_mem_foldl_insert {e : String × α} :
    ∀ (pairs : List (String × α)) {entries : List (String × α)},
      e ∈ pairs.foldl (fun es p => insert p.1 p.2 es) entries → e ∈ pairs ∨ e ∈ entries
  | [], _, h => .inr h
  | p :: pairs, entries, h => by
    rcases mem_of_mem_foldl_insert pairs h with hin | hin
    · exact .inl (List.mem_cons_of_mem _ hin)
    · rcases mem_insert hin with rfl | hin
      · exact .inl List.mem_cons_self
      · exact .inr hin

theorem isSome_get?_foldl_insert {k : String} :
    ∀ (pairs : List (String × α)) {entries : List (String × α)},
      (∃ v, (k, v) ∈ pairs) ∨ (get? entries k).isSome →
        (get? (pairs.foldl (fun es p => insert p.1 p.2 es) entries) k).isSome
  | [], _, h => by simpa using h
  | (k', v') :: pairs, entries, h => by
    refine isSome_get?_foldl_insert pairs ?_
    rw [get?_insert]
    by_cases hk : k' = k
    · simp [hk]
    · rcases h with ⟨v, h⟩ | h
      · rcases List.mem_cons.1 h with h | h
        · exact absurd (congrArg Prod.fst h).symm hk
        · exact .inl ⟨v, h⟩
      · simp [hk, h]

theorem mem_of_get?_ofList {pairs : List (String × α)} {k : String} {v : α}
    (h : get? (ofList pairs) k = some v) : (k, v) ∈ pairs := by
  rcases mem_foldl_insert pairs h with h | h
  · exact h
  · cases h

/-- Pairs that give each key one value are what the collected list answers. -/
theorem get?_ofList_iff {pairs : List (String × α)} {k : String} {v : α}
    (hf : ∀ p ∈ pairs, ∀ q ∈ pairs, p.1 = q.1 → p.2 = q.2) :
    get? (ofList pairs) k = some v ↔ (k, v) ∈ pairs := by
  refine ⟨mem_of_get?_ofList, fun h => ?_⟩
  have hs : (get? (ofList pairs) k).isSome := isSome_get?_foldl_insert pairs (.inl ⟨v, h⟩)
  obtain ⟨v', hv⟩ := Option.isSome_iff_exists.1 hs
  rw [hv, show v' = v from hf _ (mem_of_get?_ofList hv) _ h rfl]

theorem get?_eq_some_iff {entries : List (String × α)} (ho : Ordered entries) {k : String}
    {v : α} : get? entries k = some v ↔ (k, v) ∈ entries :=
  ⟨mem_of_get?, get?_of_mem ho⟩

/-- A filter by key and value, on a list in order. -/
theorem get?_filter_entry (p : String × α → Bool) {entries : List (String × α)}
    (ho : Ordered entries) (q : String) :
    get? (entries.filter p) q = (get? entries q).filter fun v => p (q, v) := by
  refine Option.ext fun v => ?_
  rw [get?_eq_some_iff (ordered_filter p ho), List.mem_filter, Option.filter_eq_some_iff,
    get?_eq_some_iff ho]

theorem functional_of_ordered {entries : List (String × α)} (ho : Ordered entries) :
    ∀ p ∈ entries, ∀ q ∈ entries, p.1 = q.1 → p.2 = q.2 := by
  intro p hp q hq h
  have h1 := get?_of_mem ho hp
  have h2 := get?_of_mem ho hq
  rw [h, h2] at h1
  injection h1 with h1
  exact h1.symm

theorem ordered_mapValues_iff {f : String → α → β} {entries : List (String × α)} :
    Ordered (mapValues f entries) ↔ Ordered entries := by
  rw [Ordered, Ordered, mapValues, List.pairwise_map]

/-- Of the entries of a list in order, each takes the place of what was there. -/
theorem get?_foldl_insert (q : String) :
    ∀ (es : List (String × α)) {entries : List (String × α)}, Ordered es →
      get? (es.foldl (fun acc e => insert e.1 e.2 acc) entries) q =
        (get? es q).or (get? entries q)
  | [], _, _ => rfl
  | (k, v) :: es, entries, ho => by
    obtain ⟨hk, hes⟩ := ordered_cons.1 ho
    rw [List.foldl_cons, get?_foldl_insert q es hes, get?_insert, get?_cons]
    by_cases h : k = q
    · subst h
      rw [get?_eq_none_of_lt hk]
      simp
    · simp [h]

/-- A list in order is collected as it is. -/
theorem ofList_of_ordered {entries : List (String × α)} (ho : Ordered entries) :
    ofList entries = entries := by
  refine ext_get? (ordered_ofList entries) ho fun q => ?_
  cases h : get? entries q with
  | some v =>
    rw [get?_ofList_iff (functional_of_ordered ho)]
    exact mem_of_get? h
  | none =>
    cases h' : get? (ofList entries) q with
    | none => rfl
    | some v => rw [get?_of_mem ho (mem_of_get?_ofList h')] at h; cases h

end Entries

namespace Keyed
variable {α β : Type}

theorem contains_iff {m : Keyed α} {k : String} : m.contains k = true ↔ ∃ v, m.get? k = some v :=
  Option.isSome_iff_exists

theorem contains_insert {m : Keyed α} {k q : String} {v : α} (h : m.contains q = true) :
    (m.insert k v).contains q = true := by
  unfold contains at h ⊢
  rw [get?_insert]
  split
  · rfl
  · exact h

theorem mem_keys {m : Keyed α} {k : String} : k ∈ m.keys ↔ ∃ v, m.get? k = some v := by
  simp only [keys, List.mem_map, Prod.exists, exists_and_right, exists_eq_right, mem_entries_iff]

theorem nodup_keys (m : Keyed α) : m.keys.Nodup :=
  List.Pairwise.map Prod.fst (fun _ _ h => Entries.key_ne_of_lt h) m.ordered

theorem mem_values {m : Keyed α} {v : α} : v ∈ m.values ↔ ∃ k, m.get? k = some v := by
  simp only [values, List.mem_map, Prod.exists, exists_eq_right, mem_entries_iff]

theorem mem_of_get?_ofList {pairs : List (String × α)} {k : String} {v : α}
    (h : (ofList pairs).get? k = some v) : (k, v) ∈ pairs := Entries.mem_of_get?_ofList h

/-- To insert what is there changes nothing. -/
theorem insert_of_get? {m : Keyed α} {k : String} {v : α} (h : m.get? k = some v) :
    m.insert k v = m := by
  refine ext_get? fun q => ?_
  rw [get?_insert]
  split
  · rename_i hq
    rw [← hq, h]
  · rfl

theorem get?_ofList_iff {pairs : List (String × α)} {k : String} {v : α}
    (hf : ∀ p ∈ pairs, ∀ q ∈ pairs, p.1 = q.1 → p.2 = q.2) :
    (ofList pairs).get? k = some v ↔ (k, v) ∈ pairs := Entries.get?_ofList_iff hf

theorem get?_foldl_insert (q : String) (es : List (String × α)) (m : Keyed α)
    (ho : Entries.Ordered es) :
    (es.foldl (fun acc e => acc.insert e.1 e.2) m).get? q = (Entries.get? es q).or (m.get? q) := by
  have hentries : (es.foldl (fun acc e => acc.insert e.1 e.2) m).entries =
      es.foldl (fun acc e => Entries.insert e.1 e.2 acc) m.entries :=
    (List.foldl_hom Keyed.entries fun _ _ => rfl).symm
  rw [get?, hentries]
  exact Entries.get?_foldl_insert q es ho

/-- In a union the second map answers first. -/
@[simp] theorem get?_union (m other : Keyed α) (q : String) :
    (m.union other).get? q = (other.get? q).or (m.get? q) :=
  get?_foldl_insert q other.entries m other.ordered

/-- An entry of the second map stays in the union. -/
theorem mem_values_union {m other : Keyed α} {v : α} (h : v ∈ other.values) :
    v ∈ (m.union other).values := by
  obtain ⟨k, hk⟩ := mem_values.1 h
  exact mem_values.2 ⟨k, by rw [get?_union, hk]; rfl⟩

end Keyed
end SchemaKeeper
