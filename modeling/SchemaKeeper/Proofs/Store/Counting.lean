import SchemaKeeper.Proofs.Keyed
import SchemaKeeper.Proofs.Store.Catalog
import SchemaKeeper.Store.Basic

/-!
# What the counters of a store say

The collections that were created and dropped lead from the number of collections before to the
number after: this is so for one write, for the writes of a transaction on its copy of the catalog,
and for a store that takes the copy over, since by then its own catalog has not moved.
-/
namespace SchemaKeeper

/-! ## How many collections there are -/

namespace Entries
variable {α : Type} {key : String} {value : α} {entries : List (String × α)}

theorem length_insert (ho : Ordered entries) : (insert key value entries).length =
    entries.length + if (get? entries key).isSome then 0 else 1 := by
  induction entries with
  | nil => rfl
  | cons e rest ih =>
    obtain ⟨k, v⟩ := e
    obtain ⟨hk, hrest⟩ := ordered_cons.1 ho
    rw [insert]
    split
    · rename_i hlt
      have hnone : get? ((k, v) :: rest) key = none := get?_eq_none_of_lt fun e he => by
        rcases List.mem_cons.1 he with rfl | he
        · exact hlt
        · exact String.lt_trans hlt (hk e he)
      rw [hnone]
      rfl
    · rw [get?_cons]
      split
      · rfl
      · rw [List.length_cons, ih hrest, List.length_cons]
        omega

theorem length_erase (ho : Ordered entries) : (erase key entries).length +
    (if (get? entries key).isSome then 1 else 0) = entries.length := by
  induction entries with
  | nil => rfl
  | cons e rest ih =>
    obtain ⟨k, v⟩ := e
    obtain ⟨hk, hrest⟩ := ordered_cons.1 ho
    have ih := ih hrest
    rw [erase] at ih ⊢
    rw [get?_cons]
    by_cases hkey : k = key
    · subst hkey
      rw [get?_eq_none_of_lt hk] at ih
      simpa using ih
    · simp only [hkey, if_false, List.filter_cons, bne_iff_ne, ne_eq, not_false_eq_true, if_true,
        List.length_cons]
      omega

end Entries

namespace Keyed
variable {α : Type}

theorem size_insert (m : Keyed α) (key : String) (value : α) :
    (m.insert key value).size = m.size + if m.contains key then 0 else 1 :=
  Entries.length_insert m.ordered

theorem size_erase (m : Keyed α) (key : String) :
    (m.erase key).size + (if m.contains key then 1 else 0) = m.size :=
  Entries.length_erase m.ordered

end Keyed

namespace Counters
variable {a b : Counters} {n m l : Nat}

@[simp] theorem created_add : (a + b).created = a.created + b.created := rfl
@[simp] theorem dropped_add : (a + b).dropped = a.dropped + b.dropped := rfl
@[simp] theorem committed_add : (a + b).committed = a.committed + b.committed := rfl
@[simp] theorem aborted_add : (a + b).aborted = a.aborted + b.aborted := rfl

/-- What was created and dropped leads from one number of collections to another. -/
def Leads (a : Counters) (n m : Nat) : Prop := a.created + n = a.dropped + m

theorem Leads.zero : zero.Leads n n := rfl

theorem Leads.add (ha : a.Leads n m) (hb : b.Leads m l) : (a + b).Leads n l := by
  unfold Leads at *
  rw [created_add, dropped_add]
  omega

end Counters

@[simp] theorem Write.committed_counted (w : Write) (answer : Bool) :
    (w.counted answer).committed = 0 := by
  cases w <;> cases answer <;> rfl

@[simp] theorem Write.aborted_counted (w : Write) (answer : Bool) :
    (w.counted answer).aborted = 0 := by
  cases w <;> cases answer <;> rfl

namespace Catalog
variable {c c' : Catalog} {w : Write} {answer : Bool}

/-- The number of collections. -/
def size (c : Catalog) : Nat := c.collections.size

theorem size_setCollection {name : String} {before state : Collection}
    (h : c.collections.get? name = some before) : (c.setCollection name state).size = c.size := by
  rw [size, setCollection, Keyed.size_insert, if_pos (Keyed.contains_iff.2 ⟨before, h⟩)]
  rfl

/-- A write is counted as what it does to the number of collections. -/
theorem leads_perform (h : c.perform w = .ok (answer, c')) :
    (w.counted answer).Leads c.size c'.size := by
  cases answer with
  | false =>
    rw [perform_false h]
    cases w <;> rfl
  | true =>
    cases w with
    | createCollection name =>
      obtain ⟨hnone, rfl⟩ := createCollection_ok h
      have hnew : c.collections.contains name = false := by rw [Keyed.contains, hnone]; rfl
      have hsize := Keyed.size_insert c.collections name Collection.empty
      rw [hnew] at hsize
      show 1 + c.size = 0 + (c.collections.insert name Collection.empty).size
      rw [hsize, size]
      simp [Nat.add_comm]
    | dropCollection name =>
      rw [perform] at h
      split at h
      · rename_i hthere
        cases h
        have hsize := Keyed.size_erase c.collections name
        rw [hthere] at hsize
        show 0 + c.size = 1 + (c.collections.erase name).size
        rw [size, ← hsize]
        simp [Nat.add_comm]
      · cases h
    | createIndex name index =>
      obtain ⟨state, hs, ⟨hfalse, -⟩ | ⟨-, -, rfl⟩⟩ := createIndex_made h
      · cases hfalse
      · exact congrArg (0 + ·) (size_setCollection hs).symm
    | setValidator name document =>
      obtain ⟨state, hs, rfl⟩ := setValidator_ok h
      exact congrArg (0 + ·) (size_setCollection hs).symm
    | insertOne name document =>
      obtain ⟨id, state, -, hs, -, -, rfl⟩ := insertOne_ok h
      exact congrArg (0 + ·) (size_setCollection hs).symm
    | replaceOne name id document upsert =>
      obtain ⟨-, state, hs, ⟨-, -, -, rfl⟩ | ⟨hfalse, -⟩⟩ := replaceOne_ok h
      · exact congrArg (0 + ·) (size_setCollection hs).symm
      · cases hfalse
    | deleteOne name id =>
      obtain ⟨-, rfl⟩ | ⟨state, hs, hc⟩ := deleteOne_ok h
      · rfl
      · have hsize : c'.size = c.size := by
          rw [size, hc, Keyed.size_insert, if_pos (Keyed.contains_iff.2 ⟨state, hs⟩)]
          rfl
        exact congrArg (0 + ·) hsize.symm

theorem length_of_sameCollections : ∀ {as bs : List (String × Collection)},
    sameCollections as bs = true → as.length = bs.length
  | [], [], _ => rfl
  | _ :: _, _ :: _, h => by
    rw [sameCollections, Bool.and_eq_true] at h
    rw [List.length_cons, List.length_cons, length_of_sameCollections h.2]

theorem size_of_same (h : c.same c' = true) : c.size = c'.size :=
  length_of_sameCollections (Bool.and_eq_true_iff.1 h).2

end Catalog

namespace Store
variable {s : Store} {next : Catalog}

theorem count_catalog (s : Store) (k : Counters) : (s.count k).catalog = s.catalog := rfl

theorem count_counters (s : Store) (k : Counters) :
    (s.count k).counters = s.counters + k := rfl

theorem advance_counters (s : Store) (next : Catalog) :
    (s.advance next).counters = s.counters := by
  unfold advance
  split <;> rfl

/-- A catalog that is taken over is there, or one with as many collections. -/
theorem size_advance (s : Store) (next : Catalog) :
    (s.advance next).catalog.size = next.size := by
  unfold advance
  split
  · rename_i hsame
    exact (Catalog.size_of_same hsame).symm
  · rfl

/-- A store that takes a catalog over stays as it is, or its version goes up. -/
theorem advance_stays_or_moves (s : Store) (next : Catalog) :
    s.advance next = s ∨ (s.advance next).catalog.version = s.catalog.version + 1 := by
  unfold advance
  split
  · exact .inl rfl
  · exact .inr rfl

end Store

/-! ## Open transactions -/

/-- An open transaction began no later than now and is not counted yet; as long as the version is
that with which it began, its counters lead from the committed collections to its own. -/
structure Transaction.Fits (c : Catalog) (t : Transaction) : Prop where
  base_le : t.base ≤ c.version
  leads : t.base = c.version → t.counters.Leads c.size t.working.size
  committed : t.counters.committed = 0
  aborted : t.counters.aborted = 0

namespace Transaction
variable {c : Catalog} {s : Store} {t t' : Transaction} {w : Write} {answer : Bool}

theorem fits_begin (s : Store) : s.begin.Fits s.catalog :=
  ⟨Nat.le_refl _, fun _ => .zero, rfl, rfl⟩

theorem Fits.perform (h : t.Fits c) (hw : t.perform w = .ok (answer, t')) : t'.Fits c := by
  obtain ⟨⟨answer', next⟩, hnext, ht⟩ := bind_eq_ok_iff.1 hw
  cases ht
  refine ⟨h.base_le, fun hbase => (h.leads hbase).add (Catalog.leads_perform hnext), ?_, ?_⟩
  · simp [h.committed]
  · simp [h.aborted]

/-- When another catalog is taken over the version leaves the transaction behind. -/
theorem Fits.advance (h : t.Fits s.catalog) (next : Catalog) : t.Fits (s.advance next).catalog := by
  obtain hstays | hmoves := s.advance_stays_or_moves next
  · rwa [hstays]
  · have hle := h.base_le
    refine ⟨by omega, fun hbase => ?_, h.committed, h.aborted⟩
    -- The version is above the one that the transaction began with, and stays so.
    omega

theorem base_of_perform (hw : t.perform w = .ok (answer, t')) : t'.base = t.base := by
  obtain ⟨⟨answer', next⟩, -, ht⟩ := bind_eq_ok_iff.1 hw
  cases ht
  rfl

end Transaction

end SchemaKeeper
