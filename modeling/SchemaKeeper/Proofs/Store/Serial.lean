import SchemaKeeper.Proofs.Outcome
import SchemaKeeper.Proofs.Store.Finite
import SchemaKeeper.Store.Basic

/-!
# Transactions side by side

Any number of transactions are open on one store while other writes are committed at once.  A
transaction is committed exactly if no write took effect since it began, and then it has done what
its writes do to the catalog as it is at the commit.  Until then its writes are seen by itself
alone.

The one number that a commit compares stands for the whole catalog: a turn either leaves the
committed catalog as it is or raises its version, so equal versions mean equal catalogs.
-/
namespace SchemaKeeper

/-- A store with the transactions that are open on it, by number. -/
structure OpenStore where
  store : Store
  transactions : Nat → Option Transaction

/-- One turn in an interleaving: a write that is committed at once, or a step of a transaction. -/
inductive Turn where
  | write (w : Write)
  | begin (i : Nat)
  | within (i : Nat) (w : Write)
  | commit (i : Nat)
  | abort (i : Nat)

namespace Turn

/-- The turn begins or ends the transaction of a number. -/
def bounds (i : Nat) : Turn → Bool
  | .begin j | .commit j | .abort j => j == i
  | .write _ | .within _ _ => false

/-- No number in what the turn writes is infinite or undefined. -/
def isFinite : Turn → Bool
  | .write w | .within _ w => w.isFinite
  | .begin _ | .commit _ | .abort _ => true

end Turn

namespace Catalog

/-- Performs writes one after the other and answers what each of them answers. -/
def replay (c : Catalog) : List Write → Except StoreRefusal (List Bool × Catalog)
  | [] => .ok ([], c)
  | w :: ws => do
    let (answer, c) ← c.perform w
    let (answers, c) ← c.replay ws
    return (answer :: answers, c)

theorem replay_append {c c₁ c₂ : Catalog} {ws ws' : List Write} {answers answers' : List Bool}
    (h : c.replay ws = .ok (answers, c₁)) (h' : c₁.replay ws' = .ok (answers', c₂)) :
    c.replay (ws ++ ws') = .ok (answers ++ answers', c₂) := by
  induction ws generalizing c answers with
  | nil =>
    obtain ⟨rfl, rfl⟩ : answers = [] ∧ c₁ = c := by simpa [replay, eq_comm] using h
    exact h'
  | cons w ws ih =>
    obtain ⟨⟨answer, c'⟩, hw, h⟩ := bind_eq_ok_iff.1 h
    obtain ⟨⟨rest, _⟩, hrest, h⟩ := bind_eq_ok_iff.1 h
    obtain ⟨rfl, rfl⟩ : answer :: rest = answers ∧ _ = c₁ := by simpa using h
    simp [replay, hw, ih hrest]

/-- The collections of the catalogs hold the same, whatever their versions are. -/
def holdsSame (a b : Catalog) : Bool := sameCollections a.collections.entries b.collections.entries

/-- A write does not count itself. -/
theorem perform_version {c c' : Catalog} {w : Write} {answer : Bool}
    (h : c.perform w = .ok (answer, c')) : c'.version = c.version := by
  cases w <;>
    simp only [perform, bind_eq_ok_iff, pure_eq_ok, throw_eq_error, error_bind] at h <;>
    grind [setCollection, bind_eq_ok_iff, error_bind]

theorem same_of_version {a b : Catalog} (h : a.version = b.version) : a.same b = a.holdsSame b := by
  simp [same, holdsSame, h]

end Catalog

namespace OpenStore

/-- A store on which no transaction is open. -/
def of (s : Store) : OpenStore := ⟨s, fun _ => none⟩

/-- Has a transaction, or none, under a number. -/
def seat (o : OpenStore) (i : Nat) (t : Option Transaction) : OpenStore :=
  { o with transactions := fun j => if j = i then t else o.transactions j }

@[simp] theorem seat_store (o : OpenStore) (i : Nat) (t : Option Transaction) :
    (o.seat i t).store = o.store := rfl

@[simp] theorem seat_transactions (o : OpenStore) (i j : Nat) (t : Option Transaction) :
    (o.seat i t).transactions j = if j = i then t else o.transactions j := rfl

/-- Ends the transaction of a number, if it is open, without effect. -/
def leave (o : OpenStore) (i : Nat) : OpenStore :=
  match o.transactions i with
  | some _ => { o.seat i none with store := o.store.countAborted }
  | none => o

@[simp] theorem leave_catalog (o : OpenStore) (i : Nat) :
    (o.leave i).store.catalog = o.store.catalog := by
  unfold leave
  split <;> rfl

@[simp] theorem leave_transactions (o : OpenStore) (i j : Nat) :
    (o.leave i).transactions j = if j = i then none else o.transactions j := by
  unfold leave
  split
  · rfl
  · by_cases h : j = i <;> simp_all

/-- What a turn answers and what it leaves. -/
def turn (o : OpenStore) : Turn → Except StoreRefusal Bool × OpenStore
  | .write w =>
    match o.store.perform w with
    | .ok (answer, next) => (.ok answer, { o with store := next })
    | .error e => (.error e, o)
  | .begin i => (.ok true, (o.leave i).seat i (some (o.leave i).store.begin))
  | .within i w =>
    match o.transactions i with
    | none => (.error .transactionClosed, o)
    | some t =>
      match t.perform w with
      | .ok (answer, next) => (.ok answer, o.seat i (some next))
      | .error e => (.error e, o)
  | .commit i =>
    match o.transactions i with
    | none => (.error .transactionClosed, o)
    | some t =>
      match o.store.commit t with
      | .ok next => (.ok true, { o.seat i none with store := next })
      | .error e => (.error e, o.leave i)
  | .abort i => (.ok true, o.leave i)

def answer (o : OpenStore) (x : Turn) : Except StoreRefusal Bool := (o.turn x).1

def after (o : OpenStore) (x : Turn) : OpenStore := (o.turn x).2

def run (o : OpenStore) (turns : List Turn) : OpenStore := turns.foldl after o

@[simp] theorem run_nil (o : OpenStore) : o.run [] = o := rfl

@[simp] theorem run_cons (o : OpenStore) (x : Turn) (turns : List Turn) :
    o.run (x :: turns) = (o.after x).run turns := rfl

/-- The catalog that reads answer from: that of a transaction inside it, the committed one outside
of all. -/
def sees (o : OpenStore) : Option Nat → Option Catalog
  | some i => (o.transactions i).map Transaction.working
  | none => some o.store.catalog

/-- The turn takes effect: the committed catalog does not hold the same after it. -/
def Changes (o : OpenStore) (x : Turn) : Prop :=
  (o.after x).store.catalog.holdsSame o.store.catalog = false

/-- One of the turns takes effect when it is its turn. -/
def Disturbed : OpenStore → List Turn → Prop
  | _, [] => False
  | o, x :: turns => o.Changes x ∨ Disturbed (o.after x) turns

/-- What a turn writes in the transaction of a number, with its answer, unless it is refused. -/
def own (o : OpenStore) (i : Nat) : Turn → List (Write × Bool)
  | .within j w =>
    if j = i then
      match o.answer (.within j w) with
      | .ok answer => [(w, answer)]
      | .error _ => []
    else []
  | .write _ | .begin _ | .commit _ | .abort _ => []

/-- The writes of a transaction that were not refused, in order and with their answers. -/
def accepted (i : Nat) : OpenStore → List Turn → List (Write × Bool)
  | _, [] => []
  | o, x :: turns => o.own i x ++ accepted i (o.after x) turns

variable {o : OpenStore} {x : Turn} {turns : List Turn} {i : Nat}

/-! ## What a turn does to the committed catalog -/

/-- The turn hands a catalog over to the store. -/
inductive Lands (o : OpenStore) : Turn → Catalog → Prop
  | write {w : Write} {answer : Bool} {next : Catalog}
      (h : o.store.catalog.perform w = .ok (answer, next)) : Lands o (.write w) next
  | commit {i : Nat} {t : Transaction} (ht : o.transactions i = some t)
      (hbase : o.store.catalog.version = t.base) : Lands o (.commit i) t.working

/-- A turn moves the committed catalog only by handing one over. -/
theorem after_catalog (o : OpenStore) (x : Turn) :
    (∃ next, o.Lands x next ∧ (o.after x).store.catalog = (o.store.advance next).catalog) ∨
      (o.after x).store.catalog = o.store.catalog := by
  cases x with
  | write w =>
    cases h : o.store.catalog.perform w with
    | ok result => exact .inl ⟨result.2, .write h, by simp [after, turn, Store.perform, h]; rfl⟩
    | error e => exact .inr (by simp [after, turn, Store.perform, h])
  | begin j => exact .inr (by simp [after, turn])
  | within j w =>
    refine .inr ?_
    cases ht : o.transactions j with
    | none => simp [after, turn, ht]
    | some t => cases h : t.perform w <;> simp [after, turn, ht, h]
  | commit j =>
    cases ht : o.transactions j with
    | none => exact .inr (by simp [after, turn, ht])
    | some t =>
      by_cases hb : o.store.catalog.version = t.base
      · exact .inl ⟨t.working, .commit ht hb, by simp [after, turn, ht, Store.commit, hb]; rfl⟩
      · exact .inr (by simp [after, turn, ht, Store.commit, hb])
  | abort j => exact .inr (by simp [after, turn])

/-- A copy is as finite as what it is taken from and written into it, and it bears the version that
its transaction began with, which is not ahead of the store. -/
structure Coherent (o : OpenStore) : Prop where
  finite : o.store.catalog.IsFinite
  copies : ∀ i t, o.transactions i = some t →
    t.working.IsFinite ∧ t.working.version = t.base ∧ t.base ≤ o.store.catalog.version

theorem coherent_of {s : Store} (h : s.catalog.IsFinite) : (of s).Coherent :=
  ⟨h, fun _ _ ht => nomatch ht⟩

/-- What is handed over bears the version of the store. -/
theorem Lands.fresh {next : Catalog} (h : o.Lands x next) (ho : o.Coherent)
    (hx : x.isFinite = true) : next.IsFinite ∧ next.version = o.store.catalog.version := by
  cases h with
  | write h => exact ⟨ho.finite.perform hx h, Catalog.perform_version h⟩
  | commit ht hbase =>
    obtain ⟨hfinite, hversion, -⟩ := ho.copies _ _ ht
    exact ⟨hfinite, hversion.trans hbase.symm⟩

/-- A turn without effect leaves the committed catalog as it is, and one with effect raises its
version. -/
theorem Coherent.moves (ho : o.Coherent) (hx : x.isFinite = true) :
    (¬ o.Changes x ∧ (o.after x).store.catalog = o.store.catalog) ∨
      (o.Changes x ∧ (o.after x).store.catalog.version = o.store.catalog.version + 1) := by
  have hself : o.store.catalog.holdsSame o.store.catalog = true := ho.finite.sameCollections_self
  obtain ⟨next, hlands, hafter⟩ | hafter := o.after_catalog x
  · have hsame := Catalog.same_of_version (hlands.fresh ho hx).2
    cases hnext : next.holdsSame o.store.catalog with
    | true =>
      have hstays : (o.after x).store.catalog = o.store.catalog := by
        simp [hafter, Store.advance, hsame, hnext]
      exact .inl ⟨by simp [Changes, hstays, hself], hstays⟩
    | false =>
      have hmoves : (o.after x).store.catalog
          = { next with version := o.store.catalog.version + 1 } := by
        simp [hafter, Store.advance, hsame, hnext]
      exact .inr ⟨by rw [Changes, hmoves]; exact hnext, by rw [hmoves]⟩
  · exact .inl ⟨by simp [Changes, hafter, hself], hafter⟩

/-- What the store holds after a turn is what was handed over to it. -/
theorem Lands.holdsSame {next : Catalog} (h : o.Lands x next) (ho : o.Coherent)
    (hx : x.isFinite = true)
    (hafter : (o.after x).store.catalog = (o.store.advance next).catalog) :
    next.holdsSame (o.after x).store.catalog = true := by
  obtain ⟨hfinite, hversion⟩ := h.fresh ho hx
  have hsame := Catalog.same_of_version hversion
  cases hnext : next.holdsSame o.store.catalog with
  | true => simp [hafter, Store.advance, hsame, hnext]
  | false =>
    simp only [hafter, Store.advance, hsame, hnext]
    exact hfinite.sameCollections_self

theorem Coherent.finite_after (ho : o.Coherent) (hx : x.isFinite = true) :
    (o.after x).store.catalog.IsFinite := by
  obtain ⟨next, hlands, hafter⟩ | hafter := o.after_catalog x
  · rw [hafter, Store.advance]
    split
    · exact ho.finite
    · exact (hlands.fresh ho hx).1
  · exact hafter ▸ ho.finite

theorem Coherent.version_le (ho : o.Coherent) (hx : x.isFinite = true) :
    o.store.catalog.version ≤ (o.after x).store.catalog.version := by
  obtain ⟨-, h⟩ | ⟨-, h⟩ := ho.moves hx
  · exact h ▸ Nat.le_refl _
  · omega

/-! ## What a turn does to open transactions -/

@[simp] theorem transactions_write (o : OpenStore) (w : Write) :
    (o.after (.write w)).transactions = o.transactions := by
  cases h : o.store.perform w <;> simp [after, turn, h]

@[simp] theorem transactions_begin (o : OpenStore) (i j : Nat) :
    (o.after (.begin j)).transactions i
      = if i = j then some o.store.begin else o.transactions i := by
  simp only [after, turn, seat_transactions, leave_transactions, Store.begin, leave_catalog]
  split <;> simp_all

@[simp] theorem transactions_commit (o : OpenStore) (i j : Nat) :
    (o.after (.commit j)).transactions i = if i = j then none else o.transactions i := by
  cases ht : o.transactions j with
  | none => by_cases hij : i = j <;> simp [after, turn, ht, hij]
  | some t => cases h : o.store.commit t <;> simp [after, turn, ht, h]

@[simp] theorem transactions_abort (o : OpenStore) (i j : Nat) :
    (o.after (.abort j)).transactions i = if i = j then none else o.transactions i := by
  simp [after, turn]

theorem transactions_within_of_ne (o : OpenStore) {i j : Nat} (w : Write) (hij : i ≠ j) :
    (o.after (.within j w)).transactions i = o.transactions i := by
  cases ht : o.transactions j with
  | none => simp [after, turn, ht]
  | some t => cases h : t.perform w <;> simp [after, turn, ht, h, hij]

/-- A turn that neither begins nor ends a transaction makes its accepted write to the copy of it. -/
theorem transactions_after {t : Transaction} (ht : o.transactions i = some t)
    (hx : x.bounds i = false) :
    ∃ t', (o.after x).transactions i = some t' ∧ t'.base = t.base ∧
      t.working.replay ((o.own i x).map Prod.fst) = .ok ((o.own i x).map Prod.snd, t'.working) := by
  cases x with
  | write w => exact ⟨t, by simpa using ht, rfl, rfl⟩
  | begin j | commit j | abort j =>
    have hij : i ≠ j := fun h => by simp [Turn.bounds, h] at hx
    exact ⟨t, by simpa [hij] using ht, rfl, rfl⟩
  | within j w =>
    by_cases hij : i = j
    · subst hij
      cases h : t.working.perform w with
      | ok result =>
        refine ⟨{ t with working := result.2, counters := t.counters + w.counted result.1 },
          by simp [after, turn, ht, Transaction.perform, h], rfl, ?_⟩
        simp [own, answer, turn, ht, Transaction.perform, h, Catalog.replay]
      | error e =>
        refine ⟨t, by simp [after, turn, ht, Transaction.perform, h], rfl, ?_⟩
        simp [own, answer, turn, ht, Transaction.perform, h, Catalog.replay]
    · exact ⟨t, by rw [transactions_within_of_ne o w hij, ht], rfl,
        by simp [own, Ne.symm hij, Catalog.replay]⟩

/-- A transaction that is open after a turn has just begun, was open before as it is, or was open
before and has made the write of the turn. -/
theorem copy_of_after {t' : Transaction} (h : (o.after x).transactions i = some t') :
    t' = o.store.begin ∨ ∃ t, o.transactions i = some t ∧
      (t' = t ∨ ∃ w answer, x = .within i w ∧ t.perform w = .ok (answer, t')) := by
  cases x with
  | write w => exact .inr ⟨t', by simpa using h, .inl rfl⟩
  | begin j =>
    rw [transactions_begin] at h
    split at h
    · injection h with h
      exact .inl h.symm
    · exact .inr ⟨t', h, .inl rfl⟩
  | commit j | abort j =>
    right
    simp only [transactions_commit, transactions_abort] at h
    split at h
    · cases h
    · exact ⟨t', h, .inl rfl⟩
  | within j w =>
    right
    by_cases hij : i = j
    · subst hij
      cases ht : o.transactions i with
      | none => simp [after, turn, ht] at h
      | some t =>
        refine ⟨t, rfl, ?_⟩
        cases hw : t.perform w with
        | ok result =>
          have ht' : result.2 = t' := by simpa [after, turn, ht, hw] using h
          exact .inr ⟨w, result.1, rfl, ht' ▸ hw⟩
        | error e => exact .inl (by simpa [after, turn, ht, hw, eq_comm] using h)
    · exact ⟨t', by rwa [transactions_within_of_ne o w hij] at h, .inl rfl⟩

/-- What is kept by the writes of a turn is kept by the turn. -/
theorem sees_after {P : Catalog → Prop} (h : ∀ place c, o.sees place = some c → P c)
    (hversion : ∀ c v, P c → P { c with version := v })
    (hwrite : ∀ place c w answer next, o.sees place = some c →
      x = (match place with | some i => .within i w | none => .write w) →
      c.perform w = .ok (answer, next) → P next) :
    ∀ place c, (o.after x).sees place = some c → P c := by
  have hcommitted : P (o.after x).store.catalog := by
    obtain ⟨next, hlands, hafter⟩ | hafter := o.after_catalog x
    · have hnext : P next := by
        cases hlands with
        | write hw => exact hwrite none _ _ _ _ rfl rfl hw
        | @commit i t ht _ => exact h (some i) _ (by rw [sees, ht]; rfl)
      rw [hafter, Store.advance]
      split
      · exact h none _ rfl
      · exact hversion _ _ hnext
    · exact hafter ▸ h none _ rfl
  intro place c hc
  cases place with
  | none =>
    obtain rfl := Option.some.inj hc
    exact hcommitted
  | some i =>
    obtain ⟨t', ht', rfl⟩ := Option.map_eq_some_iff.1 hc
    rcases copy_of_after ht' with rfl | ⟨t, ht, rfl | ⟨w, answer, rfl, hw⟩⟩
    · exact h none _ rfl
    · exact h (some i) _ (by rw [sees, ht]; rfl)
    · obtain ⟨⟨_, next⟩, hnext, hw⟩ := bind_eq_ok_iff.1 hw
      obtain ⟨-, rfl⟩ : _ ∧ _ = t' := by simpa using hw
      exact hwrite (some i) t.working w _ next (by rw [sees, ht]; rfl) rfl hnext

theorem Coherent.after (ho : o.Coherent) (hx : x.isFinite = true) : (o.after x).Coherent := by
  refine ⟨ho.finite_after hx, fun j t' ht' => ?_⟩
  have hle := ho.version_le hx
  rcases copy_of_after ht' with rfl | ⟨t, ht, rfl | ⟨w, answer, rfl, hw⟩⟩
  · exact ⟨ho.finite, rfl, hle⟩
  · obtain ⟨hfinite, hversion, hbase⟩ := ho.copies j t' ht
    exact ⟨hfinite, hversion, Nat.le_trans hbase hle⟩
  · obtain ⟨hfinite, hversion, hbase⟩ := ho.copies j t ht
    obtain ⟨⟨_, next⟩, hnext, hw⟩ := bind_eq_ok_iff.1 hw
    simp only [pure_eq_ok, Except.ok.injEq, Prod.mk.injEq] at hw
    obtain ⟨rfl, rfl⟩ := hw
    exact ⟨hfinite.perform hx hnext, (Catalog.perform_version hnext).trans hversion,
      Nat.le_trans hbase hle⟩

/-! ## Runs -/

theorem Coherent.run (ho : o.Coherent) (hturns : ∀ x ∈ turns, x.isFinite = true) :
    (o.run turns).Coherent := by
  induction turns generalizing o with
  | nil => exact ho
  | cons x turns ih =>
    obtain ⟨hx, hrest⟩ := List.forall_mem_cons.1 hturns
    exact ih (ho.after hx) hrest

/-- Equal versions mean equal catalogs: turns without effect leave the committed catalog as it is,
and with a turn that takes effect the version has gone up. -/
theorem Coherent.run_moves (ho : o.Coherent) (hturns : ∀ x ∈ turns, x.isFinite = true) :
    (¬ o.Disturbed turns ∧ (o.run turns).store.catalog = o.store.catalog) ∨
      (o.Disturbed turns ∧ o.store.catalog.version < (o.run turns).store.catalog.version) := by
  induction turns generalizing o with
  | nil => exact .inl ⟨id, rfl⟩
  | cons x turns ih =>
    obtain ⟨hx, hrest⟩ := List.forall_mem_cons.1 hturns
    obtain ⟨hstill, hstays⟩ | ⟨hmoved, hup⟩ := ho.moves hx
    · obtain ⟨h, hkept⟩ | ⟨h, hgrown⟩ := ih (ho.after hx) hrest
      · exact .inl ⟨not_or.2 ⟨hstill, h⟩, hkept.trans hstays⟩
      · exact .inr ⟨.inr h, hstays ▸ hgrown⟩
    · obtain ⟨-, hkept⟩ | ⟨-, hgrown⟩ := ih (ho.after hx) hrest
      · exact .inr ⟨.inl hmoved, by rw [run_cons, hkept]; omega⟩
      · exact .inr ⟨.inl hmoved, by rw [run_cons]; omega⟩

/-- An open transaction holds what its accepted writes make of the catalog that it began with. -/
theorem transactions_run {t : Transaction} (ht : o.transactions i = some t)
    (hturns : ∀ x ∈ turns, x.bounds i = false) :
    ∃ t', (o.run turns).transactions i = some t' ∧ t'.base = t.base ∧
      t.working.replay ((accepted i o turns).map Prod.fst)
        = .ok ((accepted i o turns).map Prod.snd, t'.working) := by
  induction turns generalizing o t with
  | nil => exact ⟨t, ht, rfl, rfl⟩
  | cons x turns ih =>
    obtain ⟨hx, hrest⟩ := List.forall_mem_cons.1 hturns
    obtain ⟨t₁, ht₁, hbase₁, hreplay₁⟩ := transactions_after ht hx
    obtain ⟨t₂, ht₂, hbase₂, hreplay₂⟩ := ih ht₁ hrest
    refine ⟨t₂, ht₂, hbase₂.trans hbase₁, ?_⟩
    simp only [accepted, List.map_append]
    exact Catalog.replay_append hreplay₁ hreplay₂

/-! ## Serializability -/

/-- What is promised of the transaction of a number that is begun on the store, whatever turns
follow before it ends. -/
structure Serializes (o : OpenStore) (i : Nat) (during : List Turn) : Prop where
  /-- It is committed exactly if no turn has taken effect since it began. -/
  committed_iff : (o.run (.begin i :: during)).answer (.commit i) = .ok true ↔
    ¬ o.Disturbed (.begin i :: during)
  /-- Otherwise there is a conflict, and the catalog stays as it is. -/
  conflict : o.Disturbed (.begin i :: during) →
    (∃ reason, (o.run (.begin i :: during)).answer (.commit i) = .error (.writeConflict reason)) ∧
    ((o.run (.begin i :: during)).after (.commit i)).store.catalog
      = (o.run (.begin i :: during)).store.catalog
  /-- Once it is committed, the catalog is what its accepted writes make of the catalog as it was
  just before, and there they answer what they have answered. -/
  replayed : (o.run (.begin i :: during)).answer (.commit i) = .ok true → ∃ result,
    (o.run (.begin i :: during)).store.catalog.replay
        ((accepted i o (.begin i :: during)).map Prod.fst)
      = .ok ((accepted i o (.begin i :: during)).map Prod.snd, result) ∧
    result.holdsSame ((o.run (.begin i :: during)).after (.commit i)).store.catalog = true
  /-- Reads inside it see the catalog as it was when it began, with its accepted writes. -/
  inside : ∃ seen, (o.run (.begin i :: during)).sees (some i) = some seen ∧
    o.store.catalog.replay ((accepted i o (.begin i :: during)).map Prod.fst)
      = .ok ((accepted i o (.begin i :: during)).map Prod.snd, seen)

/-- What is promised of the next turn. -/
structure Isolates (o : OpenStore) (x : Turn) : Prop where
  /-- A refused write changes nothing, and a refused commit ends its transaction alone. -/
  refused : ∀ e, o.answer x = .error e → ∀ place, (∀ i, x = .commit i → place ≠ some i) →
    (o.after x).sees place = o.sees place
  /-- Reads outside see what is committed: the catalog as it was, or the one that a write
  or a transaction has handed over. -/
  outside : (o.after x).sees none = o.sees none ∨
    ∃ next, o.Lands x next ∧ next.holdsSame (o.after x).store.catalog = true

theorem sees_of_refused {e : StoreRefusal} (he : o.answer x = .error e) {place : Option Nat}
    (hplace : ∀ i, x = .commit i → place ≠ some i) : (o.after x).sees place = o.sees place := by
  cases x with
  | write w => cases hw : o.store.perform w <;> simp_all [answer, after, turn]
  | begin j | abort j => simp [answer, turn] at he
  | within j w =>
    cases ht : o.transactions j with
    | none => simp [after, turn, ht]
    | some t => cases hw : t.perform w <;> simp_all [answer, after, turn]
  | commit j =>
    cases place with
    | none =>
      cases ht : o.transactions j with
      | none => simp [after, turn, ht]
      | some t => cases hc : o.store.commit t <;> simp_all [answer, sees, after, turn]
    | some i =>
      have hij : i ≠ j := fun h => hplace j rfl (h ▸ rfl)
      simp [sees, hij]

theorem isolates (ho : o.Coherent) (hx : x.isFinite = true) : o.Isolates x := by
  refine ⟨fun _ he _ hplace => sees_of_refused he hplace, ?_⟩
  obtain ⟨next, hlands, hafter⟩ | hafter := o.after_catalog x
  · exact .inr ⟨next, hlands, hlands.holdsSame ho hx hafter⟩
  · exact .inl (congrArg some hafter)

/-- The commit of an open transaction hands its copy over if the version has not moved, and is
refused as a conflict otherwise. -/
theorem answer_commit {t : Transaction} (ht : o.transactions i = some t) :
    (o.store.catalog.version = t.base ∧ o.answer (.commit i) = .ok true ∧
        (o.after (.commit i)).store.catalog = (o.store.advance t.working).catalog) ∨
      (o.store.catalog.version ≠ t.base ∧
        (∃ reason, o.answer (.commit i) = .error (.writeConflict reason)) ∧
        (o.after (.commit i)).store.catalog = o.store.catalog) := by
  by_cases h : o.store.catalog.version = t.base
  · refine .inl ⟨h, ?_, ?_⟩
    · simp [answer, turn, ht, Store.commit, h]
    · simp [after, turn, ht, Store.commit, h]
      rfl
  · refine .inr ⟨h, ?_, ?_⟩ <;> simp [answer, after, turn, ht, Store.commit, h]

/-- Whatever turns there were before, a transaction that is begun is serialized: the first to
commit wins. -/
theorem serializes_run {s : Store} {past during : List Turn} (hs : s.catalog.IsFinite)
    (hpast : ∀ x ∈ past, x.isFinite = true) (hduring : ∀ x ∈ during, x.isFinite = true)
    (hopen : ∀ x ∈ during, x.bounds i = false) :
    ((of s).run past).Serializes i during ∧
      ∀ x, x.isFinite = true → ((of s).run past).Isolates x := by
  have ho : ((of s).run past).Coherent := (coherent_of hs).run hpast
  refine ⟨?_, fun x hx => isolates ho hx⟩
  generalize (of s).run past = o at ho
  have hturns : ∀ x ∈ Turn.begin i :: during, x.isFinite = true :=
    List.forall_mem_cons.2 ⟨rfl, hduring⟩
  obtain ⟨t, ht, hbase, hreplay⟩ :=
    transactions_run (o := o.after (.begin i)) (t := o.store.begin) (by simp) hopen
  have hinside : ∃ seen, (o.run (.begin i :: during)).sees (some i) = some seen ∧
      o.store.catalog.replay ((accepted i o (.begin i :: during)).map Prod.fst)
        = .ok ((accepted i o (.begin i :: during)).map Prod.snd, seen) :=
    ⟨t.working, by simp [sees, ht], hreplay⟩
  obtain ⟨hstill, hkept⟩ | ⟨hmoved, hup⟩ := ho.run_moves hturns
  · have hversion : (o.run (.begin i :: during)).store.catalog.version = t.base := by
      rw [hkept, hbase]
      rfl
    obtain ⟨-, hok, hafter⟩ | ⟨hne, -⟩ := answer_commit (o := o.run (.begin i :: during)) ht
    · refine ⟨iff_of_true hok hstill, fun h => absurd h hstill, fun _ => ?_, hinside⟩
      refine ⟨t.working, by rw [hkept]; exact hreplay, ?_⟩
      exact (Lands.commit ht hversion).holdsSame (ho.run hturns) rfl hafter
    · exact absurd hversion hne
  · have hversion : (o.run (.begin i :: during)).store.catalog.version ≠ t.base := by
      rw [hbase]
      exact Nat.ne_of_gt hup
    obtain ⟨heq, -⟩ | ⟨-, ⟨reason, hconflict⟩, hafter⟩ :=
      answer_commit (o := o.run (.begin i :: during)) ht
    · exact absurd heq hversion
    · have hrefused : (o.run (.begin i :: during)).answer (.commit i) ≠ .ok true := by
        rw [hconflict]
        intro h
        cases h
      exact ⟨iff_of_false hrefused (not_not_intro hmoved), fun _ => ⟨⟨reason, hconflict⟩, hafter⟩,
        fun h => absurd h hrefused, hinside⟩

section Sample

/-- One transaction is open and has written. -/
def samplePast : List Turn :=
  [.write (.createCollection "notes"), .begin 1,
    .within 1 (.insertOne "notes" (.object [("_id", .string "a"), ("rank", .int 1)]))]

/-- The second one makes a write that is refused and one that is not, and the first one commits. -/
def sampleDuring : List Turn :=
  [.within 2 (.createCollection "notes"), .within 2 (.dropCollection "notes"), .commit 1]

theorem serializes_run_sample :
    ((of .inMemory).run samplePast).Serializes 2 sampleDuring ∧
      ∀ x, x.isFinite = true → ((of .inMemory).run samplePast).Isolates x :=
  serializes_run Catalog.isFinite_empty (by decide) (by decide) (by decide)

end Sample

end OpenStore
end SchemaKeeper
