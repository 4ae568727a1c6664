import SchemaKeeper.Cli.Run
import SchemaKeeper.Cli.Supply
import SchemaKeeper.Proofs.Store.Serial
import SchemaKeeper.Proofs.Store.Written

/-!
# A store that is opened again

A store in a directory writes its catalog to a file whenever the catalog changes, and a change that
cannot be written is not made.  So at any time the file says what the store holds, but for
validators that are null: they are written as null, and null is read as no validator.  A store that
is opened on the file goes on as the other one would, unless there are such validators.
-/
namespace SchemaKeeper

/-- A store that is kept in a file, with the transactions that are open on it, by number. -/
structure KeptStore where
  workspace : Workspace
  transactions : Nat → Option Transaction

namespace Turn

/-- The turn is a step of the transaction of a number. -/
def concerns (i : Nat) : Turn → Bool
  | .begin j | .within j _ | .commit j | .abort j => j == i
  | .write _ => false

/-- The document that the turn writes. -/
def document? : Turn → Option Json
  | .write w | .within _ w => w.document?
  | .begin _ | .commit _ | .abort _ => none

/-- The members of the document that the turn writes ascend. -/
def IsSettled (x : Turn) : Prop := ∀ document, x.document? = some document → document.IsSettled

end Turn

namespace OpenStore
variable {o p : OpenStore} {x : Turn} {free : Nat → Prop}

/-- What is left by a turn whose effect cannot be saved: a transaction that was to be committed
ends. -/
def afterFault (o : OpenStore) : Turn → OpenStore
  | .commit i => o.leave i
  | .write _ | .begin _ | .within _ _ | .abort _ => o

/-! ## Turns that go wrong or change nothing -/

@[simp] theorem afterFault_catalog (o : OpenStore) (x : Turn) :
    (o.afterFault x).store.catalog = o.store.catalog := by
  cases x <;> simp [afterFault]

theorem sees_leave (o : OpenStore) (i : Nat) (place : Option Nat) :
    (o.leave i).sees place = if place = some i then none else o.sees place := by
  cases place with
  | none => simp [sees]
  | some j => by_cases h : j = i <;> simp [sees, h]

theorem sees_of_sees_afterFault {place : Option Nat} {c : Catalog}
    (h : (o.afterFault x).sees place = some c) : o.sees place = some c := by
  cases x with
  | commit i =>
    rw [afterFault, sees_leave] at h
    split at h
    · cases h
    · exact h
  | write w | begin i | within i w | abort i => exact h

/-- A turn that leaves the version leaves the catalog. -/
theorem after_catalog_of_version
    (h : (o.after x).store.catalog.version = o.store.catalog.version) :
    (o.after x).store.catalog = o.store.catalog := by
  obtain ⟨next, -, hafter⟩ | hafter := o.after_catalog x
  · rw [hafter, Store.advance] at h ⊢
    split
    · rfl
    · rename_i hsame
      rw [if_neg hsame] at h
      exact absurd h (Nat.succ_ne_self _)
  · exact hafter

theorem leave_kept (o : OpenStore) (i : Nat) : (o.leave i).store.kept = o.store.kept := by
  unfold leave
  split <;> rfl

theorem advance_kept (s : Store) (next : Catalog) : (s.advance next).kept = s.kept := by
  unfold Store.advance
  split <;> rfl

/-- No turn has a store kept elsewhere. -/
theorem after_kept (o : OpenStore) (x : Turn) : (o.after x).store.kept = o.store.kept := by
  cases x with
  | write w =>
    cases h : o.store.catalog.perform w with
    | ok result =>
      simp only [after, turn, Store.perform, h, ok_bind, pure_eq_ok]
      exact advance_kept _ _
    | error e => simp [after, turn, Store.perform, h]
  | begin i | abort i => exact leave_kept o i
  | within i w =>
    cases ht : o.transactions i with
    | none => simp [after, turn, ht]
    | some t => cases h : t.perform w <;> simp [after, turn, ht, h]
  | commit i =>
    cases ht : o.transactions i with
    | none => simp [after, turn, ht]
    | some t =>
      by_cases hb : o.store.catalog.version = t.base
      · simp only [after, turn, ht, Store.commit, hb, if_true]
        exact advance_kept _ _
      · simp only [after, turn, ht, Store.commit, hb, if_false]
        exact leave_kept o i

/-! ## Stores that go on alike -/

/-- The stores hold the same catalog, and the same transactions under the numbers that are free. -/
structure Agree (free : Nat → Prop) (o p : OpenStore) : Prop where
  catalog : o.store.catalog = p.store.catalog
  transactions : ∀ i, free i → o.transactions i = p.transactions i

theorem Agree.leave (h : Agree free o p) (i : Nat) : Agree free (o.leave i) (p.leave i) := by
  refine ⟨by simp [h.catalog], fun j hj => ?_⟩
  rw [leave_transactions, leave_transactions, h.transactions j hj]

theorem Agree.seat (h : Agree free o p) (i : Nat) (t : Option Transaction) :
    Agree free (o.seat i t) (p.seat i t) := by
  refine ⟨h.catalog, fun j hj => ?_⟩
  rw [seat_transactions, seat_transactions, h.transactions j hj]

/-- A turn with a free number answers and does the same on both. -/
theorem Agree.turn (h : Agree free o p) (hx : ∀ i, x.concerns i = true → free i) :
    o.answer x = p.answer x ∧ Agree free (o.after x) (p.after x) := by
  have hadvance : ∀ next : Catalog,
      (o.store.advance next).catalog = (p.store.advance next).catalog := fun next => by
    simp only [Store.advance, h.catalog]
    split
    · exact h.catalog
    · rfl
  cases x with
  | write w =>
    simp only [answer, after, OpenStore.turn, Store.perform, h.catalog]
    cases hw : p.store.catalog.perform w with
    | ok result => exact ⟨rfl, hadvance result.2, h.transactions⟩
    | error e => exact ⟨rfl, h⟩
  | begin i =>
    refine ⟨rfl, ?_⟩
    have hbegin : (o.leave i).store.begin = (p.leave i).store.begin := by
      simp [Store.begin, h.catalog]
    simp only [after, OpenStore.turn, hbegin]
    exact (h.leave i).seat i _
  | within i w =>
    simp only [answer, after, OpenStore.turn, h.transactions i (hx i (by simp [Turn.concerns]))]
    cases p.transactions i with
    | none => exact ⟨rfl, h⟩
    | some t =>
      dsimp only
      cases t.perform w with
      | ok result => exact ⟨rfl, h.seat i _⟩
      | error e => exact ⟨rfl, h⟩
  | commit i =>
    simp only [answer, after, OpenStore.turn, h.transactions i (hx i (by simp [Turn.concerns]))]
    cases p.transactions i with
    | none => exact ⟨rfl, h⟩
    | some t =>
      simp only [Store.commit, h.catalog]
      by_cases hbase : p.store.catalog.version = t.base
      · simp only [hbase, if_true, true_and]
        exact ⟨hadvance t.working, (h.seat i none).transactions⟩
      · simp only [hbase, if_false, true_and]
        exact h.leave i
  | abort i => exact ⟨rfl, h.leave i⟩

theorem Agree.afterFault (h : Agree free o p) (x : Turn) :
    Agree free (o.afterFault x) (p.afterFault x) := by
  cases x with
  | commit i => exact h.leave i
  | write w | begin i | within i w | abort i => exact h

end OpenStore

namespace KeptStore

/-- A store in a directory on which no transaction is open. -/
def of (ws : Workspace) : KeptStore := ⟨ws, fun _ => none⟩

/-- The store apart from its file. -/
def running (k : KeptStore) : OpenStore := ⟨k.workspace.store, k.transactions⟩

def catalog (k : KeptStore) : Catalog := k.workspace.store.catalog

/-- Takes over what a turn leaves, and saves it if the catalog moved. -/
def install (k : KeptStore) (next : OpenStore) : KeptStore :=
  ⟨k.workspace.install next.store, next.transactions⟩

/-- What a turn answers and what it leaves, if saving meets a fault or none. -/
def turn (k : KeptStore) (x : Turn) (fault : Option FileFault) :
    Except StoreRefusal Bool × KeptStore :=
  let (answer, next) := k.running.turn x
  match fault with
  | none => (answer, k.install next)
  | some fault =>
    if next.store.catalog.version = k.catalog.version then (answer, k.install next)
    else (.error (.device fault.text), k.install (k.running.afterFault x))

/-- A turn with the fault, if any, that saving meets. -/
abbrev Attempt := Turn × Option FileFault

def answer (k : KeptStore) (x : Attempt) : Except StoreRefusal Bool := (k.turn x.1 x.2).1

def after (k : KeptStore) (x : Attempt) : KeptStore := (k.turn x.1 x.2).2

def run (k : KeptStore) (turns : List Attempt) : KeptStore := turns.foldl after k

/-- What turns answer one after the other. -/
def answers : KeptStore → List Attempt → List (Except StoreRefusal Bool)
  | _, [] => []
  | k, x :: turns => k.answer x :: (k.after x).answers turns

/-- The catalogs that turns save. -/
def saved : KeptStore → List Attempt → List Catalog
  | _, [] => []
  | k, x :: turns =>
    (if (k.after x).catalog.version = k.catalog.version then [] else [(k.after x).catalog])
      ++ (k.after x).saved turns

@[simp] theorem run_nil (k : KeptStore) : k.run [] = k := rfl

@[simp] theorem run_cons (k : KeptStore) (x : Attempt) (turns : List Attempt) :
    k.run (x :: turns) = (k.after x).run turns := rfl

variable {k l : KeptStore} {x : Attempt} {turns : List Attempt} {supply : Supply} {ws : Workspace}
  {text : Option String} {c : Catalog} {free : Nat → Prop}

/-- A turn takes effect and is saved, or meets a fault and changes nothing. -/
theorem after_cases (k : KeptStore) (x : Attempt) :
    (k.answer x = k.running.answer x.1 ∧ k.after x = k.install (k.running.after x.1)) ∨
      (∃ fault, k.answer x = .error (.device fault) ∧
        k.after x = k.install (k.running.afterFault x.1)) := by
  obtain ⟨x, fault⟩ := x
  cases fault with
  | none => exact .inl ⟨rfl, rfl⟩
  | some fault =>
    simp only [answer, after, turn]
    split
    · exact .inl ⟨rfl, rfl⟩
    · exact .inr ⟨fault.text, rfl, rfl⟩

/-! ## The file -/

/-- A store that is opened on the file holds the catalog. -/
def Reopens (text : Option String) (c : Catalog) : Prop :=
  ∀ supply, Cli.openText text supply = .ok (Cli.workspaceOn c true text supply)

/-- What is opened holds documents whose members ascend and no validator that is null. -/
theorem of_openText (h : Cli.openText text supply = .ok ws) :
    ∃ c, ws = Cli.workspaceOn c true text supply ∧ Reopens text c ∧ c.Holds Json.IsSettled ∧
      c.withoutNull = c := by
  cases text with
  | none =>
    cases h
    exact ⟨.empty, rfl, fun _ => rfl, Catalog.holds_empty _, rfl⟩
  | some text =>
    rw [Cli.openText] at h
    split at h
    · rename_i c hc
      cases h
      refine ⟨c, rfl, fun supply => ?_, Catalog.of_read? hc⟩
      rw [Cli.openText, hc]
    · cases h

theorem reopens_text (hlegible : c.IsLegible) (h : c.Holds Json.IsSettled) :
    Reopens (some c.text) c.withoutNull := fun supply => by
  rw [Cli.openText, Catalog.read?_text hlegible h]

/-- The file says what the store holds, but for validators that are null. -/
structure Faithful (k : KeptStore) : Prop where
  kept : k.workspace.store.kept = true
  settled : ∀ place c, k.running.sees place = some c → c.Holds Json.IsSettled
  reopens : Reopens k.workspace.file k.catalog.withoutNull

theorem faithful_of (h : Cli.openText text supply = .ok ws) : (of ws).Faithful := by
  obtain ⟨c, rfl, hreopens, hsettled, hnull⟩ := of_openText h
  refine ⟨rfl, fun place d hd => ?_, ?_⟩
  · cases place with
    | none =>
      obtain rfl := Option.some.inj hd
      exact hsettled
    | some i => cases hd
  · exact hnull.symm ▸ hreopens

/-- What is installed is saved if the version moved. -/
theorem Faithful.install (h : k.Faithful) {next : OpenStore} (hkept : next.store.kept = true)
    (hsettled : ∀ place c, next.sees place = some c → c.Holds Json.IsSettled)
    (hstays : next.store.catalog.version = k.catalog.version → next.store.catalog = k.catalog)
    (hlegible : next.store.catalog.version ≠ k.catalog.version → next.store.catalog.IsLegible) :
    (k.install next).Faithful := by
  refine ⟨hkept, hsettled, ?_⟩
  by_cases hversion : next.store.catalog.version = k.catalog.version
  · have hfile : (k.install next).workspace.file = k.workspace.file := by
      simp only [KeptStore.install, Workspace.install]
      exact if_neg (by simpa [catalog] using fun _ => hversion)
    have hcatalog : (k.install next).catalog = k.catalog := hstays hversion
    rw [hfile, hcatalog]
    exact h.reopens
  · have hfile : (k.install next).workspace.file = some next.store.catalog.text := by
      simp only [KeptStore.install, Workspace.install]
      exact if_pos (by simpa [hkept, catalog] using hversion)
    rw [hfile]
    exact reopens_text (hlegible hversion) (hsettled none _ rfl)

/-- Whatever a turn does and whether it can be saved or not, the file says what the store holds. -/
theorem Faithful.after (h : k.Faithful) (hx : x.1.IsSettled)
    (hlegible : ∀ c ∈ k.saved [x], c.IsLegible) : (k.after x).Faithful := by
  have hlegible : (k.after x).catalog.version ≠ k.catalog.version →
      (k.after x).catalog.IsLegible := fun hversion => hlegible _ (by simp [saved, hversion])
  obtain ⟨-, hafter⟩ | ⟨-, -, hafter⟩ := k.after_cases x
  · rw [hafter] at hlegible ⊢
    refine h.install ((k.running.after_kept x.1).trans h.kept) ?_
      OpenStore.after_catalog_of_version hlegible
    refine OpenStore.sees_after h.settled (fun _ _ hc => hc) fun place c w _ _ hc hw hperform => ?_
    refine (h.settled place c hc).perform (fun d hd => hx d ?_) hperform
    rw [hw]
    cases place <;> exact hd
  · rw [hafter] at hlegible ⊢
    have hkept : (k.running.afterFault x.1).store.kept = true := by
      cases x.1 with
      | commit i => exact (k.running.leave_kept i).trans h.kept
      | write w | begin i | within i w | abort i => exact h.kept
    exact h.install hkept
      (fun place c hc => h.settled place c (OpenStore.sees_of_sees_afterFault hc))
      (fun _ => OpenStore.afterFault_catalog _ _) hlegible

theorem Faithful.run (h : k.Faithful) (hsettled : ∀ x ∈ turns, x.1.IsSettled)
    (hlegible : ∀ c ∈ k.saved turns, c.IsLegible) : (k.run turns).Faithful := by
  induction turns generalizing k with
  | nil => exact h
  | cons x turns ih =>
    obtain ⟨hx, hrest⟩ := List.forall_mem_cons.1 hsettled
    refine ih (h.after hx fun c hc => hlegible c ?_) hrest fun c hc => hlegible c ?_
    · simp only [saved, List.append_nil] at hc
      exact List.mem_append_left _ hc
    · exact List.mem_append_right _ hc

/-! ## Going on -/

/-- Whatever is done to both stores, leaving aside transactions that are open on the first one, they
answer alike and the same is read from them. -/
def GoesOnAs (k l : KeptStore) : Prop :=
  ∀ later : List Attempt,
    (∀ x ∈ later, ∀ i, x.1.concerns i = true → k.transactions i = none) →
    l.answers later = k.answers later ∧
      ∀ place, (∀ i, place = some i → k.transactions i = none) →
        (l.run later).running.sees place = (k.run later).running.sees place

theorem agree_after (h : OpenStore.Agree free k.running l.running)
    (hx : ∀ i, x.1.concerns i = true → free i) :
    k.answer x = l.answer x ∧ OpenStore.Agree free (k.after x).running (l.after x).running := by
  obtain ⟨hanswer, hafter⟩ := h.turn hx
  obtain ⟨x, fault⟩ := x
  cases fault with
  | none => exact ⟨hanswer, hafter⟩
  | some fault =>
    simp only [answer, after, turn]
    have hmoved : (k.running.turn x).2.store.catalog.version = k.catalog.version ↔
        (l.running.turn x).2.store.catalog.version = l.catalog.version := by
      have hk : (k.running.turn x).2.store.catalog = (l.running.turn x).2.store.catalog :=
        hafter.catalog
      have hl : k.catalog = l.catalog := h.catalog
      rw [hk, hl]
    by_cases hv : (k.running.turn x).2.store.catalog.version = k.catalog.version
    · rw [if_pos hv, if_pos (hmoved.1 hv)]
      exact ⟨hanswer, hafter⟩
    · rw [if_neg hv, if_neg (mt hmoved.2 hv)]
      exact ⟨rfl, h.afterFault x⟩

theorem agree_run (h : OpenStore.Agree free k.running l.running)
    (hturns : ∀ x ∈ turns, ∀ i, x.1.concerns i = true → free i) :
    k.answers turns = l.answers turns ∧
      OpenStore.Agree free (k.run turns).running (l.run turns).running := by
  induction turns generalizing k l with
  | nil => exact ⟨rfl, h⟩
  | cons x turns ih =>
    obtain ⟨hx, hrest⟩ := List.forall_mem_cons.1 hturns
    obtain ⟨hanswer, hafter⟩ := agree_after h hx
    obtain ⟨hanswers, hrun⟩ := ih hafter hrest
    exact ⟨by rw [answers, answers, hanswer, hanswers], hrun⟩

/-- A store with the same catalog and no transactions goes on alike, and no other one does. -/
theorem goesOnAs_iff (hl : l.transactions = fun _ => none) :
    k.GoesOnAs l ↔ l.catalog = k.catalog := by
  constructor
  · intro h
    exact Option.some.inj ((h [] nofun).2 none nofun)
  · intro h later hlater
    have hagree : OpenStore.Agree (fun i => k.transactions i = none) k.running l.running :=
      ⟨h.symm, fun i hi => hi.trans (congrFun hl i).symm⟩
    obtain ⟨hanswers, hrun⟩ := agree_run hagree hlater
    refine ⟨hanswers.symm, fun place hplace => ?_⟩
    cases place with
    | none => exact congrArg some hrun.catalog.symm
    | some i =>
      exact congrArg (Option.map Transaction.working) (hrun.transactions i (hplace i rfl)).symm

/-- A store is opened in a directory, whether it finds a file there or not, and anything is done to
it, in transactions and outside, and whether it can be saved or not.  If the texts that it has saved
say what was written, a store that is opened on the file holds the same catalog, but for validators
that are null: these are lost, and exactly if there are none the second store goes on as the
first. -/
theorem reopen_run (hopen : Cli.openText text supply = .ok ws)
    (hsettled : ∀ x ∈ turns, x.1.IsSettled) (hlegible : ∀ c ∈ (of ws).saved turns, c.IsLegible)
    (supply' : Supply) :
    ∃ ws', Cli.openText ((of ws).run turns).workspace.file supply' = .ok ws' ∧
      ws'.store.catalog = ((of ws).run turns).catalog.withoutNull ∧
      (((of ws).run turns).GoesOnAs (of ws') ↔
        ∀ name state, ((of ws).run turns).catalog.collections.get? name = some state →
          state.validator ≠ some .null) := by
  have hfaithful := (faithful_of hopen).run hsettled hlegible
  refine ⟨_, hfaithful.reopens supply', rfl, ?_⟩
  rw [goesOnAs_iff rfl]
  exact Catalog.withoutNull_eq_iff

section Sample

/-- What comes from outside does not matter here. -/
def sampleSupply : Supply := Cli.supplyOf 0 0 0

/-- A store that is opened in a directory without a file. -/
def sampleStart : Workspace := Cli.workspaceOn .empty true none sampleSupply

/-- A document of the identifier a. -/
def sampleDocument : Json := .object [("_id", .string "a")]

/-- A document cannot be saved, and then it is inserted in a transaction. -/
def sampleAttempts : List Attempt :=
  [(.write (.createCollection "notes"), none),
    (.write (.insertOne "notes" sampleDocument), some (.other "full")), (.begin 1, none),
    (.within 1 (.insertOne "notes" sampleDocument), none), (.commit 1, none)]

/-- The catalogs that are saved on the way. -/
def sampleSaved : List Catalog :=
  [⟨1, Keyed.empty.insert "notes" .empty⟩,
    ⟨2, Keyed.empty.insert "notes"
      { Collection.empty with documents := Keyed.empty.insert "a" sampleDocument }⟩]

theorem isLegible_sampleSaved : ∀ c ∈ sampleSaved, c.IsLegible := by
  decide +kernel

theorem isSettled_sampleAttempts : ∀ x ∈ sampleAttempts, x.1.IsSettled := by
  have hsettled : sampleDocument.IsSettled := ⟨by decide, trivial, trivial⟩
  simp [sampleAttempts, Turn.IsSettled, Turn.document?, Write.document?, hsettled]

theorem reopen_run_sample :
    ∃ ws', Cli.openText ((of sampleStart).run sampleAttempts).workspace.file sampleSupply = .ok ws' ∧
      ws'.store.catalog = ((of sampleStart).run sampleAttempts).catalog.withoutNull ∧
      (((of sampleStart).run sampleAttempts).GoesOnAs (of ws') ↔
        ∀ name state,
          ((of sampleStart).run sampleAttempts).catalog.collections.get? name = some state →
            state.validator ≠ some .null) :=
  reopen_run (show Cli.openText none sampleSupply = .ok sampleStart from rfl)
    isSettled_sampleAttempts isLegible_sampleSaved sampleSupply

/-- The validator of a collection becomes null. -/
def nullAttempts : List Attempt :=
  [(.write (.createCollection "notes"), none), (.write (.setValidator "notes" .null), none)]

/-- The store refuses documents for a validator that is null, and the one that is opened on its file
takes them. -/
theorem reopen_loses_null : ∃ ws',
    Cli.openText ((of sampleStart).run nullAttempts).workspace.file sampleSupply = .ok ws' ∧
      ((of sampleStart).run nullAttempts).answer (.write (.insertOne "notes" sampleDocument), none) =
        .error (.internal "collection 'notes' has an unreadable validator") ∧
      (of ws').answer (.write (.insertOne "notes" sampleDocument), none) = .ok true := by
  have hlegible : ((of sampleStart).run nullAttempts).catalog.IsLegible := by
    decide +kernel
  have hcreated : (Catalog.empty.setCollection "notes" .empty).Holds Json.IsSettled :=
    (Catalog.holds_empty _).perform (w := .createCollection "notes") (by simp [Write.document?]) rfl
  have hput := hcreated.perform (w := .setValidator "notes" .null)
    (fun d hd => Option.some.inj hd ▸ trivial) rfl
  have hsettled : ((of sampleStart).run nullAttempts).catalog.Holds Json.IsSettled := hput
  exact ⟨_, reopens_text hlegible hsettled sampleSupply, rfl, rfl⟩

end Sample

end KeptStore
end SchemaKeeper
