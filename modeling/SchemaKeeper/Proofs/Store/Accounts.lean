import SchemaKeeper.Cli.Run
import SchemaKeeper.Proofs.Store.Counting
import SchemaKeeper.Proofs.Workspace

/-!
# The accounts of a store

A store counts what is done to it, and its journal tells of its transactions.  Whatever writes and
transactions there are, interleaved in any way and saved or not, the accounts balance: collections
that were created and not dropped are the ones that are there more than at first, each transaction
that has ended is counted once, as committed or as aborted, and its lines in the journal are the one
of its beginning and the one of its end.
-/
namespace SchemaKeeper

/-! ## Operations one by one -/

namespace Op
variable {ε α β : Type} {ws : Workspace}

theorem write_alone [FromStore ε] (w : Write) (h : ws.transaction = none) :
    (write w : Op ε Bool) ws = match ws.store.perform w with
      | .ok (answer, next) => .ok answer (ws.install next)
      | .error e => .error (FromStore.ofStore e) ws := by
  simp only [write, bind_apply, get_apply, h]
  cases ws.store.perform w <;> rfl

theorem within_write [FromStore ε] (t : Transaction) (w : Write) (h : ws.transaction = none) :
    (within t (write w : Op ε Bool) : Op β (Except ε Bool × Transaction)) ws =
      match t.perform w with
      | .ok (answer, t') => .ok (.ok answer, t') ws
      | .error e => .ok (.error (FromStore.ofStore e), t) ws := by
  obtain ⟨store, file, _, journal, supply⟩ := ws
  obtain rfl : _ = none := h
  have hwrite : (write w : Op ε Bool) ⟨store, file, some t, journal, supply⟩ = _ :=
    write_within rfl
  simp only [within, bind_apply, get_apply, modify_apply, attempt, hwrite]
  cases t.perform w <;> rfl

/-- An operation whose effect is saved in the file of the store, if there is one.  Where saving
meets a fault the operation is not done, but another one in its place, and it is refused. -/
def saving (fault : Option FileFault) (op : Op StoreRefusal α) (undo : Op StoreRefusal Unit) :
    Op StoreRefusal α := fun ws =>
  match fault, op ws with
  | some fault, .ok a ws' =>
    if ws'.store.kept && ws'.store.catalog.version != ws.store.catalog.version then
      (undo >>= fun _ => throw (.device fault.text)) ws
    else .ok a ws'
  | _, result => result

/-- What must be saved is done as it is, or another thing is. -/
theorem saving_cases (fault : Option FileFault) (op : Op StoreRefusal α)
    (undo : Op StoreRefusal Unit) (ws : Workspace) :
    saving fault op undo ws = op ws ∨
      ∃ e, saving fault op undo ws = (undo >>= fun _ => throw e) ws := by
  unfold saving
  split
  · split
    · exact .inr ⟨_, rfl⟩
    · rename_i h _
      exact .inl h.symm
  · exact .inl rfl

end Op

/-! ## Steps -/

/-- How a transaction stands: it is open, or it has ended.  One that was committed keeps the version
that it led to. -/
inductive Fate where
  | active (t : Transaction)
  | committed (base version : Nat)
  | aborted (base : Nat)

namespace Fate

def isEnded : Fate → Bool
  | .active _ => false
  | _ => true

def isCommitted : Fate → Bool
  | .committed _ _ => true
  | _ => false

def isAborted : Fate → Bool
  | .aborted _ => true
  | _ => false

/-- The line of a beginning. -/
def began (base : Nat) : Line :=
  .of .trace Event.transactionBegin.text [("base_version", toString base)]

/-- The line of a commit. -/
def committedAt (version : Nat) : Line :=
  .of .trace Event.transactionCommit.text [("version", toString version)]

/-- The line of an abort. -/
def abortedFrom (base : Nat) : Line :=
  .of .trace Event.transactionAbort.text [("base_version", toString base)]

/-- The lines that a transaction has left in the journal. -/
def lines : Fate → List Line
  | .active t => [began t.base]
  | .committed base version => [began base, committedAt version]
  | .aborted base => [began base, abortedFrom base]

end Fate

/-- A step of a run: a write that is committed at once, or a step of a transaction, by its number
among those that were begun.  What must be saved may meet a fault. -/
inductive StoreStep where
  | write (w : Write) (fault : Option FileFault)
  | begin
  | within (i : Nat) (w : Write)
  | commit (i : Nat) (fault : Option FileFault)
  | abort (i : Nat)

/-- The step is to end the transaction of a number. -/
def StoreStep.ends (i : Nat) : StoreStep → Bool
  | .commit j _ | .abort j => j == i
  | .write _ _ | .begin | .within _ _ => false

/-- A workspace with the fates of all transactions that were begun on its store, in order. -/
structure WatchedStore where
  workspace : Workspace
  fates : List Fate

namespace WatchedStore

/-- A store on which no transaction was begun. -/
def of (ws : Workspace) : WatchedStore := ⟨ws, []⟩

def counters (s : WatchedStore) : Counters := s.workspace.store.counters

def catalog (s : WatchedStore) : Catalog := s.workspace.store.catalog

def journal (s : WatchedStore) : List Line := s.workspace.journal

/-- What a step answers and what it leaves. -/
def turn (s : WatchedStore) : StoreStep → Except StoreRefusal Unit × WatchedStore
  | .write w fault =>
    match Op.saving fault (Op.write w) (pure ()) s.workspace with
    | .ok _ ws => (.ok (), { s with workspace := ws })
    | .error e ws => (.error e, { s with workspace := ws })
  | .begin =>
    match (Op.beginTransaction : Op StoreRefusal Transaction) s.workspace with
    | .ok t ws => (.ok (), ⟨ws, s.fates ++ [.active t]⟩)
    | .error e ws => (.error e, { s with workspace := ws })
  | .within i w =>
    match s.fates[i]? with
    | some (.active t) =>
      match (Op.within t (Op.write w) :
          Op StoreRefusal (Except StoreRefusal Bool × Transaction)) s.workspace with
      | .ok (result, t) ws => (result.map fun _ => (), ⟨ws, s.fates.set i (.active t)⟩)
      | .error e ws => (.error e, { s with workspace := ws })
    | _ => (.error .transactionClosed, s)
  | .commit i fault =>
    match s.fates[i]? with
    | some (.active t) =>
      match Op.saving fault (Op.commitTransaction t) (Op.abortTransaction t) s.workspace with
      | .ok _ ws => (.ok (), ⟨ws, s.fates.set i (.committed t.base ws.store.catalog.version)⟩)
      | .error e ws => (.error e, ⟨ws, s.fates.set i (.aborted t.base)⟩)
    | _ => (.error .transactionClosed, s)
  | .abort i =>
    match s.fates[i]? with
    | some (.active t) =>
      match (Op.abortTransaction t : Op StoreRefusal Unit) s.workspace with
      | .ok _ ws => (.ok (), ⟨ws, s.fates.set i (.aborted t.base)⟩)
      | .error e ws => (.error e, { s with workspace := ws })
    | _ => (.error .transactionClosed, s)

def answer (s : WatchedStore) (x : StoreStep) : Except StoreRefusal Unit := (s.turn x).1

def after (s : WatchedStore) (x : StoreStep) : WatchedStore := (s.turn x).2

def run (s : WatchedStore) (steps : List StoreStep) : WatchedStore := steps.foldl after s

variable {s s' : WatchedStore} {x : StoreStep} {steps : List StoreStep} {i : Nat} {opened : Nat}
  {ans : Except StoreRefusal Unit}

/-- What a transaction ends with that does not take effect: it is counted as aborted. -/
def aborting (s : WatchedStore) (i : Nat) (t : Transaction) : WatchedStore :=
  ⟨{ s.workspace with
      store := s.workspace.store.countAborted
      journal := s.journal ++ [Fate.abortedFrom t.base] }, s.fates.set i (.aborted t.base)⟩

/-- All that a step can do. -/
inductive Does (s : WatchedStore) : StoreStep → Except StoreRefusal Unit → WatchedStore → Prop
  | refuses {x : StoreStep} {e : StoreRefusal}
    (idle : ∀ i t, x.ends i = true → s.fates[i]? ≠ some (.active t)) : Does s x (.error e) s
  | writes {w : Write} {fault : Option FileFault} {answer : Bool} {next : Store}
    (done : s.workspace.store.perform w = .ok (answer, next)) :
    Does s (.write w fault) (.ok ()) { s with workspace := s.workspace.install next }
  | begins : Does s .begin (.ok ())
      ⟨{ s.workspace with journal := s.journal ++ [Fate.began s.workspace.store.begin.base] },
        s.fates ++ [.active s.workspace.store.begin]⟩
  | works {i : Nat} {w : Write} {answer : Bool} {t t' : Transaction}
    (found : s.fates[i]? = some (.active t)) (done : t.perform w = .ok (answer, t')) :
    Does s (.within i w) (.ok ()) { s with fates := s.fates.set i (.active t') }
  | commits {i : Nat} {fault : Option FileFault} {t : Transaction} {next : Store}
    (found : s.fates[i]? = some (.active t)) (done : s.workspace.store.commit t = .ok next) :
    Does s (.commit i fault) (.ok ())
      ⟨{ s.workspace.install next with
          journal := s.journal ++ [Fate.committedAt next.catalog.version] },
        s.fates.set i (.committed t.base next.catalog.version)⟩
  | fails {i : Nat} {fault : Option FileFault} {t : Transaction} {e : StoreRefusal}
    (found : s.fates[i]? = some (.active t)) : Does s (.commit i fault) (.error e) (s.aborting i t)
  | aborts {i : Nat} {t : Transaction} (found : s.fates[i]? = some (.active t)) :
    Does s (.abort i) (.ok ()) (s.aborting i t)

/-- To end a transaction that is not open is refused. -/
theorem Does.of_closed {e : StoreRefusal} (hclosed : ∀ t, s.fates[i]? ≠ some (.active t))
    (hx : ∀ j, x.ends j = true → i = j) : s.Does x (.error e) s :=
  .refuses fun j t hj ht => hclosed t (hx j hj ▸ ht)

theorem does_turn (h : s.workspace.transaction = none) (x : StoreStep) :
    s.Does x (s.answer x) (s.after x) := by
  cases x with
  | write w fault =>
    have hrefused : ∀ e, s.Does (.write w fault) (.error e) s := fun e => .refuses nofun
    simp only [answer, after, turn]
    obtain hop | ⟨e, hop⟩ :=
      Op.saving_cases fault (Op.write w) (pure () : Op StoreRefusal Unit) s.workspace
    · rw [hop, Op.write_alone w h]
      cases hw : s.workspace.store.perform w with
      | ok result => exact .writes hw
      | error e => exact hrefused e
    · rw [hop]
      exact hrefused e
  | begin => exact .begins
  | within i w =>
    simp only [answer, after, turn]
    split
    · rename_i t ht
      rw [Op.within_write t w h]
      cases hw : t.perform w with
      | ok result => exact .works ht hw
      | error e =>
        have hsame : s.fates.set i (.active t) = s.fates := by
          obtain ⟨hi, hget⟩ := List.getElem?_eq_some_iff.1 ht
          rw [← hget, List.set_getElem_self]
        simp only [hsame]
        exact .refuses nofun
    · exact .refuses nofun
  | commit i fault =>
    simp only [answer, after, turn]
    split
    · rename_i t ht
      obtain hop | ⟨e, hop⟩ := Op.saving_cases fault (Op.commitTransaction t)
        (Op.abortTransaction t) s.workspace
      · rw [hop, Op.commitTransaction_eq]
        cases hc : s.workspace.store.commit t with
        | ok next => exact .commits ht hc
        | error e => exact .fails ht
      · rw [hop]
        exact .fails ht
    · rename_i hclosed
      exact .of_closed hclosed (by simp [StoreStep.ends])
  | abort i =>
    simp only [answer, after, turn]
    split
    · rename_i t ht
      exact .aborts ht
    · rename_i hclosed
      exact .of_closed hclosed (by simp [StoreStep.ends])

/-! ## What every step keeps -/

/-- The accounts balance: the counters lead from the collections that there were when the store was
opened, each transaction that has ended is counted once, and the open ones fit. -/
structure Balanced (opened : Nat) (store : Store) (fates : List Fate) : Prop where
  leads : store.counters.Leads opened store.catalog.size
  committed : store.counters.committed = fates.countP Fate.isCommitted
  aborted : store.counters.aborted = fates.countP Fate.isAborted
  active : ∀ (i : Nat) (t : Transaction), fates[i]? = some (.active t) → t.Fits store.catalog

section
variable {store next : Store} {fates : List Fate} {fate : Fate} {p : Fate → Bool}
  {t t' : Transaction} {w : Write} {answer : Bool}

/-- A fate in place of an open one is counted for itself. -/
theorem countP_set (found : fates[i]? = some (.active t)) (hp : p (.active t) = false) :
    (fates.set i fate).countP p = fates.countP p + if p fate then 1 else 0 := by
  obtain ⟨hi, hget⟩ := List.getElem?_eq_some_iff.1 found
  rw [List.countP_set hi, hget, hp]
  simp

theorem getElem?_set (found : fates[i]? = some (.active t)) (j : Nat) :
    (fates.set i fate)[j]? = if i = j then some fate else fates[j]? := by
  obtain ⟨hi, -⟩ := List.getElem?_eq_some_iff.1 found
  rw [List.getElem?_set]
  simp [hi]

/-- The open transactions are those from before but for the one that is replaced. -/
theorem active_set {P : Transaction → Prop} (found : fates[i]? = some (.active t))
    (h : ∀ (j : Nat) (t : Transaction), fates[j]? = some (.active t) → P t)
    (hfate : ∀ t, fate = .active t → P t) (j : Nat) (t' : Transaction)
    (hj : (fates.set i fate)[j]? = some (.active t')) : P t' := by
  rw [getElem?_set found] at hj
  split at hj
  · exact hfate t' (Option.some.inj hj)
  · exact h j t' hj

theorem balanced_of_zero (h : store.counters = .zero) : Balanced store.catalog.size store [] := by
  refine ⟨?_, ?_, ?_, nofun⟩ <;> rw [h] <;> rfl

theorem Balanced.write (h : Balanced opened store fates)
    (done : store.perform w = .ok (answer, next)) : Balanced opened next fates := by
  obtain ⟨⟨_, c⟩, hw, hnext⟩ := bind_eq_ok_iff.1 done
  cases hnext
  refine ⟨?_, ?_, ?_, fun i t ht => (h.active i t ht).advance c⟩
  · have hleads := h.leads.add (Catalog.leads_perform hw)
    rwa [Store.count_counters, Store.count_catalog, Store.advance_counters, Store.size_advance]
  · simpa [Store.count_counters, Store.advance_counters] using h.committed
  · simpa [Store.count_counters, Store.advance_counters] using h.aborted

theorem Balanced.begin (h : Balanced opened store fates) :
    Balanced opened store (fates ++ [.active store.begin]) := by
  refine ⟨h.leads, ?_, ?_, fun i t ht => ?_⟩
  · simpa [Fate.isCommitted] using h.committed
  · simpa [Fate.isAborted] using h.aborted
  · rw [List.getElem?_append, List.getElem?_singleton] at ht
    split at ht
    · exact h.active i t ht
    · split at ht
      · cases ht
        exact Transaction.fits_begin store
      · cases ht

theorem Balanced.work (h : Balanced opened store fates) (found : fates[i]? = some (.active t))
    (done : t.perform w = .ok (answer, t')) :
    Balanced opened store (fates.set i (.active t')) := by
  refine ⟨h.leads, ?_, ?_, active_set found h.active fun t'' ht => ?_⟩
  · rw [countP_set found rfl]
    exact h.committed
  · rw [countP_set found rfl]
    exact h.aborted
  · cases ht
    exact (h.active i t found).perform done

/-- A commit hands over what the transaction has counted, and counts the transaction. -/
theorem Balanced.commit (h : Balanced opened store fates) (found : fates[i]? = some (.active t))
    (done : store.commit t = .ok next) (version : Nat) :
    Balanced opened next (fates.set i (.committed t.base version)) := by
  have hfits := h.active i t found
  rw [Store.commit] at done
  split at done
  · rename_i hversion
    cases done
    -- The version has not moved, so what the transaction has counted leads on from the store.
    refine ⟨?_, ?_, ?_, active_set found
      (fun j t' ht' => (h.active j t' ht').advance t.working) nofun⟩
    · rw [Store.count_counters, Store.count_catalog, Store.advance_counters, Store.size_advance]
      exact h.leads.add ((hfits.leads hversion.symm).add rfl)
    · rw [countP_set found rfl, Store.count_counters, Store.advance_counters]
      simp [h.committed, hfits.committed, Fate.isCommitted]
    · rw [countP_set found rfl, Store.count_counters, Store.advance_counters]
      simp [h.aborted, hfits.aborted, Fate.isAborted, Counters.zero]
  · cases done

/-- A transaction that takes no effect is counted as aborted, and that is all. -/
theorem Balanced.abort (h : Balanced opened store fates) (found : fates[i]? = some (.active t)) :
    Balanced opened store.countAborted (fates.set i (.aborted t.base)) := by
  refine ⟨h.leads.add .zero, ?_, ?_, active_set found h.active nofun⟩
  · rw [countP_set found rfl]
    exact h.committed
  · rw [countP_set found rfl]
    exact congrArg (· + 1) h.aborted

end

theorem Balanced.does (h : Balanced opened s.workspace.store s.fates) (hx : s.Does x ans s') :
    Balanced opened s'.workspace.store s'.fates := by
  cases hx with
  | refuses => exact h
  | writes done => exact h.write done
  | begins => exact h.begin
  | works found done => exact h.work found done
  | commits found done => exact h.commit found done _
  | fails found | aborts found => exact h.abort found

/-- No operation is under way between the steps. -/
theorem Does.closed (hx : s.Does x ans s') (h : s.workspace.transaction = none) :
    s'.workspace.transaction = none := by
  cases hx <;> exact h

/-! ## The journal -/

/-- The number of the transaction that a step is about. -/
def about (s : WatchedStore) : StoreStep → Option Nat
  | .write _ _ => none
  | .begin => some s.fates.length
  | .within i _ | .commit i _ | .abort i => some i

/-- The lines that a step leaves in the journal. -/
def left (s : WatchedStore) (x : StoreStep) : List Line := (s.after x).journal.drop s.journal.length

/-- The lines that steps leave, each with the number of the transaction that its step is about. -/
def marks : WatchedStore → List StoreStep → List (Option Nat × Line)
  | _, [] => []
  | s, x :: steps => (s.left x).map (fun line => (s.about x, line)) ++ (s.after x).marks steps

/-- The lines that steps about the transaction of a number leave. -/
def marksOf (i : Nat) (s : WatchedStore) (steps : List StoreStep) : List Line :=
  ((s.marks steps).filter fun m => m.1 == some i).map Prod.snd

/-- The lines that a transaction should have left. -/
def linesOf (s : WatchedStore) (i : Nat) : List Line := (s.fates[i]?.map Fate.lines).getD []

/-- A fate in place of an open one has the lines of the open one and its own. -/
theorem linesOf_set {t : Transaction} {fate : Fate} {ws : Workspace} {lines : List Line}
    (found : s.fates[i]? = some (.active t)) (hlines : fate.lines = [Fate.began t.base] ++ lines)
    (j : Nat) : (⟨ws, s.fates.set i fate⟩ : WatchedStore).linesOf j =
      s.linesOf j ++ if some i = some j then lines else [] := by
  have hopen : (Fate.active t).lines = [Fate.began t.base] := rfl
  rw [linesOf, getElem?_set found]
  by_cases hij : i = j
  · subst hij
    simp [linesOf, found, hlines, hopen]
  · simp [linesOf, hij]

/-- A step leaves lines about its transaction alone, and these are the ones that it should leave. -/
theorem Does.exists_lines (hx : s.Does x ans s') : ∃ lines, s'.journal = s.journal ++ lines ∧
    (s.about x = none → lines = []) ∧
    ∀ i, s'.linesOf i = s.linesOf i ++ if s.about x = some i then lines else [] := by
  cases hx with
  | refuses | writes => exact ⟨[], by simp [journal, Workspace.install], by simp, by simp [linesOf]⟩
  | begins =>
    refine ⟨[Fate.began s.workspace.store.begin.base], rfl, nofun, fun i => ?_⟩
    simp only [linesOf, about, List.getElem?_append, List.getElem?_singleton, Option.some.injEq]
    by_cases hi : i < s.fates.length
    · simp [hi, Nat.ne_of_gt hi]
    · rw [List.getElem?_eq_none (by omega)]
      by_cases hlast : s.fates.length = i
      · simp [hlast, Fate.lines]
      · simp [hi, hlast, Nat.sub_eq_zero_iff_le, show ¬ i ≤ s.fates.length by omega]
  | works found done =>
    refine ⟨[], by simp [journal], by simp, fun i => ?_⟩
    have hbase := Transaction.base_of_perform done
    exact linesOf_set found (by rw [Fate.lines, hbase]; rfl) i
  | commits found => exact ⟨_, rfl, nofun, linesOf_set found rfl⟩
  | fails found | aborts found => exact ⟨_, rfl, nofun, linesOf_set found rfl⟩

/-- What a step leaves in the journal and to its transaction. -/
structure Leaves (s : WatchedStore) (x : StoreStep) : Prop where
  journal : (s.after x).journal = s.journal ++ s.left x
  silent : s.about x = none → s.left x = []
  lines : ∀ i, (s.after x).linesOf i = s.linesOf i ++ if s.about x = some i then s.left x else []

theorem leaves_turn (h : s.workspace.transaction = none) (x : StoreStep) : s.Leaves x := by
  obtain ⟨lines, hlines, hsilent, hown⟩ := (does_turn h x).exists_lines
  obtain rfl : s.left x = lines := by rw [left, hlines, List.drop_left]
  exact ⟨hlines, hsilent, hown⟩

/-! ## Runs -/

theorem Balanced.run (h : Balanced opened s.workspace.store s.fates)
    (hclosed : s.workspace.transaction = none) (steps : List StoreStep) :
    Balanced opened (s.run steps).workspace.store (s.run steps).fates := by
  induction steps generalizing s with
  | nil => exact h
  | cons x steps ih =>
    have hx := does_turn hclosed x
    exact ih (h.does hx) (hx.closed hclosed)

/-- The journal grows by the lines that the steps leave. -/
theorem journal_run (h : s.workspace.transaction = none) (steps : List StoreStep) :
    (s.run steps).journal = s.journal ++ (s.marks steps).map Prod.snd := by
  induction steps generalizing s with
  | nil => simp [run, marks]
  | cons x steps ih =>
    show ((s.after x).run steps).journal = _
    rw [ih ((does_turn h x).closed h), (leaves_turn h x).journal, marks]
    simp [Function.comp_def]

/-- All lines that steps leave are about a transaction. -/
theorem exists_of_mem_marks (h : s.workspace.transaction = none) (steps : List StoreStep)
    {m : Option Nat × Line} (hm : m ∈ s.marks steps) : ∃ i, m.1 = some i := by
  induction steps generalizing s with
  | nil => cases hm
  | cons x steps ih =>
    rcases List.mem_append.1 hm with hm | hm
    · obtain ⟨line, hline, rfl⟩ := List.mem_map.1 hm
      refine Option.ne_none_iff_exists'.1 fun habout => ?_
      rw [(leaves_turn h x).silent habout] at hline
      cases hline
    · exact ih ((does_turn h x).closed h) hm

/-- Each transaction has left the lines that it should. -/
theorem linesOf_run (h : s.workspace.transaction = none) (steps : List StoreStep) (i : Nat) :
    (s.run steps).linesOf i = s.linesOf i ++ marksOf i s steps := by
  induction steps generalizing s with
  | nil => simp [run, marksOf, marks]
  | cons x steps ih =>
    show ((s.after x).run steps).linesOf i = _
    rw [ih ((does_turn h x).closed h), (leaves_turn h x).lines, marksOf, marksOf, marks]
    have hall : (s.left x).filter (fun _ => true) = s.left x := List.filter_eq_self.2 fun _ _ => rfl
    by_cases hi : s.about x = some i <;> simp [hi, List.filter_map, Function.comp_def, hall]

/-- What a step can bring about and none can undo holds after a run if it held before, or if some
step has brought it about. -/
theorem run_iff {Q : WatchedStore → Prop} {R : WatchedStore → StoreStep → Prop}
    (hstep : ∀ {s x ans s'}, Does s x ans s' → ans = s.answer x → (Q s' ↔ Q s ∨ R s x))
    (h : s.workspace.transaction = none) (steps : List StoreStep) :
    Q (s.run steps) ↔ Q s ∨ ∃ past x later, steps = past ++ x :: later ∧ R (s.run past) x := by
  induction steps generalizing s with
  | nil => simp [run]
  | cons x steps ih =>
    have hx := does_turn h x
    show Q ((s.after x).run steps) ↔ _
    rw [ih (hx.closed h), hstep hx rfl, or_assoc]
    refine or_congr_right ?_
    constructor
    · rintro (hR | ⟨past, y, later, rfl, hR⟩)
      · exact ⟨[], x, steps, rfl, hR⟩
      · exact ⟨x :: past, y, later, rfl, hR⟩
    · rintro ⟨_ | ⟨z, past⟩, y, later, heq, hR⟩
      · cases heq
        exact .inl hR
      · cases heq
        exact .inr ⟨past, y, later, rfl, hR⟩

section
variable {p : Fate → Bool} {fates : List Fate} {fate : Fate} {t : Transaction}

/-- The transaction of a number has a fate of a kind. -/
def Meets (p : Fate → Bool) (fates : List Fate) (i : Nat) : Prop :=
  ∃ fate, fates[i]? = some fate ∧ p fate = true

/-- A fate in place of an open one is met by that transaction alone. -/
theorem meets_set {j : Nat} (found : fates[j]? = some (.active t)) (hp : p (.active t) = false) :
    Meets p (fates.set j fate) i ↔ Meets p fates i ∨ j = i ∧ p fate = true := by
  rw [Meets, Meets, getElem?_set found]
  by_cases hji : j = i
  · subst hji
    simp [found, hp]
  · simp [hji]

theorem meets_begin (hp : p (.active t) = false) :
    Meets p (fates ++ [.active t]) i ↔ Meets p fates i := by
  rw [Meets, Meets, List.getElem?_append, List.getElem?_singleton]
  by_cases hi : i < fates.length
  · simp [hi]
  · rw [if_neg hi, List.getElem?_eq_none (Nat.le_of_not_lt hi)]
    by_cases hlast : i - fates.length = 0 <;> simp [hlast, hp]

end

/-- A transaction is committed by a commit that is answered so, and by nothing else. -/
theorem Does.committed_iff (hx : s.Does x ans s') (i : Nat) :
    Meets Fate.isCommitted s'.fates i ↔
      Meets Fate.isCommitted s.fates i ∨ (∃ fault, x = .commit i fault) ∧ ans = .ok () := by
  cases hx with
  | refuses | writes => simp
  | begins => simpa using meets_begin rfl
  | works found | commits found | fails found | aborts found =>
    refine (meets_set found rfl).trans (or_congr_right ?_)
    simp [Fate.isCommitted]

/-- A transaction that was begun is ended by the steps that are to end it. -/
theorem Does.ended_iff (hx : s.Does x ans s') (i : Nat) :
    Meets Fate.isEnded s'.fates i ↔
      Meets Fate.isEnded s.fates i ∨ x.ends i = true ∧ i < s.fates.length := by
  cases hx with
  | refuses hopen =>
    refine ⟨.inl, fun h => h.elim id fun ⟨hends, hi⟩ => ?_⟩
    refine ⟨s.fates[i], List.getElem?_eq_getElem hi, ?_⟩
    cases hfate : s.fates[i] with
    | active t => exact absurd (List.getElem?_eq_some_iff.2 ⟨hi, hfate⟩) (hopen i t hends)
    | committed | aborted => rfl
  | writes => simp [StoreStep.ends]
  | begins => simpa [StoreStep.ends] using meets_begin rfl
  | works found =>
    refine (meets_set found rfl).trans (or_congr_right ?_)
    simp [Fate.isEnded, StoreStep.ends]
  | commits found | fails found | aborts found =>
    refine (meets_set found rfl).trans (or_congr_right ?_)
    obtain ⟨hj, -⟩ := List.getElem?_eq_some_iff.1 found
    simp only [Fate.isEnded, StoreStep.ends, beq_iff_eq, and_true]
    exact ⟨fun h => ⟨h, h ▸ hj⟩, And.left⟩

theorem committed_run (h : s.workspace.transaction = none) (steps : List StoreStep) (i : Nat) :
    Meets Fate.isCommitted (s.run steps).fates i ↔ Meets Fate.isCommitted s.fates i ∨
      ∃ past fault later, steps = past ++ .commit i fault :: later ∧
        (s.run past).answer (.commit i fault) = .ok () := by
  rw [run_iff (Q := fun s => Meets Fate.isCommitted s.fates i)
    (R := fun s x => (∃ fault, x = .commit i fault) ∧ s.answer x = .ok ())
    (fun hx hans => hans ▸ hx.committed_iff i) h steps]
  refine or_congr_right ⟨?_, ?_⟩
  · rintro ⟨past, _, later, hsteps, ⟨fault, rfl⟩, hans⟩
    exact ⟨past, fault, later, hsteps, hans⟩
  · rintro ⟨past, fault, later, hsteps, hans⟩
    exact ⟨past, _, later, hsteps, ⟨fault, rfl⟩, hans⟩

theorem ended_run (h : s.workspace.transaction = none) (steps : List StoreStep) (i : Nat) :
    Meets Fate.isEnded (s.run steps).fates i ↔ Meets Fate.isEnded s.fates i ∨
      ∃ past x later, steps = past ++ x :: later ∧ x.ends i = true ∧
        i < (s.run past).fates.length :=
  run_iff (Q := fun s => Meets Fate.isEnded s.fates i)
    (R := fun s x => x.ends i = true ∧ i < s.fates.length) (fun hx _ => hx.ended_iff i) h steps

/-! ## Accounts that balance -/

/-- What is promised of steps from when a store was opened. -/
structure Accounts (start : WatchedStore) (steps : List StoreStep) : Prop where
  /-- Collections that were created less those that were dropped are what their number has changed
  by. -/
  collections : ((start.run steps).counters.created : Int) - (start.run steps).counters.dropped =
    (start.run steps).catalog.size - start.catalog.size
  /-- The transactions that were committed are counted, and so are those that were aborted. -/
  committed : (start.run steps).counters.committed =
    (start.run steps).fates.countP Fate.isCommitted
  aborted : (start.run steps).counters.aborted = (start.run steps).fates.countP Fate.isAborted
  /-- A transaction is among the committed exactly if its commit succeeded. -/
  committed_iff : ∀ i, Meets Fate.isCommitted (start.run steps).fates i ↔
    ∃ past fault later, steps = past ++ .commit i fault :: later ∧
      (start.run past).answer (.commit i fault) = .ok ()
  /-- It has ended exactly if a step was to end it after it had begun. -/
  ended_iff : ∀ i, Meets Fate.isEnded (start.run steps).fates i ↔
    ∃ past x later, steps = past ++ x :: later ∧ x.ends i = true ∧
      i < (start.run past).fates.length
  /-- The lines of the journal are those that the steps leave, each about a transaction. -/
  journal : (start.marks steps).map Prod.snd = (start.run steps).journal
  owned : ∀ m ∈ start.marks steps, ∃ i < (start.run steps).fates.length, m.1 = some i
  /-- Each transaction has left the line of its beginning and, if it has ended, the one of its
  end. -/
  matched : ∀ i fate, (start.run steps).fates[i]? = some fate → marksOf i start steps = fate.lines

/-- Each line that is left is about a transaction that was begun, as that one has lines. -/
theorem exists_owner (h : s.workspace.transaction = none) (hfates : s.fates = [])
    {m : Option Nat × Line} (hm : m ∈ s.marks steps) :
    ∃ i < (s.run steps).fates.length, m.1 = some i := by
  obtain ⟨i, hi⟩ := exists_of_mem_marks h steps hm
  refine ⟨i, Nat.lt_of_not_le fun hle => ?_, hi⟩
  have hleft : m.2 ∈ marksOf i s steps :=
    List.mem_map_of_mem (List.mem_filter.2 ⟨hm, by simp [hi]⟩)
  have hlines := linesOf_run h steps i
  rw [linesOf, linesOf, hfates, List.getElem?_eq_none hle] at hlines
  exact List.ne_nil_of_mem hleft hlines.symm

/-- Whatever is done to a store since it was opened, its accounts balance. -/
theorem accounts_balance (c : Catalog) (kept : Bool) (text : Option String) (supply : Supply)
    (steps : List StoreStep) : (of (Cli.workspaceOn c kept text supply)).Accounts steps := by
  obtain ⟨s, hs⟩ : ∃ s, s = of (Cli.workspaceOn c kept text supply) := ⟨_, rfl⟩
  have hclosed : s.workspace.transaction = none := by rw [hs]; rfl
  have hfates : s.fates = [] := by rw [hs]; rfl
  have hjournal : s.journal = [] := by rw [hs]; rfl
  have hcounters : s.workspace.store.counters = .zero := by rw [hs]; rfl
  have hstart : Balanced s.catalog.size s.workspace.store s.fates :=
    hfates ▸ balanced_of_zero hcounters
  have hbalanced := hstart.run hclosed steps
  have hnone : ∀ p i, ¬ Meets p s.fates i := by simp [Meets, hfates]
  rw [← hs]
  refine ⟨?_, hbalanced.committed, hbalanced.aborted,
    fun i => (committed_run hclosed steps i).trans (or_iff_right (hnone _ i)),
    fun i => (ended_run hclosed steps i).trans (or_iff_right (hnone _ i)), ?_,
    fun m hm => exists_owner hclosed hfates hm, fun i fate hfate => ?_⟩
  · have hleads : (s.run steps).counters.created + s.catalog.size =
      (s.run steps).counters.dropped + (s.run steps).catalog.size := hbalanced.leads
    omega
  · rw [journal_run hclosed steps, hjournal, List.nil_append]
  · have hlines := linesOf_run hclosed steps i
    rw [linesOf, linesOf, hfate, hfates] at hlines
    exact hlines.symm

section Sample

/-- Two transactions side by side each create a collection; the second to be committed conflicts,
and to end it once more is refused. -/
def sampleSteps : List StoreStep :=
  [.begin, .begin, .within 0 (.createCollection "a"), .within 1 (.createCollection "b"),
    .commit 0 none, .commit 1 none, .abort 1, .write (.dropCollection "a") none]

example (supply : Supply) :
    ((of (Cli.workspaceOn .empty false none supply)).run sampleSteps).counters =
      ⟨1, 1, 0, 0, 1, 1⟩ := by
  cbv

end Sample

end WatchedStore
end SchemaKeeper
