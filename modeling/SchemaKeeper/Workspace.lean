import SchemaKeeper.Journal.Basic
import SchemaKeeper.Moment.Basic
import SchemaKeeper.Store.Basic
import SchemaKeeper.Store.CatalogText
import SchemaKeeper.Uuid

/-!
# Workspaces

A workspace is what operations work on: a store with its file, the transaction that is open in it,
the journal, and a supply of fresh identifiers, times and stopwatch readings.  `Op` is the type of
operations.  A refused operation keeps the workspace as it left it, so what `inTransaction` does
not undo stays.
-/
namespace SchemaKeeper

/-- What comes from outside, each in the order in which it is drawn. -/
structure Supply where
  ids : Nat → Uuid
  clock : Nat → Moment
  stopwatch : Nat → Nat
  drawn : Nat
  read : Nat
  timed : Nat

/-- The state that operations share. -/
structure Workspace where
  store : Store
  file : Option String
  transaction : Option Transaction
  journal : List Line
  supply : Supply

/-- An operation on a workspace that may be refused with a cause of type `ε`. -/
abbrev Op (ε α : Type) := EStateM ε Workspace α

/-- Causes that include those of the store. -/
class FromStore (ε : Type) where
  ofStore : StoreRefusal → ε

instance : FromStore StoreRefusal := ⟨id⟩
instance : FromStore Refusal := ⟨.store⟩

namespace Op
variable {ε α β : Type}

/-- Goes on with a result, or refuses for its cause. -/
def lift : Except ε α → Op ε α
  | .ok a => pure a
  | .error e => throw e

/-- Goes on with a result of the store. -/
def liftStore [FromStore ε] : Except StoreRefusal α → Op ε α
  | .ok a => pure a
  | .error e => throw (FromStore.ofStore e)

/-- Carries an operation over to other causes. -/
def mapRefusal (f : ε → β) (op : Op ε α) : Op β α := fun ws =>
  match op ws with
  | .ok a ws => .ok a ws
  | .error e ws => .error (f e) ws

/-- Runs an operation and answers its result or its refusal. -/
def attempt (op : Op ε α) : Op β (Except ε α) := fun ws =>
  match op ws with
  | .ok a ws => .ok (.ok a) ws
  | .error e ws => .ok (.error e) ws

/-! ## Journal and supply -/

/-- Leaves a line in the journal. -/
def log (line : Line) : Op ε Unit := modify fun ws => { ws with journal := ws.journal ++ [line] }

/-- Leaves a line about an event. -/
def note (severity : Severity) (event : Event) (fields : List (String × String)) : Op ε Unit :=
  log (.of severity event.text fields)

/-- A fresh identifier. -/
def freshId : Op ε Uuid := do
  let ws ← get
  set { ws with supply := { ws.supply with drawn := ws.supply.drawn + 1 } }
  return ws.supply.ids ws.supply.drawn

/-- The present time. -/
def now : Op ε Moment := do
  let ws ← get
  set { ws with supply := { ws.supply with read := ws.supply.read + 1 } }
  return ws.supply.clock ws.supply.read

/-- A reading of the stopwatch in microseconds. -/
def elapsed : Op ε Nat := do
  let ws ← get
  set { ws with supply := { ws.supply with timed := ws.supply.timed + 1 } }
  return ws.supply.stopwatch ws.supply.timed

/-- Opens a scope in the journal. -/
def openScope (name : String) (fields : List (String × String)) : Op ε Scope := do
  log (Scope.opening name fields)
  return ⟨name, fields, ← elapsed⟩

/-- Closes a scope as completed. -/
def complete (scope : Scope) (extra : List (String × String)) : Op ε Unit := do
  log (scope.completion extra (← elapsed))

/-- Closes a scope as failed. -/
def fail (scope : Scope) (reason : String) : Op ε Unit := log (scope.failure reason)

/-! ## Reading and writing -/

/-- The catalog that reads see: that of the open transaction, or the committed one. -/
def catalog : Op ε Catalog := do
  let ws ← get
  return match ws.transaction with
    | some t => t.working
    | none => ws.store.catalog

end Op

namespace Workspace

/-- Takes a store over; one that is kept in a file writes it if its catalog moved. -/
def install (ws : Workspace) (next : Store) : Workspace :=
  { ws with
    store := next
    file :=
      if next.kept && next.catalog.version != ws.store.catalog.version then
        some next.catalog.text
      else ws.file }

end Workspace

namespace Op
variable {ε α : Type}

/-- Performs a write in the open transaction, or commits it at once if there is none. -/
def write [FromStore ε] (w : Write) : Op ε Bool := do
  let ws ← get
  match ws.transaction with
  | some t =>
    let (answer, t) ← liftStore (t.perform w)
    set { ws with transaction := some t }
    return answer
  | none =>
    let (answer, next) ← liftStore (ws.store.perform w)
    set (ws.install next)
    return answer

/-- Reads from the catalog, which may be refused. -/
def query [FromStore ε] (read : Catalog → Except StoreRefusal α) : Op ε α := do
  liftStore (read (← catalog))

/-! ## Transactions -/

/-- Begins a transaction on the store and answers it. -/
def beginTransaction : Op ε Transaction := do
  let t := (← get).store.begin
  note .trace .transactionBegin [("base_version", toString t.base)]
  return t

/-- Ends a transaction without effect. -/
def abortTransaction (t : Transaction) : Op ε Unit := do
  modify fun ws => { ws with store := ws.store.countAborted }
  note .trace .transactionAbort [("base_version", toString t.base)]

/-- Commits a transaction; if that is refused the transaction is aborted. -/
def commitTransaction [FromStore ε] (t : Transaction) : Op ε Unit := do
  let ws ← get
  match ws.store.commit t with
  | .ok next =>
    set (ws.install next)
    note .trace .transactionCommit [("version", toString next.catalog.version)]
  | .error e =>
    abortTransaction t
    throw (FromStore.ofStore e)

/-- Runs an operation inside an open transaction and answers how it went and the transaction after
it. -/
def within {β : Type} (t : Transaction) (work : Op ε α) : Op β (Except ε α × Transaction) := do
  modify fun ws => { ws with transaction := some t }
  let result ← attempt work
  let t := ((← get).transaction).getD t
  modify fun ws => { ws with transaction := none }
  return (result, t)

/-- Runs an operation in a transaction of its own: what it writes takes effect if it succeeds and
the commit does, and not at all otherwise. -/
def inTransaction [FromStore ε] (work : Op ε α) : Op ε α := do
  let t ← beginTransaction
  let (result, t) ← within t work
  match result with
  | .ok a =>
    commitTransaction t
    return a
  | .error e =>
    abortTransaction t
    throw e

end Op
end SchemaKeeper
