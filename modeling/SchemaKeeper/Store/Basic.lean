import SchemaKeeper.Store.Catalog

/-!
# Stores and transactions

A store holds the committed catalog.  A write outside a transaction is committed at once, and the
version goes up only if the catalog changed.  A transaction writes to a copy taken when it began;
its commit puts the copy in the place of the catalog if no other write took effect in between, and
is refused as a conflict otherwise.
-/
namespace SchemaKeeper

/-- A document store: its committed catalog, what was done since it was opened, and whether it is
kept in a file. -/
structure Store where
  catalog : Catalog
  counters : Counters
  kept : Bool

/-- An open transaction: the version it began with, its own copy of the catalog and what it did. -/
structure Transaction where
  base : Nat
  working : Catalog
  counters : Counters

namespace Store

/-- A new store that is kept in no file. -/
def inMemory : Store := ⟨.empty, .zero, false⟩

/-- Takes a changed catalog over and counts the change; an equal one changes nothing. -/
def advance (s : Store) (next : Catalog) : Store :=
  if next.same s.catalog then s
  else { s with catalog := { next with version := s.catalog.version + 1 } }

def count (s : Store) (c : Counters) : Store := { s with counters := s.counters + c }

/-- Performs and commits one write. -/
def perform (s : Store) (w : Write) : Except StoreRefusal (Bool × Store) := do
  let (answer, next) ← s.catalog.perform w
  return (answer, (s.advance next).count (w.counted answer))

/-- Begins a transaction on the committed catalog. -/
def begin (s : Store) : Transaction := ⟨s.catalog.version, s.catalog, .zero⟩

end Store

/-- Performs a write inside the transaction. -/
def Transaction.perform (t : Transaction) (w : Write) : Except StoreRefusal (Bool × Transaction) := do
  let (answer, next) ← t.working.perform w
  return (answer, { t with working := next, counters := t.counters + w.counted answer })

namespace Store

/-- Makes the writes of a transaction take effect together, unless the catalog moved since it
began. -/
def commit (s : Store) (t : Transaction) : Except StoreRefusal Store :=
  if s.catalog.version = t.base then
    .ok ((s.advance t.working).count (t.counters + { Counters.zero with committed := 1 }))
  else
    .error (.writeConflict
      ("catalog moved from version " ++ toString t.base ++ " to " ++ toString s.catalog.version
        ++ " during the transaction"))

/-- Counts a transaction that ended without effect. -/
def countAborted (s : Store) : Store := s.count { Counters.zero with aborted := 1 }

end Store
end SchemaKeeper
