import SchemaKeeper.Json.Printer

/-!
# The journal

Operations leave lines in a journal: how severe, what happened, and named texts in the order of
their names.
-/
namespace SchemaKeeper

/-- How much a line of the journal matters. -/
inductive Severity where
  | trace
  | info
  | warn
  | error
  deriving DecidableEq

namespace Severity

def text : Severity → String
  | .trace => "TRACE"
  | .info => "INFO"
  | .warn => "WARN"
  | .error => "ERROR"

/-- The place in the order of severities, from the least. -/
def rank : Severity → Nat
  | .trace => 0
  | .info => 1
  | .warn => 2
  | .error => 3

end Severity

/-- What a line of the journal reports. -/
inductive Event where
  | configLoaded
  | datasetCreated
  | datasetLoaded
  | datasetDeleted
  | migrationInvoked
  | mergeComputed
  | schemaCommitted
  | collectionCreated
  | collectionDropped
  | indexCreated
  | validatorInstalled
  | validatorUnchanged
  | validatorFallback
  | recordSaved
  | transactionBegin
  | transactionCommit
  | transactionAbort
  deriving DecidableEq

namespace Event

def text : Event → String
  | .configLoaded => "CONFIG_LOADED"
  | .datasetCreated => "DATASET_CREATED"
  | .datasetLoaded => "DATASET_LOADED"
  | .datasetDeleted => "DATASET_DELETED"
  | .migrationInvoked => "MIGRATION_INVOKED"
  | .mergeComputed => "MERGE_COMPUTED"
  | .schemaCommitted => "SCHEMA_COMMITTED"
  | .collectionCreated => "COLLECTION_CREATED"
  | .collectionDropped => "COLLECTION_DROPPED"
  | .indexCreated => "INDEX_CREATED"
  | .validatorInstalled => "VALIDATOR_INSTALLED"
  | .validatorUnchanged => "VALIDATOR_UNCHANGED"
  | .validatorFallback => "VALIDATOR_FALLBACK"
  | .recordSaved => "RECORD_SAVED"
  | .transactionBegin => "TRANSACTION_BEGIN"
  | .transactionCommit => "TRANSACTION_COMMIT"
  | .transactionAbort => "TRANSACTION_ABORT"

/-- The event reports that something went on in a lesser way. -/
def isWarning : Event → Bool
  | .validatorFallback => true
  | .transactionAbort => true
  | _ => false

/-- All events. -/
def all : List Event :=
  [.configLoaded, .datasetCreated, .datasetLoaded, .datasetDeleted, .migrationInvoked,
    .mergeComputed, .schemaCommitted, .collectionCreated, .collectionDropped, .indexCreated,
    .validatorInstalled, .validatorUnchanged, .validatorFallback, .recordSaved,
    .transactionBegin, .transactionCommit, .transactionAbort]

theorem mem_all (e : Event) : e ∈ all := by cases e <;> decide

end Event

/-- A line of the journal. -/
structure Line where
  severity : Severity
  event : String
  fields : Keyed String

namespace Line

/-- A line from its fields in any order; of two with one name the later stays. -/
def of (severity : Severity) (event : String) (fields : List (String × String)) : Line :=
  ⟨severity, event, Keyed.ofList fields⟩

/-- The fields as a document. -/
def json (l : Line) : Json := .ofKeyed (l.fields.mapValues fun _ s => .string s)

/-- The fields as text. -/
def rendered (l : Line) : String := l.json.compact

end Line

/-- An operation under observation: its name, its fields and when it started. -/
structure Scope where
  name : String
  fields : List (String × String)
  started : Nat

namespace Scope

/-- The line that opens a scope. -/
def opening (name : String) (fields : List (String × String)) : Line :=
  .of .trace (name ++ "_BEGIN") fields

/-- The line of a scope that was completed. -/
def completion (s : Scope) (extra : List (String × String)) (now : Nat) : Line :=
  .of .info (s.name ++ "_COMPLETE")
    (s.fields ++ extra ++ [("elapsed_us", toString (now - s.started))])

/-- The line of a scope that failed. -/
def failure (s : Scope) (reason : String) : Line :=
  .of .error (s.name ++ "_ERROR") (s.fields ++ [("reason", reason)])

/-- The line of a scope that ended neither way. -/
def abandonment (s : Scope) : Line :=
  .of .warn (s.name ++ "_INCOMPLETE") [("reason", "scope dropped without completion")]

end Scope
end SchemaKeeper
