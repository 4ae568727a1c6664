import SchemaKeeper.Container.Call
import SchemaKeeper.Dataset.Records
import SchemaKeeper.Files.Tree
import SchemaKeeper.Main
import SchemaKeeper.Proofs.Keyed
import SchemaKeeper.Proofs.Outcome
import SchemaKeeper.Proofs.Schema.Types
import SchemaKeeper.Proofs.Layout.Define
import SchemaKeeper.Proofs.Layout.Validators
import SchemaKeeper.Proofs.Layout.RoundTrip
import SchemaKeeper.Proofs.Json
import SchemaKeeper.Proofs.Moment
import SchemaKeeper.Proofs.Uuid
import SchemaKeeper.Proofs.Dataset.Definition
import SchemaKeeper.Proofs.Validator.Form
import SchemaKeeper.Proofs.Store.Catalog
import SchemaKeeper.Proofs.Workspace
import SchemaKeeper.Proofs.Dataset.Provision
import SchemaKeeper.Proofs.Dataset.Lifecycle
import SchemaKeeper.Proofs.Schema.Delta
import SchemaKeeper.Proofs.Dataset.Trace
import SchemaKeeper.Proofs.Dataset.Stock
import SchemaKeeper.Proofs.Dataset.Effect
import SchemaKeeper.Proofs.Dataset.Reading
import SchemaKeeper.Proofs.Dataset.Merge
import SchemaKeeper.Proofs.Dataset.Removal
import SchemaKeeper.Proofs.Dataset.Records
import SchemaKeeper.Proofs.Dataset.Load
import SchemaKeeper.Proofs.Dataset.Edits
import SchemaKeeper.Proofs.Session.Basic
import SchemaKeeper.Proofs.Session.Step
import SchemaKeeper.Proofs.Session.Sound
import SchemaKeeper.Proofs.Session.Commit
import SchemaKeeper.Proofs.Session.Deletion
import SchemaKeeper.Proofs.Session.Ownership
import SchemaKeeper.Proofs.Session.Agreement
import SchemaKeeper.Proofs.Value
import SchemaKeeper.Proofs.Record.Canonical
import SchemaKeeper.Proofs.Record.Any
import SchemaKeeper.Proofs.Record.Read
import SchemaKeeper.Proofs.Record.Take
import SchemaKeeper.Proofs.Record.Parts
import SchemaKeeper.Proofs.Dataset.Saved
import SchemaKeeper.Proofs.Session.Records
import SchemaKeeper.Proofs.Store.Finite
import SchemaKeeper.Proofs.Store.Serial
import SchemaKeeper.Proofs.Container.Runs
import SchemaKeeper.Proofs.Dataset.Contended
import SchemaKeeper.Proofs.Dataset.Isolation
import SchemaKeeper.Proofs.Session.Refusals
import SchemaKeeper.Proofs.Validator.Accept
import SchemaKeeper.Proofs.Layout.Members
import SchemaKeeper.Proofs.Dataset.Acceptance
import SchemaKeeper.Proofs.Dataset.Uses
import SchemaKeeper.Proofs.Dataset.Writes
import SchemaKeeper.Proofs.Dataset.Plain
import SchemaKeeper.Proofs.Dataset.Backed
import SchemaKeeper.Proofs.Session.Ways
import SchemaKeeper.Proofs.Session.Backed
import SchemaKeeper.Proofs.Record.Writable
import SchemaKeeper.Proofs.Session.Acceptance
import SchemaKeeper.Proofs.Double
import SchemaKeeper.Proofs.Record.Loaded
import SchemaKeeper.Proofs.Record.Readable
import SchemaKeeper.Proofs.Record.Reread
import SchemaKeeper.Proofs.Session.Resaving
import SchemaKeeper.Proofs.Session.Reloading
import SchemaKeeper.Proofs.Clock
import SchemaKeeper.Proofs.Dataset.Revision
import SchemaKeeper.Proofs.Session.Revision
import SchemaKeeper.Proofs.Session.LastLoaded
import SchemaKeeper.Proofs.Session.Allocation
import SchemaKeeper.Proofs.Session.WellFormed
import SchemaKeeper.Proofs.Record.Positions
import SchemaKeeper.Proofs.Record.Mirrored
import SchemaKeeper.Proofs.Session.Classes
import SchemaKeeper.Proofs.Store.Unique
import SchemaKeeper.Proofs.Store.Written
import SchemaKeeper.Proofs.Store.Reopening
import SchemaKeeper.Proofs.Container.Live
import SchemaKeeper.Proofs.Layout.Definable
import SchemaKeeper.Proofs.Dataset.Register
import SchemaKeeper.Proofs.Dataset.Committable
import SchemaKeeper.Proofs.Session.Committable
import SchemaKeeper.Proofs.Quoted
import SchemaKeeper.Proofs.Dataset.Orderly
import SchemaKeeper.Proofs.Dataset.Creatable
import SchemaKeeper.Proofs.Dataset.Stale
import SchemaKeeper.Proofs.Session.Traffic
import SchemaKeeper.Proofs.Session.Naming
import SchemaKeeper.Proofs.Session.Creation
import SchemaKeeper.Proofs.Session.Aftermath
import SchemaKeeper.Proofs.Record.Ending
import SchemaKeeper.Proofs.Store.Furnishing
import SchemaKeeper.Proofs.Dataset.Equipment
import SchemaKeeper.Proofs.Layout.Entries
import SchemaKeeper.Proofs.Dataset.Unedited
import SchemaKeeper.Proofs.Record.Finite
import SchemaKeeper.Proofs.Dataset.Furnished
import SchemaKeeper.Proofs.Dataset.Stamps
import SchemaKeeper.Proofs.Session.Rooted
import SchemaKeeper.Proofs.Session.Stamps
import SchemaKeeper.Proofs.Record.Reading
import SchemaKeeper.Proofs.Record.Again
import SchemaKeeper.Proofs.Dataset.Resaved
import SchemaKeeper.Proofs.Session.Fixpoint
import SchemaKeeper.Proofs.Dataset.Editing
import SchemaKeeper.Proofs.Layout.Partition
import SchemaKeeper.Proofs.Container.Instances
import SchemaKeeper.Proofs.Record.Decoding
import SchemaKeeper.Proofs.Moment.Years
import SchemaKeeper.Proofs.Record.Dates
import SchemaKeeper.Proofs.Validator.RoundTrip
import SchemaKeeper.Proofs.Record.Unmoved
import SchemaKeeper.Proofs.Dataset.Spared
import SchemaKeeper.Proofs.Session.Spared
import SchemaKeeper.Proofs.Schema.Touched
import SchemaKeeper.Proofs.Schema.Nested
import SchemaKeeper.Proofs.Schema.Expansion
import SchemaKeeper.Proofs.Schema.Registry
import SchemaKeeper.Proofs.Schema.Declaration
import SchemaKeeper.Proofs.Store.Counting
import SchemaKeeper.Proofs.Store.Accounts
