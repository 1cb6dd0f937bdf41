import Attic.Text.Blank
import Attic.Text.Lines
import Attic.Text.Word
import Attic.Text.Bytes
import Attic.Text.Quoted
import Attic.Path.Basic
import Attic.Path.Parts
import Attic.Path.Normal
import Attic.Order.Sorted
import Attic.Glob.Pattern
import Attic.Glob.Match
import Attic.Calendar.Date
import Attic.Calendar.Timestamp
import Attic.Decimal.Shortest
import Attic.Json.Value
import Attic.Json.Write
import Attic.Json.Number
import Attic.Json.Document
import Attic.Json.Shape
import Attic.Tree.Basic
import Attic.Tree.Lookup
import Attic.Tree.Change
import Attic.Tree.Difference
import Attic.Ledger.Entry
import Attic.Ledger.Event
import Attic.Ledger.Journal
import Attic.Ledger.Store
import Attic.Ledger.Unreliable
import Attic.Reference.Kind
import Attic.Reference.Recognize
import Attic.Reference.Imports
import Attic.Reference.Commands
import Attic.Reference.Detect
import Attic.Reference.Index
import Attic.Reference.Resolve
import Attic.Reference.Finding
import Attic.Settings
import Attic.Scan.Excludes
import Attic.Scan.Files
import Attic.Scan.Outcome
import Attic.Catalog.Command
import Attic.Catalog.Document
import Attic.Catalog.Check
import Attic.Request
import Attic.Archive
import Attic.Digest.Sip
import Attic.Restore.Criteria
import Attic.Restore.Plan
import Attic.Restore.Apply
import Attic.Report.Imports
import Attic.Report.Summary
import Attic.Report.Basic
import Attic.Inspection
import Attic.Shell.Lexical
import Attic.Shell.Point
import Attic.Shell.Word
import Attic.Shell.Script
import Attic.Shell.Check
import Attic.Cli.Arguments
import Attic.Cli.Invocation
import Attic.Cli.Result
import Attic.Cli.Wording
import Attic.Cli.Run
import Attic.Main
import Attic.Proofs.Calendar.ReadBack
import Attic.Proofs.Json.ReadBack
import Attic.Proofs.Json.Trailing
import Attic.Proofs.Ledger.Line
import Attic.Proofs.Ledger.Lines
import Attic.Proofs.Path.Steps
import Attic.Proofs.Tree.Leads
import Attic.Proofs.Tree.Walk
import Attic.Proofs.Tree.Folders
import Attic.Proofs.Ledger.Marking
import Attic.Proofs.Ledger.Journal
import Attic.Proofs.Ledger.Refinement
import Attic.Proofs.Tree.Grounded
import Attic.Proofs.Tree.Plain
import Attic.Proofs.Path.Names
import Attic.Proofs.Tree.Below
import Attic.Proofs.Ledger.Keeper
import Attic.Proofs.Restore.Endings
import Attic.Proofs.Restore.Items
import Attic.Proofs.Ledger.Entries
import Attic.Proofs.Restore.Runs
import Attic.Proofs.Restore.Planning
import Attic.Proofs.Restore.Agreement
import Attic.Proofs.Path.Parts
import Attic.Proofs.Archive.Naming
import Attic.Proofs.Tree.Moving
import Attic.Proofs.Archive.Batches
import Attic.Proofs.Archive.Commits
import Attic.Proofs.Restore.Progress
import Attic.Proofs.Archive.RoundTrip
import Attic.Proofs.Order.Distinct
import Attic.Proofs.Path.Relative
import Attic.Proofs.Reference.Forms
import Attic.Proofs.Reference.Found
import Attic.Proofs.Ledger.Ranks
import Attic.Proofs.Ledger.Holder
import Attic.Proofs.Restore.Touched
import Attic.Proofs.Tree.Staying
import Attic.Proofs.Ledger.Scribe
import Attic.Proofs.Archive.Landing
import Attic.Proofs.Ledger.Obliging
import Attic.Proofs.Tree.Making
import Attic.Proofs.Restore.Going
import Attic.Proofs.Restore.Forecast
import Attic.Proofs.Tree.Again
import Attic.Proofs.Ledger.History
import Attic.Proofs.Ledger.Deeds
import Attic.Proofs.Ledger.Single
import Attic.Proofs.Tree.Places
import Attic.Proofs.Restore.Frame
import Attic.Proofs.Restore.Orders
import Attic.Proofs.Tree.Undoing
import Attic.Proofs.Archive.Prefix
import Attic.Proofs.Catalog.Checking
import Attic.Proofs.Archive.Commands
import Attic.Proofs.Ledger.Appended
import Attic.Proofs.Archive.Recorded
import Attic.Proofs.Archive.Journaled
import Attic.Proofs.Session.Steps
import Attic.Proofs.Session.Runs
import Attic.Proofs.Order.Merged
import Attic.Proofs.Reference.Merging
import Attic.Proofs.Restore.Confirming
import Attic.Proofs.Path.Below
import Attic.Proofs.Scan.Walk
import Attic.Proofs.Cli.Listing
import Attic.Proofs.Scan.Copies
import Attic.Proofs.Order.Counting
import Attic.Proofs.Report.Attributing
import Attic.Proofs.Path.Extension
import Attic.Proofs.Path.Joined
import Attic.Proofs.Path.Around
import Attic.Proofs.Reference.Cleaning
import Attic.Proofs.Reference.Named
import Attic.Proofs.Reference.Modules
import Attic.Proofs.Reference.Ending
import Attic.Proofs.Reference.Dotted
import Attic.Proofs.Glob.Reading
import Attic.Proofs.Reference.Holes
import Attic.Proofs.Reference.Computed
import Attic.Proofs.Reference.Queries
import Attic.Proofs.Reference.Pieces
import Attic.Proofs.Reference.Statements
import Attic.Proofs.Reference.Scanning
import Attic.Proofs.Reference.Openings
import Attic.Proofs.Reference.PathStart
import Attic.Proofs.Reference.CommandPosition
import Attic.Proofs.Restore.Authority
import Attic.Proofs.Restore.Accounts
import Attic.Proofs.Tree.Barring
import Attic.Proofs.Restore.Passes
import Attic.Proofs.Tree.Replacing
import Attic.Proofs.Ledger.Confined
import Attic.Proofs.Archive.Leaving
import Attic.Proofs.Ledger.ReadBack
import Attic.Proofs.Ledger.Accounting
import Attic.Proofs.Path.Saying
import Attic.Proofs.Scan.Roots
import Attic.Proofs.Scan.Collected
import Attic.Proofs.Restore.Categories
import Attic.Proofs.Scan.Ordered
import Attic.Proofs.Tree.Spelling
import Attic.Proofs.Json.Tidy
import Attic.Proofs.Catalog.Declared
import Attic.Proofs.Catalog.Pointwise
import Attic.Proofs.Path.Composed
import Attic.Proofs.Report.Sections
import Attic.Proofs.Restore.Days
import Attic.Proofs.Restore.Spellings
import Attic.Proofs.Path.Named
import Attic.Proofs.Archive.FirstFree
