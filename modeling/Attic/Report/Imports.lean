import Attic.Ledger.Entry
import Attic.Scan.Outcome

/-!
# Uses of archived scripts

What a scan for the scripts of a ledger found, together with the entries it
looked for. Each finding counts for the batch that archived its script; of
several entries of one path the last one says which batch that is.

Key definitions: `Report.batchOf?`, `Report.Imports`, `Report.Imports.byBatch`,
`Report.Imports.json`.
-/

namespace Attic
namespace Report

/-- The batch that archived a path: that of its last entry. -/
def batchOf? (entries : List Ledger.Entry) (path : Path) : Option String :=
  (entries.reverse.find? fun e => e.original.same path).map Ledger.Entry.batch

/-- How many times each text occurs, sorted. -/
def countEach (names : List String) : Order.Table Nat :=
  names.foldl (fun t name => t.add name 1) []

/-- The counts of a table as a JSON object. -/
def countsJson (counts : Order.Table Nat) : Json.Value :=
  .object (counts.map fun (name, n) => (name, .nat n))

structure Imports where
  /-- The entries whose scripts were looked for. -/
  entries : List Ledger.Entry
  outcome : Scan.Outcome

/-- How many findings there are for each batch. -/
def Imports.byBatch (i : Imports) : Order.Table Nat :=
  countEach (i.outcome.findings.filterMap fun f => batchOf? i.entries f.script)

def Imports.json (i : Imports) : Json.Value :=
  .object [
    ("archived_entries", .list (i.entries.map Ledger.Entry.json)),
    ("findings", .list (i.outcome.findings.map Reference.Finding.json)),
    ("warnings", .list (i.outcome.warnings.map Scan.Warning.json)),
    ("files_scanned", .nat i.outcome.filesScanned)]

end Report
end Attic
