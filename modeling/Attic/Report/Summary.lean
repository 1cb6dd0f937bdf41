import Attic.Catalog.Check
import Attic.Report.Imports

/-!
# Counts

What a report says in numbers: findings and broken commands, in total and by
batch and pipeline. A broken command counts for a batch when that batch
archived its implementation, or the shell entry that it misses.

Key definitions: `Report.Summary`, `Report.Summary.of`.
-/

namespace Attic
namespace Report

structure Summary where
  archivedEntries : Nat
  filesScanned : Nat
  brokenImports : Nat
  brokenCommands : Nat
  /-- How many pipelines have a broken command. -/
  brokenPipelines : Nat
  importsByBatch : Order.Table Nat
  commandsByPipeline : Order.Table Nat
  commandsByBatch : Order.Table Nat
  deriving DecidableEq

def Summary.json (s : Summary) : Json.Value :=
  .object [
    ("archived_entries", .nat s.archivedEntries),
    ("files_scanned", .nat s.filesScanned),
    ("broken_imports", .nat s.brokenImports),
    ("broken_commands", .nat s.brokenCommands),
    ("broken_pipelines", .nat s.brokenPipelines),
    ("imports_by_batch", countsJson s.importsByBatch),
    ("commands_by_pipeline", countsJson s.commandsByPipeline),
    ("commands_by_batch", countsJson s.commandsByBatch)]

/-- The path whose loss broke a command, where archiving can have taken it. -/
def lostPath? (c : Catalog.Command) : Option Path :=
  match c.result with
  | some .archivedImplementation => c.implementation
  | some .missingShell => some c.shell
  | _ => none

/-- The batch that broke a command. -/
def blamedBatch? (entries : List Ledger.Entry) (c : Catalog.Command) : Option String :=
  (lostPath? c).bind (batchOf? entries)

/-- The counts of what was found. -/
def Summary.of (i : Imports) (v : Catalog.Validation) : Summary :=
  let byPipeline := countEach (v.broken.map Catalog.Command.pipeline)
  ⟨i.entries.length, i.outcome.filesScanned, i.outcome.findings.length, v.broken.length,
    byPipeline.length, i.byBatch, byPipeline,
    countEach (v.broken.filterMap (blamedBatch? i.entries))⟩

end Report
end Attic
