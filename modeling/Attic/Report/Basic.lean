import Attic.Calendar.Timestamp
import Attic.Report.Summary

/-!
# Reports

A report puts together what is left of archived scripts: the findings, the
commands of the catalog with their results, and the counts of both. A part that
could not be looked at is a failure of the report and counts nothing.

Key definitions: `Report.Section`, `Report`, `Report.isClean`,
`Report.artifactName`, `Report.json`, `Report.summaryText`.
-/

namespace Attic
namespace Report

/-- The parts of a report that can fail. -/
inductive Section where
  | ledger
  | catalog
  deriving DecidableEq

def Section.name : Section → String
  | .ledger => "archive-store"
  | .catalog => "command-catalog"

/-- A part that could not be looked at, and why. -/
structure Failure where
  part : Section
  message : String
  deriving DecidableEq

def Failure.json (f : Failure) : Json.Value :=
  .object [("section", .text f.part.name), ("message", .text f.message)]

end Report

structure Report where
  generatedAt : Timestamp
  findings : List Reference.Finding
  commands : List Catalog.Command
  issues : List Catalog.Issue
  summary : Report.Summary
  scanWarnings : List Scan.Warning
  warnings : List String
  failures : List Report.Failure
  deriving DecidableEq

namespace Report

/-- Nothing is broken, and every part was looked at. -/
def isClean (r : Report) : Bool :=
  r.summary.brokenImports == 0 && r.summary.brokenCommands == 0 && r.failures.isEmpty

/-- The name of the file that a report is kept in. -/
def artifactName (generatedAt : Timestamp) : String :=
  "archive-validation-" ++ String.ofList generatedAt.date.write ++ ".json"

def json (r : Report) : Json.Value :=
  .object [
    ("generated_at", .text (Ledger.timeText r.generatedAt)),
    ("findings", .list (r.findings.map Reference.Finding.json)),
    ("catalog_results", .list (r.commands.map Catalog.Command.json)),
    ("pipeline_issues", .list (r.issues.map Catalog.Issue.json)),
    ("summary", r.summary.json),
    ("scan_warnings", .list (r.scanWarnings.map Scan.Warning.json)),
    ("warnings", .list (r.warnings.map .text)),
    ("errors", .list (r.failures.map Failure.json))]

/-! ### In words -/

/-- An issue of a pipeline in words. -/
def issueText (i : Catalog.Issue) : String :=
  "pipeline " ++ i.pipeline ++ " (" ++ i.shell.text ++ "): " ++ i.problem.label

/-- One line for each count of a table. -/
def countLines (before : String) (counts : Order.Table Nat) : List String :=
  counts.map fun (name, n) => "  " ++ before ++ name ++ ": " ++ toString n

/-- The lines of the summary of a report. -/
def summaryLines (r : Report) : List String :=
  let s := r.summary
  ["archived entries: " ++ toString s.archivedEntries,
    "files scanned: " ++ toString s.filesScanned,
    "broken imports: " ++ toString s.brokenImports] ++
    countLines "batch " s.importsByBatch ++
    ["broken commands: " ++ toString s.brokenCommands ++ " across " ++
      toString s.brokenPipelines ++ " pipelines"] ++
    countLines "" s.commandsByPipeline ++
    countLines "archived by batch " s.commandsByBatch ++
    r.issues.map issueText ++
    r.failures.map fun f => "error in " ++ f.part.name ++ ": " ++ f.message

/-- The summary of a report as a text. -/
def summaryText (r : Report) : String :=
  String.join (r.summaryLines.map fun line => line ++ "\n")

end Report
end Attic
