import Attic.Archive
import Attic.Report.Basic
import Attic.Restore.Apply

/-!
# The words of the command line

What the commands print, line by line.

Key definitions: `Cli.findingLines`, `Cli.catalogLines`, `Cli.importLines`,
`Cli.validationLines`, `Cli.reportLines`, `Cli.planLines`,
`Cli.restorationLines`, `Cli.archiveLines`, `Cli.scanLines`.
-/

namespace Attic
namespace Cli

/-! ### References -/

def findingLine (f : Reference.Finding) : String :=
  "  " ++ f.file.text ++ ":" ++ toString f.line ++ " [" ++ f.kind.label ++ "] " ++ f.snippet

/-- Findings below their scripts. `current` is the script of the last line. -/
def findingLinesFrom : Option Path → List Reference.Finding → List String
  | _, [] => []
  | current, f :: fs =>
    (if current.any fun p => p.same f.script then [] else ["", "Referenced: " ++ f.script.text]) ++
      findingLine f :: findingLinesFrom (some f.script) fs

def findingLines (fs : List Reference.Finding) : List String := findingLinesFrom none fs

def warningLine (w : Scan.Warning) : String := "warn: " ++ w.path.text ++ ": " ++ w.message

def importLines (i : Report.Imports) : List String :=
  findingLines i.outcome.findings ++
    ["", "info: Scanned " ++ toString i.outcome.filesScanned ++ " files for " ++
      toString i.entries.length ++ " archived scripts"] ++
    if i.outcome.findings.isEmpty then ["ok: No references to archived scripts"]
    else i.byBatch.map fun (batch, n) => "  batch " ++ batch ++ ": " ++ toString n ++ " references"

/-! ### Catalogs -/

def commandLine (c : Catalog.Command) : String :=
  let implementation := match c.implementation with
    | some p => " -> " ++ p.text
    | none => ""
  let result := match c.result with
    | some r => " [" ++ r.label ++ "]"
    | none => ""
  "  " ++ c.name ++ implementation ++ result

/-- Commands below their pipelines. `current` is the command of the last line. -/
def catalogLinesFrom : Option Catalog.Command → List Catalog.Command → List String
  | _, [] => []
  | current, c :: cs =>
    (if current.any fun d => d.pipeline = c.pipeline && d.shell.same c.shell then []
      else [c.pipeline ++ " " ++ c.shell.text]) ++
      commandLine c :: catalogLinesFrom (some c) cs

def catalogLines (cs : List Catalog.Command) : List String := catalogLinesFrom none cs

def listingLines (cs : List Catalog.Command) : List String :=
  catalogLines cs ++
    ["", "info: " ++ toString cs.length ++ " commands in " ++
      toString (Catalog.pipelineCount cs) ++ " pipelines"]

/-- What is wrong with the commands of a catalog, in numbers. -/
def verdictLines (v : Catalog.Validation) : List String :=
  let broken := v.broken.length
  let candidates := v.candidates.length
  let total := toString v.commands.length
  if broken = 0 then ["", "ok: All " ++ total ++ " commands valid"]
  else
    ["", "warn: " ++ toString broken ++ " of " ++ total ++ " commands broken"] ++
      if candidates = 0 then []
      else
        ["hint: " ++ toString candidates ++ " commands lost their implementation to archiving; " ++
          "restore-script --path <implementation> brings one back"]

def validationLines (v : Catalog.Validation) : List String :=
  catalogLines v.commands ++ v.issues.map (fun i => "warn: " ++ Report.issueText i) ++
    verdictLines v

/-! ### Reports -/

def reportLines (r : Report) : List String :=
  findingLines r.findings ++ "" :: r.summaryLines ++
    if r.isClean then ["", "ok: Archiving broke nothing"]
    else if 0 < r.summary.brokenImports || 0 < r.summary.brokenCommands then
      ["", "hint: Use restore-batch --archive-id <id> --dry-run to review a restoration"]
    else []

def reportWarnings (r : Report) : List String :=
  r.warnings.map (fun w => "warn: " ++ w) ++ r.scanWarnings.map warningLine

/-! ### Restoration -/

def actionText : Restore.Action → String
  | .restore => "restore"
  | .skipPresent => "skip (exists)"
  | .skipMissing => "skip (archive missing)"

def planLines (p : Restore.Plan) : List String :=
  ("info: Plan for " ++ p.criteria.describe ++ ": " ++ toString (p.count .restore) ++
    " to restore, " ++ toString (p.count .skipPresent) ++ " already present, " ++
    toString (p.count .skipMissing) ++ " missing from archive") ::
    p.items.map fun i =>
      "  " ++ actionText i.action ++ " " ++ i.target.text ++ " <- " ++ i.entry.archive.text ++
        " [" ++ i.entry.batch ++ "]"

def restorationLines (r : Restore.Report) : List String :=
  if r.dryRun then
    ["", "info: Dry run: would restore " ++ toString r.wouldRestore.length ++ " scripts",
      "hint: Drop --dry-run to restore"]
  else
    r.restored.map (fun p => "Restored: " ++ p.text) ++
      r.skipped.map (fun s => "Skipped: " ++ s.path.text ++ " (" ++ s.reason.label ++ ")") ++
      r.failed.map (fun f => "Failed: " ++ f.path.text ++ ": " ++ f.fault.message) ++
      ["", "info: " ++ toString r.restored.length ++ " restored, " ++
        toString r.skipped.length ++ " skipped, " ++ toString r.failed.length ++ " failed"]

def restorationWarnings (r : Restore.Report) : List String :=
  if r.dryRun then [] else r.warnings.map fun w => "warn: " ++ w

/-! ### Archiving and scanning -/

def archiveLines (o : Archive.Outcome) : List String :=
  let verb := if o.dryRun then "Would archive: " else "Archived: "
  o.entries.map (fun e => verb ++ e.original.text ++ " -> " ++ e.archive.text) ++
    ["", "info: Batch " ++ o.batch,
      if o.dryRun then "hint: Drop --dry-run to archive"
      else "hint: Run validate-archiving to check nothing still uses them"]

def scanLines (files : List Path) : List String :=
  ("Would scan " ++ toString files.length ++ " files:") :: files.map fun p => "  " ++ p.text

end Cli
end Attic
