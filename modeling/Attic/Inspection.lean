import Attic.Catalog.Document
import Attic.Ledger.Store
import Attic.Report.Basic

/-!
# Inspecting a repository

An inspection reads the active entries of a ledger, scans the files for uses of
their scripts, and checks the commands of a catalog against the tree. The full
report does both over one reading of the ledger and goes on where a part fails.

Key definitions: `Inspection`, `Inspection.standard`, `Inspection.ofSettings`,
`Inspection.imports`, `Inspection.commands`, `Inspection.report`.
-/

namespace Attic

/-- What is inspected, and how. -/
structure Inspection where
  root : Path
  store : Ledger.Store
  catalog : Tree → Except Catalog.Fault (List Catalog.Command)
  checker : Catalog.Checker
  scanner : Scan.Scanner
  searchRoots : List Path
  excludeDirs : List Path

namespace Inspection

/-- Why commands could not be checked. -/
inductive Fault where
  | ledger (fault : Ledger.Fault)
  | catalog (fault : Catalog.Fault)

def Fault.message : Fault → String
  | .ledger f => f.message
  | .catalog f => f.message

/-- The reason below the message of a fault, if it has one. -/
def Fault.cause? : Fault → Option String
  | .ledger f => f.cause?
  | .catalog f => f.cause?

/-- The inspection of a repository without settings. -/
def standard (root : Path) (store : Ledger.Store)
    (catalog : Tree → Except Catalog.Fault (List Catalog.Command)) (checker : Catalog.Checker) :
    Inspection :=
  ⟨root, store, catalog, checker, .standard root, Settings.standard.searchRoots,
    Settings.standard.excludeDirs⟩

/-- The inspection that settings describe. Archived copies are left out of the
scan wherever the settings put them. -/
def ofSettings (root : Path) (s : Settings) (store : Ledger.Store)
    (catalog : Tree → Except Catalog.Fault (List Catalog.Command)) (checker : Catalog.Checker) :
    Except Settings.Fault Inspection :=
  (Scan.Scanner.ofSettings root s).map fun scanner =>
    ⟨root, store, catalog, checker, scanner, s.searchRoots, s.excludeDirs ++ [⟨s.archiveDir⟩]⟩

def archivedPaths (entries : List Ledger.Entry) : List Path := entries.map Ledger.Entry.original

/-- The uses of the scripts of some entries. -/
def scanFor (i : Inspection) (t : Tree) (entries : List Ledger.Entry) : Report.Imports :=
  ⟨entries, i.scanner.scan t (archivedPaths entries) i.searchRoots i.excludeDirs⟩

/-- The commands of the catalog, checked against the tree and some entries. -/
def check (i : Inspection) (t : Tree) (entries : List Ledger.Entry)
    (commands : List Catalog.Command) : Catalog.Validation :=
  Catalog.validate i.checker t i.root commands (archivedPaths entries)

/-- The uses of the scripts that are archived. -/
def imports (i : Inspection) (r : Repository) : Except Ledger.Fault Report.Imports :=
  (i.store.active r).map (i.scanFor r.tree)

/-- The commands of the catalog with their results. -/
def commands (i : Inspection) (r : Repository) : Except Fault Catalog.Validation :=
  match i.store.active r with
  | .error f => .error (.ledger f)
  | .ok entries =>
    match i.catalog r.tree with
    | .error f => .error (.catalog f)
    | .ok commands => .ok (i.check r.tree entries commands)

/-- The warning where, without a ledger, some implementations are missing. -/
def unattributed? (v : Catalog.Validation) : Option String :=
  let missing := v.commands.filter fun c => c.result = some .missingImplementation
  if missing.isEmpty then none
  else some ("archive ledger unavailable: " ++ toString missing.length ++
    " missing implementations may be archived scripts rather than stale entries")

/-- The full report. It always comes to an end with what could be looked at. -/
def report (i : Inspection) (now : Timestamp) (r : Repository) : Report :=
  let ledger := i.store.active r
  let imports := i.scanFor r.tree (ledger.toOption.getD [])
  let catalog := (i.catalog r.tree).map (i.check r.tree imports.entries)
  let checked := catalog.toOption.getD .empty
  let ledgerFailures := match ledger with
    | .ok _ => []
    | .error f => [⟨.ledger, f.message⟩]
  let catalogFailures := match catalog with
    | .ok _ => []
    | .error f => [⟨.catalog, f.message⟩]
  let doubts := match ledger with
    | .ok _ => []
    | .error _ => (unattributed? checked).toList
  { generatedAt := now
    findings := imports.outcome.findings
    commands := checked.commands
    issues := checked.issues
    summary := .of imports checked
    scanWarnings := imports.outcome.warnings
    warnings := checked.warnings ++ doubts
    failures := ledgerFailures ++ catalogFailures }

end Inspection
end Attic
