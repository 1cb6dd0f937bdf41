import Attic.Cli.Invocation
import Attic.Cli.Result
import Attic.Cli.Wording

/-!
# Running a command line

A command line runs in a folder of a file tree, at a moment, with a checker for
shell scripts; it comes to a result and the tree after it. Settings and ledger
are those of the repository that the command line names.

Key definitions: `Cli.Host`, `Cli.Workspace`, `Cli.Workspace.load`,
`Cli.Workspace.perform`, `Cli.run`.
-/

namespace Attic
namespace Cli

/-- What a command line finds around it. -/
structure Host where
  /-- The folder it runs in, an absolute path. -/
  directory : Path
  now : Timestamp
  checker : Catalog.Checker

/-- A repository with the settings that hold for one command line. -/
structure Workspace where
  host : Host
  /-- The repository's absolute path without links. -/
  root : Path
  settings : Settings

namespace Workspace

/-- The settings of an invocation: those of the repository or of a file, and
what the invocation adds. -/
def settingsOf (h : Host) (i : Invocation) (t : Tree) (root : Path) :
    Except Failure Settings := do
  let loaded := match i.config with
    | some p => Settings.ofFile t (h.directory.join p) p
    | none => Settings.load t root
  match loaded with
  | .error f => .error ((Failure.ofSettings f).within "Failed to load settings")
  | .ok s =>
    let s := { s with
      excludeGlobs := s.excludeGlobs ++ i.exclude
      threads := i.threads <|> s.threads }
    match s.patterns with
    | .error f => .error ((Failure.ofSettings f).within "Invalid --exclude pattern")
    | .ok _ => .ok s

def load (h : Host) (i : Invocation) (t : Tree) : Except Failure Workspace :=
  match t.canonical (h.directory.join i.root) with
  | .error f => .error ((Failure.ofTree f).within ("Failed to resolve root " ++ i.root.text))
  | .ok root => (settingsOf h i t root).map fun s => ⟨h, root, s⟩

def store (w : Workspace) : Ledger.Store :=
  .journal (Settings.resolve w.root w.settings.ledgerPath)

/-- The place of a catalog: the one given, or that of the settings. -/
def catalogPath (w : Workspace) (given : Option Path) : Path :=
  Settings.resolve w.root (given.getD w.settings.catalogPath)

def repository (t : Tree) : Repository := ⟨t, []⟩

def inspection (w : Workspace) (catalog : Option Path) : Except Failure Inspection :=
  let place := w.catalogPath catalog
  match Inspection.ofSettings w.root w.settings w.store (fun t => Catalog.load t place)
      w.host.checker with
  | .error f => .error ((Failure.ofSettings f).within "Invalid scan settings")
  | .ok i => .ok i

/-- The result of a command that may fail before it prints anything. -/
def resultOf : Except Failure Result → Result
  | .ok r => r
  | .error f => f.result [] []

/-! ### Validation -/

def validateImports (w : Workspace) (json : Bool) (t : Tree) : Except Failure Result := do
  let i ← w.inspection none
  match i.imports (repository t) with
  | .error f => .error ((Failure.ofLedger f).within "Failed to read archive ledger")
  | .ok imports =>
    let isClean := imports.outcome.findings.isEmpty
    .ok (if json then .of isClean [imports.json.pretty] []
      else .of isClean (importLines imports) (imports.outcome.warnings.map warningLine))

def validateCommands (w : Workspace) (catalog : Option Path) (json : Bool) (t : Tree) :
    Except Failure Result := do
  let i ← w.inspection catalog
  match i.commands (repository t) with
  | .error f => .error ((Failure.ofInspection f).within "Failed to validate command catalog")
  | .ok v =>
    let isClean := v.broken.isEmpty
    .ok (if json then .of isClean [v.json.pretty] []
      else .of isClean (validationLines v) (v.warnings.map fun m => "warn: " ++ m))

/-- Keeps a report in a folder. Gives the path of its file. -/
def keepReport (w : Workspace) (folder : Path) (r : Report) (t : Tree) :
    Except Failure Path × Tree :=
  match t.makeFolders (w.host.directory.join folder) with
  | (.error f, t) =>
    (.error ((Failure.ofTree f).within ("Failed to create " ++ folder.text)), t)
  | (.ok (), t) =>
    let path := folder.join ⟨Report.artifactName r.generatedAt⟩
    match t.writeFile (w.host.directory.join path) r.json.pretty.toByteArray with
    | (.error f, t) =>
      (.error ((Failure.ofTree f).within ("Failed to write " ++ path.text)), t)
    | (.ok (), t) => (.ok path, t)

def reportResult (r : Report) (json : Bool) (notes : List String) : Result :=
  if json then .of r.isClean [r.json.pretty] notes
  else .of r.isClean (reportLines r) (notes ++ reportWarnings r)

def validateArchiving (w : Workspace) (catalog output : Option Path) (json : Bool) (t : Tree) :
    Result × Tree :=
  match w.inspection catalog with
  | .error f => (f.result [] [], t)
  | .ok i =>
    let r := i.report w.host.now (repository t)
    match output with
    | none => (reportResult r json [], t)
    | some folder =>
      match w.keepReport folder r t with
      | (.error f, t) => (f.result [] [], t)
      | (.ok path, t) => (reportResult r json ["ok: Wrote " ++ path.text], t)

/-! ### Restoring and archiving -/

/-- How a plan is carried out. Nobody can be asked, so without a token the run
is not confirmed. -/
def options (flags : ApplyFlags) : Restore.Options where
  dryRun := flags.dryRun
  force := !flags.dryRun && flags.force
  token := if flags.dryRun || flags.force then none else flags.confirm
  expired := flags.timeout = some 0

/-- Says how to confirm a plan that restores something and is not confirmed. -/
def confirmHint (flags : ApplyFlags) (p : Restore.Plan) : List String :=
  if !flags.dryRun && !flags.force && flags.confirm.isNone && 0 < p.count .restore then
    ["hint: Re-run with --confirm " ++ p.token ++ " or --force"]
  else []

def restore (w : Workspace) (criteria : Except RequestFault Restore.Criteria)
    (prefixes : List (String × String)) (flags : ApplyFlags) (t : Tree) : Result × Tree :=
  let categories :=
    prefixes.foldl (fun c (name, tag) => c.put name tag) w.settings.categories
  let restorer : Restore.Restorer := ⟨w.root, categories, w.store⟩
  match criteria with
  | .error f => ((Failure.ofRequest f).result [] [], t)
  | .ok criteria =>
    match restorer.plan criteria (repository t) with
    | .error f => ((Failure.ofRequest f).result [] [], t)
    | .ok plan =>
      let announced := if flags.json then [] else planLines plan
      let hint := confirmHint flags plan
      match restorer.apply w.host.now plan (options flags) (repository t) with
      | (.error f, r) => ((Failure.ofRequest f).result announced hint, r.tree)
      | (.ok report, r) =>
        let both : Json.Value := .object [("plan", plan.json), ("result", report.json)]
        (if flags.json then .of report.isClean [both.sorted.pretty] hint
          else .of report.isClean (announced ++ restorationLines report)
            (hint ++ restorationWarnings report), r.tree)

def archiveScripts (w : Workspace) (paths : List Path) (reason : String)
    (batch : Option String) (dryRun json : Bool) (t : Tree) : Result × Tree :=
  let request : Archive.Request :=
    ⟨w.root, w.settings.archiveDir, reason, batch.getD (Archive.standardBatch w.host.now),
      w.host.now⟩
  match Archive.archive request w.store paths dryRun (repository t) with
  | (.error f, r) => ((Failure.ofRequest f).result [] [], r.tree)
  | (.ok o, r) =>
    (.of true (if json then [o.json.pretty] else archiveLines o) [], r.tree)

/-! ### Listing -/

def listCatalog (w : Workspace) (catalog : Option Path) (json : Bool) (t : Tree) :
    Except Failure Result :=
  let place := w.catalogPath catalog
  match Catalog.load t place with
  | .error f => .error ((Failure.ofCatalog f).within ("Failed to load " ++ place.text))
  | .ok cs =>
    .ok (.of true
      (if json then [(Json.Value.list (cs.map Catalog.Command.json)).pretty]
        else listingLines cs) [])

def listFiles (w : Workspace) (roots : Option (List Path)) (t : Tree) :
    Except Failure Result :=
  match Scan.Scanner.ofSettings w.root w.settings with
  | .error f => .error (.ofSettings f)
  | .ok scanner =>
    let (files, warnings) :=
      scanner.files t (roots.getD w.settings.searchRoots) w.settings.excludeDirs
    .ok (.of true (scanLines files) (warnings.map warningLine))

/-! ### All commands -/

def perform (w : Workspace) (c : Command) (t : Tree) : Result × Tree :=
  match c with
  | .validateImports json => (resultOf (w.validateImports json t), t)
  | .validateCommands catalog json => (resultOf (w.validateCommands catalog json t), t)
  | .validateArchiving catalog output json => w.validateArchiving catalog output json t
  | .restoreBatch archiveId category dateRange prefixes flags =>
    w.restore (Restore.Criteria.ofFlags archiveId category dateRange none) prefixes flags t
  | .restoreScript path flags =>
    w.restore (Restore.Criteria.ofFlags none none none (some path)) [] flags t
  | .archiveScripts paths reason batch dryRun json =>
    w.archiveScripts paths reason batch dryRun json t
  | .catalog catalog json => (resultOf (w.listCatalog catalog json t), t)
  | .scan roots => (resultOf (w.listFiles roots t), t)

end Workspace

def programName : String := "script-archive"

def programVersion : String := "0.1.0"

def usageLine : String := "Usage: " ++ programName ++ " [OPTIONS] <COMMAND>"

/-- The help text. -/
def helpText : String :=
  textOf ([usageLine, "", "Commands:"] ++ commandChoices.map fun c => "  " ++ c.1)

/-- What is printed where the arguments are no command. -/
def Stop.result : Stop → Result
  | .usage => ⟨2, "", textOf ["error: invalid arguments", "", usageLine]⟩
  | .help => ⟨0, helpText, ""⟩
  | .version => ⟨0, textOf [programName ++ " " ++ programVersion], ""⟩

/-- Runs a command line. -/
def run (h : Host) (args : List String) (t : Tree) : Result × Tree :=
  match Invocation.read args with
  | .error stop => (stop.result, t)
  | .ok i =>
    match Workspace.load h i t with
    | .error f => (f.result [] [], t)
    | .ok w =>
      let (result, t) := w.perform i.command t
      let note := if i.verbose then textOf ["info: Repository root " ++ w.root.text] else ""
      ({ result with errors := note ++ result.errors }, t)

end Cli
end Attic
