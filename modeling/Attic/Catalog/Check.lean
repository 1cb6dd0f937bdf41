import Attic.Catalog.Command
import Attic.Order.Sorted
import Attic.Path.Normal
import Attic.Tree.Lookup

/-!
# Checking a catalog against the tree

A command is checked by its files: an implementation that is gone was archived
or is missing; a shell entry that is gone, or does not parse, is an issue of
the pipeline and is reported once. A missing implementation counts before a
missing shell entry, and that before a shell entry that does not parse.

Key definitions: `Catalog.Verdict`, `Catalog.Checker`, `Catalog.Problem`,
`Catalog.Issue`, `Catalog.Validation`, `Catalog.checkCommand`,
`Catalog.validate`.
-/

namespace Attic
namespace Catalog

/-- What a checker says of a script. -/
inductive Verdict where
  | valid
  /-- The script does not parse. -/
  | invalid (message : String)
  /-- The checker could not run, which is no fault of the script. -/
  | unavailable (message : String)
  deriving DecidableEq

/-- Checks whether the script at an absolute path parses. -/
abbrev Checker := Tree → Path → Verdict

/-- What is wrong with a shell entry. -/
inductive Problem where
  | missing (archived : Bool)
  | broken (message : String)
  deriving DecidableEq

def Problem.label : Problem → String
  | .missing true => "shell entry archived"
  | .missing false => "shell entry missing"
  | .broken message => "syntax error: " ++ message

def Problem.json : Problem → Json.Value
  | .missing archived =>
    .object [("kind", .text "missing_shell_entry"), ("archived", .bool archived)]
  | .broken message =>
    .object [("kind", .text "shell_syntax_error"), ("message", .text message)]

/-- Whether a problem is listed before another. -/
def Problem.before : Problem → Problem → Bool
  | .missing a, .missing b => !a && b
  | .missing _, .broken _ => true
  | .broken _, .missing _ => false
  | .broken a, .broken b => a < b

/-- A problem of a pipeline with its shell entry. -/
structure Issue where
  pipeline : String
  shell : Path
  problem : Problem
  deriving DecidableEq

def Issue.json (i : Issue) : Json.Value :=
  .object [
    ("pipeline_name", .text i.pipeline),
    ("shell_entry_path", .text i.shell.text),
    ("problem", i.problem.json)]

/-- Whether an issue is listed before another. -/
def Issue.before (a b : Issue) : Bool :=
  if a.pipeline ≠ b.pipeline then a.pipeline < b.pipeline
  else if a.shell.before b.shell then true
  else if b.shell.before a.shell then false
  else a.problem.before b.problem

/-- What checking a catalog comes to: the commands in their order with their
results, the issues sorted, and warnings. -/
structure Validation where
  commands : List Command
  issues : List Issue
  warnings : List String
  deriving DecidableEq

def Validation.empty : Validation := ⟨[], [], []⟩

def Validation.broken (v : Validation) : List Command := v.commands.filter Command.isBroken

/-- The commands whose implementation can be restored. -/
def Validation.candidates (v : Validation) : List Command :=
  v.commands.filter fun c => c.result = some .archivedImplementation

def Validation.json (v : Validation) : Json.Value :=
  .object [
    ("entries", .list (v.commands.map Command.json)),
    ("pipeline_issues", .list (v.issues.map Issue.json)),
    ("warnings", .list (v.warnings.map .text))]

/-- Whether the normal form of a path is one of some normal paths. -/
def isArchived (archived : List Path) (p : Path) : Bool :=
  match p.normalize? with
  | some q => archived.any fun a => a.same q
  | none => false

/-- What the checker says of a shell entry, if the entry is there. -/
def shellVerdict? (check : Checker) (t : Tree) (root shell : Path) : Option Verdict :=
  let place := root.join shell
  if t.isFile place then some (check t place) else none

/-- The problem of a shell entry. -/
def shellProblem? (archived : List Path) (shell : Path) : Option Verdict → Option Problem
  | none => some (.missing (isArchived archived shell))
  | some (.invalid message) => some (.broken message)
  | some _ => none

/-- The result of a command, from the problem of its shell entry. -/
def checkCommand (t : Tree) (root : Path) (archived : List Path) (problem : Option Problem)
    (c : Command) : Result :=
  let shellResult : Result := match problem with
    | some (.missing _) => .missingShell
    | some (.broken _) => .brokenShell
    | none => .ok
  match c.implementation with
  | none => shellResult
  | some p =>
    if t.isFile (root.join p) then shellResult
    else if isArchived archived p then .archivedImplementation
    else .missingImplementation

/-- Keeps of the issues of one pipeline with one shell entry the first. -/
def firstIssues : List Issue → List Issue
  | [] => []
  | i :: is =>
    i :: (firstIssues is).filter fun j => !(j.pipeline = i.pipeline && j.shell.same i.shell)

/-- The warning of a checker that could not run. -/
def warning? : Option Verdict → Option String
  | some (.unavailable message) => some ("shell syntax check skipped: " ++ message)
  | _ => none

/-- The spelling under which a shell entry is checked: that of the last command
that names it. -/
def shellSpelling (commands : List Command) (shell : Path) : Path :=
  match commands.reverse.find? fun c => c.shell.same shell with
  | some c => c.shell
  | none => shell

/-- The commands of a catalog with their results, where `verdict` tells what the
checker says of each shell entry. -/
def checkedCommands (t : Tree) (root : Path) (archived : List Path)
    (verdict : Path → Option Verdict) (commands : List Command) : List Command :=
  commands.map fun c =>
    let problem := shellProblem? archived c.shell (verdict c.shell)
    { c with result := some (checkCommand t root archived problem c) }

/-- The issues of the pipelines of a catalog, each once, sorted. -/
def issues (archived : List Path) (verdict : Path → Option Verdict) (commands : List Command) :
    List Issue :=
  Order.sortBy Issue.before <| firstIssues <| commands.filterMap fun c =>
    (shellProblem? archived c.shell (verdict c.shell)).map fun problem =>
      ⟨c.pipeline, c.shell, problem⟩

/-- Checks every command of a catalog. Of checkers that could not run the first
is a warning. -/
def validate (check : Checker) (t : Tree) (root : Path) (commands : List Command)
    (archivedPaths : List Path) : Validation :=
  let archived := archivedPaths.filterMap Path.normalize?
  let verdict := fun shell => shellVerdict? check t root (shellSpelling commands shell)
  ⟨checkedCommands t root archived verdict commands, issues archived verdict commands,
    (commands.filterMap fun c => warning? (verdict c.shell)).head?.toList⟩

end Catalog
end Attic
