import Attic.Cli.Arguments
import Attic.Path.Basic

/-!
# Invocations

A command line names a command. Options of the program itself stand before or
after the name of the command; where they stand on both sides, those after it
count.

Key definitions: `Cli.Command`, `Cli.Invocation`, `Cli.Invocation.read`.
-/

namespace Attic
namespace Cli

/-- How a restoration is to be carried out. -/
structure ApplyFlags where
  dryRun : Bool
  force : Bool
  confirm : Option String
  /-- After how many seconds no further item is started. -/
  timeout : Option Nat
  json : Bool
  deriving DecidableEq

inductive Command where
  | validateImports (json : Bool)
  | validateCommands (catalog : Option Path) (json : Bool)
  | validateArchiving (catalog output : Option Path) (json : Bool)
  | restoreBatch (archiveId category dateRange : Option String)
      (prefixes : List (String × String)) (flags : ApplyFlags)
  | restoreScript (path : Path) (flags : ApplyFlags)
  | archiveScripts (paths : List Path) (reason : String) (batch : Option String)
      (dryRun json : Bool)
  | catalog (catalog : Option Path) (json : Bool)
  | scan (roots : Option (List Path))
  deriving DecidableEq

/-- A command with the options of the program. -/
structure Invocation where
  root : Path
  config : Option Path
  /-- More patterns of what is left out. -/
  exclude : List String
  threads : Option Nat
  verbose : Bool
  command : Command
  deriving DecidableEq

/-! ### Options -/

def single (name : String) (kind : ValueKind) : Choice := ⟨name, none, kind, false⟩

/-- The options of the program. -/
def globalChoices : List Choice :=
  [single "root" .path, single "config" .path, ⟨"exclude", some 'e', .text, true⟩,
    single "threads" .count, ⟨"verbose", some 'v', .flag, false⟩]

/-- The options of the commands that restore. -/
def applyChoices : List Choice :=
  [single "dry-run" .flag, single "force" .flag, single "confirm" .text, single "timeout" .count,
    single "json" .flag]

/-- The commands by name: their options, and whether they take words. -/
def commandChoices : List (String × List Choice × Bool) :=
  [("validate-imports", [single "json" .flag], false),
    ("validate-cli-commands", [single "catalog" .path, single "json" .flag], false),
    ("validate-archiving",
      [single "catalog" .path, ⟨"output", some 'o', .path, false⟩, single "json" .flag], false),
    ("restore-batch",
      [single "archive-id" .text, single "category" .text, single "date-range" .text,
        ⟨"category-prefix", none, .mapping, true⟩] ++ applyChoices, false),
    ("restore-script", ⟨"path", some 'p', .path, false⟩ :: applyChoices, false),
    ("archive-script",
      [single "reason" .text, single "batch-id" .text, single "dry-run" .flag,
        single "json" .flag], true),
    ("catalog", [single "catalog" .path, single "json" .flag], false),
    ("scan", [⟨"paths", some 'p', .path, true⟩], false)]

/-! ### Reading -/

def pathOf? (g : Given) (name : String) : Option Path := (g.value? name).map Path.mk

def applyFlags (g : Given) : ApplyFlags :=
  ⟨g.has "dry-run", g.has "force", g.value? "confirm", (g.value? "timeout").bind readCount?,
    g.has "json"⟩

/-- The command of a name, from its options and words. -/
def Command.of (name : String) (g : Given) : Except Stop Command :=
  let json := g.has "json"
  match name with
  | "validate-imports" => .ok (.validateImports json)
  | "validate-cli-commands" => .ok (.validateCommands (pathOf? g "catalog") json)
  | "validate-archiving" =>
    .ok (.validateArchiving (pathOf? g "catalog") (pathOf? g "output") json)
  | "restore-batch" =>
    .ok (.restoreBatch (g.value? "archive-id") (g.value? "category") (g.value? "date-range")
      ((g.values "category-prefix").filterMap readMapping?) (applyFlags g))
  | "restore-script" =>
    match pathOf? g "path" with
    | some p => .ok (.restoreScript p (applyFlags g))
    | none => .error .usage
  | "archive-script" =>
    if g.words.isEmpty then .error .usage
    else
      .ok (.archiveScripts (g.words.map Path.mk) ((g.value? "reason").getD "")
        (g.value? "batch-id") (g.has "dry-run") json)
  | "catalog" => .ok (.catalog (pathOf? g "catalog") json)
  | "scan" =>
    .ok (.scan (if g.has "paths" then some ((g.values "paths").map Path.mk) else none))
  | _ => .error .usage

/-- The values of an option of the program, given before or after the name of
the command. -/
def globalValues (outer inner : Given) (name : String) : List String :=
  if inner.has name then inner.values name else outer.values name

/-- A request for help, alone or on a command. -/
def helpStop : List String → Stop
  | [] => .help
  | name :: _ =>
    if name = "help" || commandChoices.any (fun c => c.1 = name) then .help else .usage

/-- Reads the arguments of the program. -/
def Invocation.read (args : List String) : Except Stop Invocation := do
  let (outer, rest) ← Level.read ⟨globalChoices, false, true⟩ args
  match rest with
  | [] => .error .usage
  | name :: rest =>
    if name = "help" then .error (helpStop rest)
    else
      match commandChoices.lookup name with
      | none => .error .usage
      | some (choices, takesWords) =>
        let (inner, extra) ← Level.read ⟨globalChoices ++ choices, takesWords, false⟩ rest
        if !extra.isEmpty then .error .usage
        else
          let command ← Command.of name inner
          let value? := fun option => (globalValues outer inner option).head?
          .ok ⟨⟨(value? "root").getD "."⟩, (value? "config").map Path.mk,
            globalValues outer inner "exclude", (value? "threads").bind readCount?,
            outer.has "verbose" || inner.has "verbose", command⟩

end Cli
end Attic
