import Attic.Json.Value
import Attic.Path.Basic

/-!
# Commands of a catalog

A catalog maps pipelines to commands. Each command belongs to a pipeline with
a shell entry and may have a script of its own that implements it. Checking a
command against the tree gives a result.

Key definitions: `Catalog.Result`, `Catalog.Command`, `Catalog.pipelineCount`.
-/

namespace Attic
namespace Catalog

/-- What checking a command comes to. -/
inductive Result where
  | ok
  | missingShell
  | missingImplementation
  /-- The implementation is gone because it was archived. -/
  | archivedImplementation
  | brokenShell
  deriving DecidableEq

/-- The result in words. -/
def Result.label : Result → String
  | .ok => "ok"
  | .missingShell => "missing shell entry"
  | .missingImplementation => "missing implementation"
  | .archivedImplementation => "implementation archived"
  | .brokenShell => "shell syntax error"

/-- The name of the result in JSON. -/
def Result.name : Result → String
  | .ok => "ok"
  | .missingShell => "missing_shell_entry"
  | .missingImplementation => "missing_implementation"
  | .archivedImplementation => "implementation_archived"
  | .brokenShell => "shell_syntax_error"

/-- One command. Its paths are seen from the root of the repository. -/
structure Command where
  pipeline : String
  name : String
  shell : Path
  /-- None for a command that its shell entry does itself. -/
  implementation : Option Path
  /-- Set by checking. -/
  result : Option Result
  deriving DecidableEq

/-- The command's pipeline and name in one. -/
def Command.fullName (c : Command) : String := c.pipeline ++ "." ++ c.name

/-- Whether checking found something wrong. -/
def Command.isBroken (c : Command) : Bool :=
  match c.result with
  | none => false
  | some .ok => false
  | some _ => true

def Command.json (c : Command) : Json.Value :=
  .object ([
    ("pipeline_name", .text c.pipeline),
    ("command_name", .text c.name),
    ("shell_entry_path", .text c.shell.text),
    ("implementation_path", match c.implementation with
      | some p => .text p.text
      | none => .null)] ++
    match c.result with
    | some r => [("validation_result", .text r.name)]
    | none => [])

/-- How many pipelines there are, where the commands of each stand together. -/
def pipelineCount : List Command → Nat
  | [] => 0
  | [_] => 1
  | c :: d :: cs => (if c.pipeline = d.pipeline then 0 else 1) + pipelineCount (d :: cs)

end Catalog
end Attic
