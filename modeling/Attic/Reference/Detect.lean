import Attic.Reference.Commands
import Attic.Reference.Imports

/-!
# References in a line

Key definitions: `Reference.specifiersOf`, `Reference.detect`.
-/

namespace Attic
namespace Reference

/-- What a line says in references of one kind. -/
def specifiersOf (kind : Kind) (flavor : Flavor) (line : List Char) : List Specifier :=
  match kind with
  | .staticImport => staticImports flavor line
  | .dynamicImport => dynamicImports flavor line
  | .require => requires line
  | .shellSource => shellSources line
  | .shellExec => shellRuns line

/-- All references in a line, by kind. -/
def detect (flavor : Flavor) (line : List Char) : List (Kind × Specifier) :=
  Kind.all.flatMap fun kind => (specifiersOf kind flavor line).map fun s => (kind, s)

end Reference
end Attic
