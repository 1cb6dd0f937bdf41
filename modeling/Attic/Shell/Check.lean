import Attic.Catalog.Check
import Attic.Shell.Script

/-!
# Checking the shell entries of a catalog

Key definition: `Shell.check`.
-/

namespace Attic
namespace Shell

/-- Says of the script at a path whether it parses. -/
def check : Catalog.Checker := fun t p =>
  match t.read p with
  | .error f => .invalid (p.text ++ ": " ++ f.message)
  | .ok bytes =>
    if parsesBytes bytes then .valid else .invalid (p.text ++ ": not a shell script")

end Shell
end Attic
