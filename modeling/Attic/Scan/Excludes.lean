import Attic.Glob.Match
import Attic.Path.Normal
import Attic.Path.Parts

/-!
# What a walk leaves out

A folder is left out by its name or by its place: an exclusion of one
component is a name that counts anywhere, a longer one is a place seen from
the root. Patterns leave out files and folders.

Key definitions: `Scan.Excludes`, `Scan.Excludes.of`, `Scan.Excludes.holds`.
-/

namespace Attic
namespace Scan

structure Excludes where
  /-- Names of folders anywhere. -/
  names : List Path
  /-- Places of folders. -/
  places : List Path
  globs : List Glob.Pattern

/-- Exclusions in their normal form, where they have one. -/
def Excludes.of (dirs : List Path) (globs : List Glob.Pattern) : Excludes :=
  let dirs := dirs.map fun d => d.normalize?.getD d
  { names := dirs.filter fun d => d.components.length = 1
    places := dirs.filter fun d => d.components.length ≠ 1
    globs := globs }

/-- Whether a path, seen from the root, is left out. -/
def Excludes.holds (e : Excludes) (p : Path) (isFolder : Bool) : Bool :=
  (isFolder &&
    ((match p.fileName? with
      | some name => e.names.any fun d => d.same ⟨name⟩
      | none => false) || e.places.any fun d => d.same p)) ||
    e.globs.any fun g => g.accepts p.chars

end Scan
end Attic
