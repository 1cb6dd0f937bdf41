import Attic.Order.Sorted
import Attic.Scan.Excludes
import Attic.Settings

/-!
# The files that a scan reads

A scan walks some roots. A root that is a file is read; below a root that is a
folder, or a link to one, every file is read, unless an exclusion holds of it
or of a folder between it and the root. Links below a root are not followed,
and the root itself is never left out. A root that cannot be walked is a
warning. Files are seen from the root of the repository where they lie in it.

Key definitions: `Scan.Warning`, `Scan.Scanner`, `Scan.seenFrom`,
`Scan.pathsDown`, `Scan.isReached`, `Scan.filesBelow`, `Scan.walkRoot`,
`Scan.Scanner.files`.
-/

namespace Attic
namespace Scan

inductive WarningKind where
  | unreadable
  | oversized
  deriving DecidableEq

/-- What could not be scanned. -/
structure Warning where
  path : Path
  kind : WarningKind
  message : String
  deriving DecidableEq

def WarningKind.rank : WarningKind → Nat
  | .unreadable => 0
  | .oversized => 1

def WarningKind.text : WarningKind → String
  | .unreadable => "unreadable"
  | .oversized => "oversized"

/-- Whether a warning is reported before another. -/
def Warning.before (a b : Warning) : Bool :=
  if a.path.before b.path then true
  else if b.path.before a.path then false
  else if a.kind ≠ b.kind then a.kind.rank < b.kind.rank
  else a.message < b.message

def Warning.json (w : Warning) : Json.Value :=
  .object [
    ("path", .text w.path.text),
    ("kind", .text w.kind.text),
    ("message", .text w.message)]

/-- How a repository is scanned. -/
structure Scanner where
  root : Path
  globs : List Glob.Pattern
  maxFileBytes : Nat
  threads : Option Nat

/-- The scanner of a repository without settings. -/
def Scanner.standard (root : Path) : Scanner := ⟨root, [], Settings.standard.maxFileBytes, none⟩

/-- The scanner that settings describe. -/
def Scanner.ofSettings (root : Path) (s : Settings) : Except Settings.Fault Scanner :=
  s.patterns.map fun globs => ⟨root, globs, s.maxFileBytes, s.threads⟩

/-- A path as it is seen from the root of the repository. -/
def seenFrom (root p : Path) : Path := (p.below? root).getD p

/-- The paths and places on the way down from `start` by some names, the last of
them where the way ends. -/
def pathsDown (start : Path) (place : Location) : List String → List (Path × Location)
  | [] => []
  | name :: names =>
    (start.join ⟨name⟩, place ++ [name]) ::
      pathsDown (start.join ⟨name⟩) (place ++ [name]) names

/-- Whether the walk comes to the end of a way down: everything before the end
is a folder, and nothing on the way is left out. -/
def isReached (t : Tree) (root : Path) (e : Excludes) : List (Path × Location) → Bool
  | [] => true
  | [(p, _)] => !e.holds (seenFrom root p) false
  | (p, l) :: q :: rest =>
    (match t.get? l with
      | some .folder => true
      | _ => false) &&
      !e.holds (seenFrom root p) true && isReached t root e (q :: rest)

/-- The files below a folder that the walk comes to. -/
def filesBelow (t : Tree) (root : Path) (e : Excludes) (start : Path) (place : Location) :
    List Path :=
  t.objects.filterMap fun (l, o) =>
    match o with
    | .file _ _ =>
      if place.isPrefixOf l && l ≠ place then
        let way := pathsDown start place (l.drop place.length)
        if isReached t root e way then way.getLast?.map fun w => seenFrom root w.1 else none
      else none
    | _ => none

def walkFault (p : Path) (f : Tree.Fault) : String :=
  "IO error for operation on " ++ p.text ++ ": " ++ f.message

/-- The files of one root, or the fault that keeps it from being walked. -/
def walkRoot (t : Tree) (root : Path) (e : Excludes) (start : Path) :
    Except Tree.Fault (List Path) :=
  match Tree.found (t.spot false (Tree.endsWithSlash start.text) start) with
  | .error f => .error f
  | .ok (_, .file _ _) => .ok [seenFrom root start]
  | .ok (l, .folder) => .ok (filesBelow t root e start l)
  | .ok (_, .link _) =>
    match Tree.found (t.spot true (Tree.endsWithSlash start.text) start) with
    | .error f => .error f
    | .ok (l, .folder) => .ok (filesBelow t root e start l)
    | .ok _ => .ok []

/-- The files that a scan of some roots reads, sorted and each once, and what
could not be walked, in the order of the roots. -/
def Scanner.files (s : Scanner) (t : Tree) (roots excludeDirs : List Path) :
    List Path × List Warning :=
  let e := Excludes.of excludeDirs s.globs
  let walks := roots.map fun r =>
    let start := if r.isAbsolute then r else s.root.join r
    (start, walkRoot t s.root e start)
  (Order.sortDistinct Path.before (walks.flatMap fun w => match w.2 with
      | .ok files => files
      | .error _ => []),
    walks.filterMap fun w => match w.2 with
      | .ok _ => none
      | .error f => some ⟨seenFrom s.root w.1, .unreadable, walkFault w.1 f⟩)

end Scan
end Attic
