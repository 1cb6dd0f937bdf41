import Attic.Glob.Match
import Attic.Reference.Index
import Attic.Reference.Kind
import Attic.Text.Blank

/-!
# Resolving specifiers

A specifier found in a file names archived scripts. A path is looked for from
the folder of the file and, where a shell or a bare module path says it, from
the root of the repository. Where the first segment is a variable or an alias
that is not known, what follows it is matched from the end. A path with holes
is a glob pattern, and a Python module is looked for as a file and as a
package.

Key definitions: `Reference.clean`, `Reference.concreteTail`,
`Reference.Index.ofPath`, `Reference.Index.ofComputed`,
`Reference.Index.ofModule`, `Reference.Index.resolve`.
-/

namespace Attic
namespace Reference

/-- A specifier's text without blanks around it, without a query or fragment,
unless it starts with one, and without slashes at its end. -/
def clean (raw : List Char) : List Char :=
  let raw := Text.trim raw
  let isMark := fun c : Char => c = '?' || c = '#'
  let kept := raw.takeWhile fun c => !isMark c
  let kept := if kept = [] then raw else kept
  (kept.reverse.dropWhile (· = '/')).reverse

/-- The names after the last `..` or leading `.`. -/
def concreteNames (cs : List Path.Component) : List String :=
  cs.foldl (fun names c => match c with
    | .name s => names ++ [s]
    | _ => []) []

/-- The part of a path that says where a script is without saying from where. -/
def concreteTail (p : Path) : Path := Path.ofNames (concreteNames p.components)

/-- Whether a tail says enough to be matched: two components or an extension. -/
def isSpecific (tail : Path) : Bool := 2 ≤ tail.components.length || tail.extension?.isSome

/-- The candidate that a path names, if it has a normal form. -/
def Index.candidate (i : Index) (p : Path) : List Path :=
  match p.normalize? with
  | some q => i.named q
  | none => []

/-- Whether the first segment is a variable or an alias. -/
def hasUnknownLead : List Char → Bool
  | c :: _ => c == '$' || c == '~' || c == '@' || c == '#'
  | [] => false

/-- Whether a path is written from the place where it stands. -/
def isExplicit (raw : List Char) : Bool :=
  ['.', '/'].isPrefixOf raw || ['.', '.', '/'].isPrefixOf raw

/-- An absolute path, seen from the root of the repository. -/
def fromRoot (root p : Path) : Path := (p.below? root).getD p.afterFirst

/-- The scripts that a path names in a file of the folder `base`. -/
def Index.ofPath (i : Index) (kind : Kind) (base root : Path) (raw : List Char) : List Path :=
  let raw := clean raw
  if raw = [] then []
  else if hasUnknownLead raw then
    match raw.dropWhile (· ≠ '/') with
    | [] => []
    | _ :: rest =>
      let tail := concreteTail (Path.ofChars rest)
      if isSpecific tail then i.endingIn tail else []
  else
    let p := Path.ofChars raw
    if p.isAbsolute then i.candidate (fromRoot root p)
    else
      i.candidate (base.join p) ++
        if kind.isShell || !isExplicit raw then i.candidate p else []

/-! ### Paths with holes -/

/-- The character that stands for a hole. -/
def hole : Char := '\x00'

/-- A text with each `${…}` replaced by a hole. A hole that does not close
reaches to the end. The fuel bounds the number of holes. -/
def fillHoles : Nat → List Char → List Char
  | 0, cs => cs
  | fuel + 1, cs =>
    match Text.cutFirst? ['$', '\x7b'] cs with
    | none => cs
    | some (before, rest) =>
      match rest.dropWhile (· ≠ '\x7d') with
      | [] => before ++ [hole]
      | _ :: rest => before ++ hole :: fillHoles fuel rest

/-- The pattern of a path with holes: a hole is any run of a name. -/
def holePattern (p : Path) : String :=
  String.ofList (Text.glue '*' ((Text.cutEach hole p.chars).map Glob.escape))

/-- The scripts that a path with holes can name in a file of the folder `base`. -/
def Index.ofComputed (i : Index) (base : Path) (raw : List Char) : List Path :=
  let template := fillHoles raw.length (clean raw)
  let p := Path.ofChars template
  match (if isExplicit template then base.join p else p).normalize? with
  | none => []
  | some q =>
    match Glob.Pattern.read (holePattern q) with
    | .error _ => []
    | .ok pattern =>
      i.paths.filter fun a =>
        pattern.acceptsParts a.chars ||
          (q.extension?.isNone && pattern.acceptsParts (a.withExtension "").chars)

/-! ### Python modules -/

/-- The path of a dotted module. -/
def modulePath (name : List Char) : Path :=
  ((Text.cutEach '.' name).filter (· ≠ [])).foldl (fun p s => p.join (Path.ofChars s)) ⟨""⟩

/-- The path after going up `n` times, if it goes so far. -/
def climbTimes : Nat → Path → Option Path
  | 0, p => some p
  | n + 1, p => p.parent?.bind (climbTimes n)

/-- A module as a file and as a package. -/
def Index.moduleAt (i : Index) (target : Path) : List Path :=
  i.exactly (target.withExtension "py") ++ i.exactly (target.join ⟨"__init__.py"⟩)

/-- The scripts that a module names in a file of the folder `base`. -/
def Index.ofModule (i : Index) (base : Path) (name : List Char) (level : Nat) : List Path :=
  let path := modulePath name
  if 0 < level then
    match climbTimes (level - 1) base with
    | some dir => i.moduleAt (dir.join path)
    | none => []
  else if path.isEmpty then []
  else
    i.moduleAt path ++ i.moduleAt (base.join path) ++
      if 2 ≤ path.components.length then
        i.endingIn (path.withExtension "py") ++ i.endingIn (path.join ⟨"__init__.py"⟩)
      else []

/-- The archived scripts that a specifier found in a file names, sorted. -/
def Index.resolve (i : Index) (s : Specifier) (kind : Kind) (file root : Path) : List Path :=
  if i.isEmpty then []
  else
    let base := file.parent
    Order.sortDistinct Path.before <| match s with
      | .path raw => i.ofPath kind base root raw.toList
      | .computed raw => i.ofComputed base raw.toList
      | .module name level => i.ofModule base name.toList level

end Reference
end Attic
