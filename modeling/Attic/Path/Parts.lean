import Attic.Path.Basic

/-!
# The parts of a path

The last name of a path with its stem and extension, the path that contains
it, what is left of it below another path, and joining. Each of them keeps the
spelling of the text it is taken from.

Key definitions: `Path.fileName?`, `Path.stem?`, `Path.extension?`,
`Path.withExtension`, `Path.parent?`, `Path.join`, `Path.startsWith`,
`Path.endsWith`, `Path.below?`.
-/

namespace Attic
namespace Path

/-- The text of a start and pieces after it. -/
def build : Lead → List (List Char) → Path
  | .root, ps => ofChars ('/' :: Text.glue '/' ps)
  | .here, [] => ofChars ['.']
  | .here, ps => ofChars ('.' :: '/' :: Text.glue '/' ps)
  | .bare, ps => ofChars (Text.glue '/' ps)

/-- The pieces without the idle ones at the end. -/
def dropIdleEnd (ps : List (List Char)) : List (List Char) :=
  (ps.reverse.dropWhile isIdle).reverse

/-- The pieces before the last one that says something, and that piece. -/
def splitLast? (p : Path) : Option (List (List Char) × List Char) :=
  match p.body.reverse.dropWhile isIdle with
  | [] => none
  | last :: before => some (before.reverse, last)

/-- The last name of the path, if it ends with a name. -/
def fileChars? (p : Path) : Option (List Char) :=
  match p.splitLast? with
  | some (_, last) => if last = ['.', '.'] then none else some last
  | none => none

def fileName? (p : Path) : Option String := p.fileChars?.map String.ofList

/-- A name before and after its last dot. A dot that starts the name does not
count. -/
def splitDot (name : List Char) : List Char × Option (List Char) :=
  let after := (name.reverse.takeWhile (· ≠ '.')).reverse
  match name.reverse.dropWhile (· ≠ '.') with
  | [] => (name, none)
  | [_] => (name, none)
  | _ :: before => (before.reverse, some after)

/-- The last name without its extension. -/
def stem? (p : Path) : Option String :=
  p.fileChars?.map fun name => String.ofList (splitDot name).1

/-- What follows the last dot of the last name. -/
def extension? (p : Path) : Option String :=
  p.fileChars?.bind fun name => (splitDot name).2.map String.ofList

/-- The path with another extension, or with none when it is empty. A path that
ends with no name stays as it is. An extension right after two dots goes and
leaves the dots, which are no name and take no other extension; only slashes at
the end make a name of them. -/
def withExtension (p : Path) (ext : String) : Path :=
  match p.splitLast? with
  | none => p
  | some (before, last) =>
    if last = ['.', '.'] then p
    else
      let stem := (splitDot last).1
      if stem = ['.'] && p.body.getLast? = some last then
        build p.lead (before ++ [['.', '.']])
      else build p.lead (before ++ [if ext.isEmpty then stem else stem ++ '.' :: ext.toList])

/-- The path without its last component, if it has one that can go. -/
def parent? (p : Path) : Option Path :=
  match p.splitLast? with
  | some (before, _) => some (build p.lead (dropIdleEnd before))
  | none => if p.lead = .here then some ⟨""⟩ else none

/-- The path that contains `p`, or the empty path. -/
def parent (p : Path) : Path := p.parent?.getD ⟨""⟩

/-- `q` seen from `p`: `q` itself when it is absolute. -/
def join (p q : Path) : Path :=
  if q.isAbsolute || p.isEmpty then q
  else if p.chars.getLast? = some '/' then ⟨p.text ++ q.text⟩
  else ⟨p.text ++ "/" ++ q.text⟩

/-- Whether `p` starts with the components of `q`. -/
def startsWith (p q : Path) : Bool := q.components.isPrefixOf p.components

/-- Whether `p` ends with the components of `q`. -/
def endsWith (p q : Path) : Bool := q.components.reverse.isPrefixOf p.components.reverse

/-- The pieces after the first `n` that say something. -/
def dropTelling : Nat → List (List Char) → List (List Char)
  | 0, ps => ps
  | _ + 1, [] => []
  | n + 1, p :: ps => if isIdle p then dropTelling (n + 1) ps else dropTelling n ps

/-- What is left of `p` below `q`, spelled as in `p`. -/
def below? (p q : Path) : Option Path :=
  if p.startsWith q then
    if q.components.isEmpty then some (build p.lead (dropIdleEnd p.body))
    else
      let n := q.components.length - (leadComponents p.lead).length
      some (build .bare (dropIdleEnd ((dropTelling n p.body).dropWhile isIdle)))
  else none

/-- The components after the first, written as a path. -/
def afterFirst (p : Path) : Path :=
  (p.components.drop 1).foldl (fun q c => q.join ⟨c.text⟩) ⟨""⟩

end Path
end Attic
