import Attic.Text.Lines

/-!
# Paths as they are written

A path keeps the text it was written with: `a//b/` and `a/b` are two texts of
one path. What a path says is its list of components: a leading `/`, a leading
`.`, then the pieces between slashes, where empty pieces and later `.` pieces
say nothing. Two paths are the same when their components agree, and paths
sort by their components, one by one.

Key definitions: `Path`, `Path.Lead`, `Path.lead`, `Path.body`,
`Path.Component`, `Path.components`, `Path.same`, `Path.before`,
`Path.ofNames`.
Key theorems: `Path.same_iff`, `Path.same_trans`.
-/

namespace Attic

/-- A path, as it was written. -/
structure Path where
  text : String
  deriving DecidableEq, Inhabited

namespace Path

/-- How a path starts. -/
inductive Lead where
  /-- At the root: `/…`. -/
  | root
  /-- At the current place, said with a dot: `.` or `./…`. -/
  | here
  /-- With a piece. -/
  | bare
  deriving DecidableEq

/-- One component of a path. -/
inductive Component where
  | root
  | here
  | up
  | name (piece : String)
  deriving DecidableEq

/-- The start of a path and the pieces after it. -/
def cut (cs : List Char) : Lead × List (List Char) :=
  match Text.cutEach '/' cs with
  | [] :: q :: ps => (.root, q :: ps)
  | ['.'] :: ps => (.here, ps)
  | ps => (.bare, ps)

def chars (p : Path) : List Char := p.text.toList

def ofChars (cs : List Char) : Path := ⟨String.ofList cs⟩

def lead (p : Path) : Lead := (cut p.chars).1

/-- The pieces after the start. -/
def body (p : Path) : List (List Char) := (cut p.chars).2

/-- A piece that says nothing: an empty one or a dot. -/
def isIdle (piece : List Char) : Bool := piece == [] || piece == ['.']

/-- What a piece after the start says. -/
def pieceComponent? (piece : List Char) : Option Component :=
  if isIdle piece then none
  else if piece = ['.', '.'] then some .up
  else some (.name (String.ofList piece))

def leadComponents : Lead → List Component
  | .root => [.root]
  | .here => [.here]
  | .bare => []

/-- What the path says, one component after the other. -/
def components (p : Path) : List Component :=
  leadComponents p.lead ++ p.body.filterMap pieceComponent?

/-- Two texts of one path. -/
def same (p q : Path) : Bool := p.components == q.components

/-- Whether the path starts at the root. -/
def isAbsolute (p : Path) : Bool := p.chars.head? == some '/'

/-- Whether nothing is written. -/
def isEmpty (p : Path) : Bool := p.text.isEmpty

/-- The text that a component sorts by: the root first, then a leading dot, then
`..`, then the names in the order of their characters. -/
def Component.key : Component → String
  | .root => "0"
  | .here => "1"
  | .up => "2"
  | .name s => "3" ++ s

/-- What a path sorts by. -/
def key (p : Path) : List String := p.components.map Component.key

/-- Whether one path sorts before another: component by component, a path
before those that go on from it. -/
def before (p q : Path) : Bool := decide (p.key < q.key)

/-- The written form of a component. -/
def Component.text : Component → String
  | .root => "/"
  | .here => "."
  | .up => ".."
  | .name s => s

/-- The relative path of some names. -/
def ofNames (names : List String) : Path :=
  ofChars (Text.glue '/' (names.map String.toList))

theorem same_iff {p q : Path} : p.same q = true ↔ p.components = q.components := by
  simp [same]

theorem same_refl (p : Path) : p.same p = true := same_iff.2 rfl

theorem same_symm {p q : Path} (h : p.same q = true) : q.same p = true :=
  same_iff.2 (same_iff.1 h).symm

theorem same_trans {p q r : Path} (h : p.same q = true) (h' : q.same r = true) :
    p.same r = true :=
  same_iff.2 ((same_iff.1 h).trans (same_iff.1 h'))

end Path
end Attic
