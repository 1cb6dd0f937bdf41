import Attic.Shell.Lexical

/-!
# Points of a shell script

A point is a place in a script with what reading on depends on: the
here-documents that the line has announced, whether a reserved word can stand
there, and whether a closing parenthesis ends the script.

Key definitions: `Shell.Point`, `Shell.Point.nextLine`, `Shell.Point.skipLines`,
`Shell.Point.reserved?`, `Shell.Point.atListEnd`, `Shell.Point.atCompound`.
-/

namespace Attic
namespace Shell

/-- Where reading stands. -/
structure Point where
  rest : List Char
  /-- The here-documents that this line has announced. -/
  documents : List HereDocument
  /-- Whether a reserved word can stand here. -/
  ready : Bool
  /-- Whether a closing parenthesis ends the script. -/
  enclosed : Bool

namespace Point

/-- Goes on after a word, where no reserved word can stand. -/
def after (p : Point) (rest : List Char) : Point := { p with rest := rest, ready := false }

/-- Goes on where a command can start. -/
def start (p : Point) (rest : List Char) : Point := { p with rest := rest, ready := true }

/-- Goes on in the next line, after the here-documents of this one. -/
def nextLine (p : Point) (rest : List Char) : Point :=
  ⟨dropDocuments p.documents p.enclosed rest, [], true, p.enclosed⟩

/-- Skips empty lines. The fuel bounds how many. -/
def skipLines : Nat → Point → Point
  | 0, p => p
  | fuel + 1, p =>
    match skipBlanks p.rest with
    | '\n' :: r => skipLines fuel (p.nextLine r)
    | r => { p with rest := r }

/-- The reserved word that stands here. -/
def reserved? (p : Point) : Option (String × Point) :=
  let (word, rest) := bareWord p.rest
  if p.ready && reservedWords.contains word then some (word, p.start rest) else none

/-- Reads one reserved word. -/
def expect (word : String) (p : Point) : Option Point :=
  match p.reserved? with
  | some (found, p) => if found = word then some p else none
  | none => none

/-- Reads a closing parenthesis. -/
def expectClosing (p : Point) : Option Point :=
  match mark p.rest with
  | (.closing, r) => some (p.start r)
  | _ => none

/-- Whether a list of commands is over. -/
def atListEnd (p : Point) : Bool :=
  match mark p.rest with
  | (.finish, _) => true
  | (.closing, _) => true
  | (.clause, _) => true
  | _ =>
    match p.reserved? with
    | some (word, _) => closers.contains word
    | none => false

/-- Whether a compound command starts here. -/
def atCompound (p : Point) : Bool :=
  match mark p.rest with
  | (.opening, _) => true
  | _ =>
    match p.reserved? with
    | some (word, _) => openers.contains word
    | none => false

end Point

end Shell
end Attic
