import Attic.Text.Blank
import Attic.Text.Word

/-!
# Recognizing forms in a line

A recognizer looks at what a line has from some place on and gives what is
left after the form that it knows. `occurrences` finds all occurrences of a
form: at the first place where the form stands, then from its end on.

Key definitions: `Reference.Form`, `Reference.occurrences`,
`Reference.literal?`, `Reference.blanks?`, `Reference.run?`,
`Reference.between?`, `Reference.startsWord`.
-/

namespace Attic
namespace Reference

/-- A form at a place of a line: from the characters before the place, last one
first, and those from it on, what the form captures and what is left. -/
abbrev Form (α : Type) := List Char → List Char → Option (α × List Char)

/-- The occurrences of a form from a place on, none overlapping another. The
first `skip` characters belong to an occurrence already found. -/
def occurrencesFrom {α : Type} (form : Form α) : List Char → Nat → List Char → List α
  | _, _, [] => []
  | before, skip + 1, c :: cs => occurrencesFrom form (c :: before) skip cs
  | before, 0, c :: cs =>
    match form before (c :: cs) with
    | some (a, rest) => a :: occurrencesFrom form (c :: before) (cs.length - rest.length) cs
    | none => occurrencesFrom form (c :: before) 0 cs

/-- All occurrences of a form in a line. -/
def occurrences {α : Type} (form : Form α) (line : List Char) : List α :=
  occurrencesFrom form [] 0 line

/-- The rest after a given text. -/
def literal? (word : String) (cs : List Char) : Option (List Char) :=
  if word.toList.isPrefixOf cs then some (cs.drop word.length) else none

/-- The rest after any blanks. -/
def skipBlanks (cs : List Char) : List Char := Text.trimStart cs

/-- The rest after at least one blank. -/
def blanks? : List Char → Option (List Char)
  | [] => none
  | c :: cs => if Text.isBlank c then some (skipBlanks cs) else none

/-- The longest run of characters of a class, at least one, and the rest. -/
def run? (p : Char → Bool) (cs : List Char) : Option (List Char × List Char) :=
  match cs.takeWhile p with
  | [] => none
  | r => some (r, cs.dropWhile p)

/-- A run between an opening and a closing character. -/
def between? (opens inside closes : Char → Bool) : List Char → Option (List Char × List Char)
  | [] => none
  | o :: cs =>
    if opens o then
      match run? inside cs with
      | some (r, c :: rest) => if closes c then some (r, rest) else none
      | _ => none
    else none

/-- Whether a word may start after these characters. -/
def startsWord : List Char → Bool
  | [] => true
  | c :: _ => !Text.isWordChar c

/-- The first answer to any of the alternatives, in their order. -/
def firstOf? {α β : Type} (f : α → Option β) : List α → Option β
  | [] => none
  | a :: l => (f a).or (firstOf? f l)

def isDoubleQuote (c : Char) : Bool := c == '\x22'

/-- A quote of either kind. -/
def isQuote (c : Char) : Bool := c == '\x22' || c == '\x27'

/-- A quote of either kind or a backquote. -/
def isAnyQuote (c : Char) : Bool := isQuote c || c == '\x60'

end Reference
end Attic
