import Attic.Shell.Lexical

/-!
# Words of a shell script

What a word may contain depends on where it stands: an assignment can have an
index and a list of values, a pattern can have groups. Redirections are told
from words by their operators, tests by their names.

Key definitions: `Shell.WordKind`, `Shell.Word`, `Shell.Word.isAssignment`,
`Shell.startsWord`, `Shell.Place`, `Shell.redirect?`, `Shell.unaryTests`,
`Shell.binaryTests`.
-/

namespace Attic
namespace Shell

/-- What a word may contain besides its characters. -/
inductive WordKind where
  | plain
  /-- A list of values after `name=`. -/
  | assignment
  /-- The index of a value at its start. -/
  | value
  /-- Parentheses, as in a pattern. -/
  | pattern
  /-- Parentheses and bars, as in a regular expression. -/
  | regex
  deriving DecidableEq

/-- What was read of a word, last character first, and whether all of it stands
for itself. -/
structure Word where
  reversed : List Char
  isBare : Bool

def Word.empty : Word := ⟨[], true⟩

def Word.text (w : Word) : List Char := w.reversed.reverse

def Word.push (w : Word) (c : Char) : Word := { w with reversed := c :: w.reversed }

/-- Adds characters that were quoted or are expanded. -/
def Word.pushQuoted (w : Word) (cs : List Char) : Word := ⟨cs.reverse ++ w.reversed, false⟩

/-- The characters between a text and what is left of it. -/
def between (cs rest : List Char) : List Char := cs.take (cs.length - rest.length)

/-- What follows the name and index of a variable that a word starts with. -/
def Word.afterVariable? (w : Word) : Option (List Char) :=
  let text := w.text
  if isName (text.takeWhile isNameChar) then
    match text.dropWhile isNameChar with
    | '[' :: r => some ((r.reverse.takeWhile (· ≠ ']')).reverse)
    | r => some r
  else none

/-- Whether a word is an assignment: `name=…`, `name+=…` or `name[…]=…`. -/
def Word.isAssignment (w : Word) : Bool :=
  match w.afterVariable? with
  | some ('=' :: _) => true
  | some ('+' :: '=' :: _) => true
  | _ => false

/-- Whether a list of values can follow. -/
def Word.takesValues (w : Word) : Bool :=
  w.afterVariable? == some ['='] || w.afterVariable? == some ['+', '=']

/-- Whether an index can follow: after a name, or at the start of a value. -/
def Word.takesIndex (w : Word) : WordKind → Bool
  | .assignment => w.isBare && isName w.text
  | .value => w.reversed.isEmpty
  | _ => false

/-- Whether a group can follow: in a pattern, after the mark that says how often
it occurs. -/
def Word.takesGroup (w : Word) : WordKind → Bool
  | .regex => true
  | .pattern => w.reversed.head?.any fun c => "?*+@!".toList.contains c
  | _ => false

/-- Whether a word can start here. -/
def startsWord (cs : List Char) : Bool :=
  match cs with
  | '<' :: '(' :: _ => true
  | '>' :: '(' :: _ => true
  | c :: _ => !isMeta c
  | [] => false

/-- The commands whose words can be assignments. -/
def declarers : List String :=
  ["alias", "declare", "export", "let", "local", "readonly", "typeset"]

/-- Where a word of a simple command stands. -/
inductive Place where
  /-- At the start of the command. -/
  | first
  /-- After assignments and redirections only. -/
  | leading
  | argument
  /-- After a command whose words can be assignments. -/
  | declaration
  deriving DecidableEq

/-- The kind of a word at a place. -/
def Place.kind : Place → WordKind
  | .argument => .plain
  | _ => .assignment

/-- The place after a redirection. -/
def Place.afterRedirect : Place → Place
  | .first => .leading
  | place => place

/-- The place after a word. -/
def Place.afterWord (w : Word) : Place → Place
  | .argument => .argument
  | .declaration => .declaration
  | _ =>
    if w.isAssignment then .leading
    else if w.isBare && declarers.contains (String.ofList w.text) then .declaration
    else .argument

/-- A redirection's operator: the rest after it, and whether it announces a
here-document and strips tabs. -/
def redirectOperator? : List Char → Option (List Char × Option Bool)
  | '<' :: '<' :: '<' :: r => some (r, none)
  | '<' :: '<' :: '-' :: r => some (r, some true)
  | '<' :: '<' :: r => some (r, some false)
  | '<' :: '&' :: r => some (r, none)
  | '<' :: '>' :: r => some (r, none)
  | '<' :: '(' :: _ => none
  | '<' :: r => some (r, none)
  | '>' :: '>' :: r => some (r, none)
  | '>' :: '|' :: r => some (r, none)
  | '>' :: '&' :: r => some (r, none)
  | '>' :: '(' :: _ => none
  | '>' :: r => some (r, none)
  | '&' :: '>' :: '>' :: r => some (r, none)
  | '&' :: '>' :: r => some (r, none)
  | _ => none

/-- A redirection up to its word. A number or a name in braces can stand right
before the operator. -/
def redirect? (cs : List Char) : Option (List Char × Option Bool) :=
  match cs with
  | '&' :: _ => redirectOperator? cs
  | '\x7b' :: r =>
    match r.dropWhile isNameChar with
    | '\x7d' :: r' =>
      if isName (r.takeWhile isNameChar) then redirectOperator? r' else none
    | _ => none
  | _ =>
    match cs.dropWhile Char.isDigit with
    | '&' :: _ => none
    | r => redirectOperator? r

/-- Whether a regular expression starts with a group or an empty choice. -/
def startsGroup : List Char → Bool
  | '(' :: _ => true
  | '|' :: _ => true
  | _ => false

/-- The tests that take one operand. -/
def unaryTests : List String :=
  ["-a", "-b", "-c", "-d", "-e", "-f", "-g", "-h", "-k", "-n", "-o", "-p", "-r", "-s", "-t", "-u",
    "-v", "-w", "-x", "-z", "-G", "-L", "-N", "-O", "-R", "-S"]

/-- The tests that stand between two operands. -/
def binaryTests : List String :=
  ["=", "==", "!=", "=~", "-nt", "-ot", "-ef", "-eq", "-ne", "-lt", "-le", "-gt", "-ge"]

/-- The kind of a test's right operand. -/
def operandKind (test : String) : WordKind :=
  if test = "=~" then .regex
  else if test = "=" || test = "==" || test = "!=" then .pattern
  else .plain

end Shell
end Attic
