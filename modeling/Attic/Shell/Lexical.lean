import Attic.Text.Lines

/-!
# The characters of a shell script

Blanks, comments and line continuations between words, the quotes that nothing
stands in, the marks between commands, the reserved words, and the bodies of
here-documents, which follow the line that announces them.

Key definitions: `Shell.isMeta`, `Shell.skipBlanks`, `Shell.singleQuoted?`,
`Shell.escapeQuoted?`, `Shell.Mark`, `Shell.mark`, `Shell.reservedWords`,
`Shell.HereDocument`, `Shell.dropDocuments`.
-/

namespace Attic
namespace Shell

/-- The characters that end a word. -/
def isMeta (c : Char) : Bool :=
  c == ' ' || c == '\t' || c == '\n' || c == '|' || c == '&' || c == ';' || c == '(' || c == ')' ||
    c == '<' || c == '>'

def isNameStart (c : Char) : Bool := c.isAlpha || c == '_'

def isNameChar (c : Char) : Bool := c.isAlphanum || c == '_'

/-- Whether a text is a name that a variable can have. -/
def isName : List Char → Bool
  | [] => false
  | c :: cs => isNameStart c && cs.all isNameChar

/-- The rest after spaces, tabs and continued lines. -/
def skipSpaces : List Char → List Char
  | ' ' :: cs => skipSpaces cs
  | '\t' :: cs => skipSpaces cs
  | '\\' :: '\n' :: cs => skipSpaces cs
  | cs => cs

/-- The rest after what stands between words: spaces, and a comment, which goes
to the end of its line. -/
def skipBlanks (cs : List Char) : List Char :=
  match skipSpaces cs with
  | '#' :: r => r.dropWhile (· ≠ '\n')
  | r => r

/-! ### Quotes -/

/-- The text up to a single quote and the rest after it. -/
def singleQuoted? : List Char → Option (List Char × List Char)
  | [] => none
  | '\x27' :: cs => some ([], cs)
  | c :: cs => (singleQuoted? cs).map fun (text, rest) => (c :: text, rest)

/-- The rest after a closing character that no backslash stands before. -/
def escapeQuoted? (close : Char) : List Char → Option (List Char)
  | [] => none
  | '\\' :: _ :: cs => escapeQuoted? close cs
  | c :: cs => if c = close then some cs else escapeQuoted? close cs

/-! ### Marks -/

/-- What stands between commands. -/
inductive Mark where
  /-- The script is over. -/
  | finish
  | newline
  | semicolon
  | background
  /-- `&&` or `||`. -/
  | junction
  | pipe
  /-- The end of a clause of `case`. -/
  | clause
  | opening
  | closing
  /-- A word or a redirection. -/
  | none
  deriving DecidableEq

/-- The mark that a text starts with and the rest after it. -/
def markOf : List Char → Mark × List Char
  | [] => (.finish, [])
  | '\n' :: r => (.newline, r)
  | ';' :: ';' :: '&' :: r => (.clause, r)
  | ';' :: ';' :: r => (.clause, r)
  | ';' :: '&' :: r => (.clause, r)
  | ';' :: r => (.semicolon, r)
  | '&' :: '&' :: r => (.junction, r)
  | '&' :: '>' :: r => (.none, '&' :: '>' :: r)
  | '&' :: r => (.background, r)
  | '|' :: '|' :: r => (.junction, r)
  | '|' :: '&' :: r => (.pipe, r)
  | '|' :: r => (.pipe, r)
  | '(' :: r => (.opening, r)
  | ')' :: r => (.closing, r)
  | r => (.none, r)

/-- The next mark, after blanks. -/
def mark (cs : List Char) : Mark × List Char := markOf (skipBlanks cs)

/-! ### Reserved words -/

def reservedWords : List String :=
  ["if", "then", "else", "elif", "fi", "case", "esac", "for", "select", "while", "until", "do",
    "done", "in", "function", "time", "\x7b", "\x7d", "!", "[[", "]]", "coproc"]

/-- The reserved words that start a compound command. -/
def openers : List String :=
  ["if", "case", "for", "select", "while", "until", "\x7b", "[["]

/-- The reserved words that end a list of commands. -/
def closers : List String := ["then", "else", "elif", "fi", "esac", "do", "done", "\x7d"]

/-- The characters up to the end of a word, and the rest. -/
def bareSpan : List Char → List Char × List Char
  | [] => ([], [])
  | '\\' :: '\n' :: cs => bareSpan cs
  | c :: cs =>
    if isMeta c then ([], c :: cs)
    else
      let (word, rest) := bareSpan cs
      (c :: word, rest)

/-- The next word as it is spelled, and the rest after it. -/
def bareWord (cs : List Char) : String × List Char :=
  let (word, rest) := bareSpan (skipBlanks cs)
  (String.ofList word, rest)

/-! ### Here-documents -/

/-- A here-document whose body is still to come. -/
structure HereDocument where
  /-- Whether tabs before a line do not count. -/
  stripsTabs : Bool
  /-- The line that ends the body. -/
  delimiter : List Char

/-- What is left of a line that ends a here-document. Where a parenthesis closes
the script, it can stand in that line too. -/
def HereDocument.afterEnd? (d : HereDocument) (enclosed : Bool) (line : List Char) :
    Option (List Char) :=
  let line := if d.stripsTabs then line.dropWhile (· = '\t') else line
  if line = d.delimiter then some []
  else if enclosed && d.delimiter.isPrefixOf line &&
      (line.drop d.delimiter.length).contains ')' then
    some (line.drop d.delimiter.length)
  else none

/-- The lines after the body of a here-document. A body that does not end takes
all of them. -/
def HereDocument.dropBody (d : HereDocument) (enclosed : Bool) :
    List (List Char) → List (List Char)
  | [] => []
  | line :: lines =>
    match d.afterEnd? enclosed line with
    | some [] => lines
    | some rest => rest :: lines
    | none => d.dropBody enclosed lines

/-- The rest of a script after the bodies of here-documents. -/
def dropDocuments (documents : List HereDocument) (enclosed : Bool) (cs : List Char) :
    List Char :=
  if documents.isEmpty then cs
  else
    Text.glue '\n'
      (documents.foldl (fun lines d => d.dropBody enclosed lines) (Text.cutEach '\n' cs))

end Shell
end Attic
