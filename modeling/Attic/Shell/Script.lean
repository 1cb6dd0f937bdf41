import Attic.Shell.Point
import Attic.Shell.Word
import Attic.Text.Bytes

/-!
# Whether a shell script parses

A script is read as the shell reads it before it runs anything: words with
quotes and expansions, redirections and here-documents, lists and pipelines,
compound commands and functions. Expansions of commands are read as scripts of
their own; arithmetic and patterns only have to be closed. What words mean is
not looked at.

Each reader takes the rest of a script and gives what is left after the piece
it reads, or nothing where that piece is not there. Readers call each other,
so they share a fuel that bounds how deep they go; a few steps for each
character are enough.

Key definitions: `Shell.readWord`, `Shell.readCommand`, `Shell.readList`,
`Shell.parses`, `Shell.isBinary`, `Shell.parsesBytes`.
-/

namespace Attic
namespace Shell

mutual

/-- Reads on in a word, up to the character that ends it. -/
def readWord : Nat → WordKind → Word → List Char → Option (Word × List Char)
  | 0, _, _, _ => none
  | fuel + 1, kind, w, cs =>
    let quoted (start : List Char) (rest : Option (List Char)) : Option (Word × List Char) :=
      match rest with
      | some r => readWord fuel kind (w.pushQuoted (between start r)) r
      | none => none
    match cs with
    | [] => some (w, [])
    | '\\' :: '\n' :: r => readWord fuel kind w r
    | '\\' :: c :: r => readWord fuel kind (w.pushQuoted [c]) r
    | '\x27' :: r =>
      match singleQuoted? r with
      | some (text, rest) => readWord fuel kind (w.pushQuoted text) rest
      | none => none
    | '\x22' :: r =>
      match readDouble fuel r with
      | some rest => readWord fuel kind (w.pushQuoted (between r rest).dropLast) rest
      | none => none
    | '\x60' :: r => quoted cs (escapeQuoted? '\x60' r)
    | '$' :: '$' :: r => readWord fuel kind (w.pushQuoted ['$', '$']) r
    | '$' :: '\x27' :: r => quoted cs (escapeQuoted? '\x27' r)
    | '$' :: '\x22' :: r => quoted cs (readDouble fuel r)
    | '$' :: '(' :: r => quoted cs (readSubstitution fuel r)
    | '$' :: '\x7b' :: r => quoted cs (readBraced fuel r)
    | '$' :: '[' :: r => quoted cs (readMatched fuel '[' ']' r)
    | '<' :: '(' :: r => if kind = .regex then some (w, cs) else quoted cs (readProcess fuel r)
    | '>' :: '(' :: r => if kind = .regex then some (w, cs) else quoted cs (readProcess fuel r)
    | '(' :: r =>
      if w.takesGroup kind then quoted cs (readMatched fuel '(' ')' r)
      else if kind = .assignment && w.takesValues then quoted cs (readValues fuel r)
      else some (w, cs)
    | '[' :: r =>
      if w.takesIndex kind then
        match readMatched fuel '[' ']' r with
        | some rest =>
          readWord fuel kind ⟨(between cs rest).reverse ++ w.reversed, true⟩ rest
        | none => none
      else readWord fuel kind (w.push '[') r
    | c :: r =>
      if isMeta c && !(kind = .regex && c = '|') then some (w, cs)
      else readWord fuel kind (w.push c) r

/-- Reads up to the end of a text in double quotes. -/
def readDouble : Nat → List Char → Option (List Char)
  | 0, _ => none
  | fuel + 1, cs =>
    match cs with
    | [] => none
    | '\x22' :: r => some r
    | '\\' :: _ :: r => readDouble fuel r
    | '\x60' :: r => (escapeQuoted? '\x60' r).bind (readDouble fuel)
    | '$' :: '$' :: r => readDouble fuel r
    | '$' :: '(' :: r => (readSubstitution fuel r).bind (readDouble fuel)
    | '$' :: '\x7b' :: r => (readBraced fuel r).bind (readDouble fuel)
    | _ :: r => readDouble fuel r

/-- Reads up to the brace that ends an expansion. -/
def readBraced : Nat → List Char → Option (List Char)
  | 0, _ => none
  | fuel + 1, cs =>
    match cs with
    | [] => none
    | '\x7d' :: r => some r
    | '\\' :: _ :: r => readBraced fuel r
    | '\x22' :: r => (readDouble fuel r).bind (readBraced fuel)
    | '\x60' :: r => (escapeQuoted? '\x60' r).bind (readBraced fuel)
    | '\x27' :: r => (singleQuoted? r).bind fun (_, rest) => readBraced fuel rest
    | '$' :: '$' :: r => readBraced fuel r
    | '$' :: '(' :: r => (readSubstitution fuel r).bind (readBraced fuel)
    | '$' :: '\x7b' :: r => (readBraced fuel r).bind (readBraced fuel)
    | _ :: r => readBraced fuel r

/-- Reads up to the closing character that matches an opening one. -/
def readMatched : Nat → Char → Char → List Char → Option (List Char)
  | 0, _, _, _ => none
  | fuel + 1, opening, closing, cs =>
    let again := readMatched fuel opening closing
    match cs with
    | [] => none
    | '\\' :: _ :: r => again r
    | '\x22' :: r => (readDouble fuel r).bind again
    | '\x60' :: r => (escapeQuoted? '\x60' r).bind again
    | '\x27' :: r => (singleQuoted? r).bind fun (_, rest) => again rest
    | '$' :: '$' :: r => again r
    | '$' :: '(' :: r => (readSubstitution fuel r).bind again
    | '$' :: '\x7b' :: r => (readBraced fuel r).bind again
    | c :: r =>
      if c = closing then some r
      else if c = opening then (again r).bind again
      else again r

/-- Reads what is expanded to the output of commands, or arithmetic, up to its
closing parenthesis. -/
def readSubstitution : Nat → List Char → Option (List Char)
  | 0, _ => none
  | fuel + 1, cs =>
    match cs with
    | '(' :: _ => readMatched fuel '(' ')' cs
    | _ => readProcess fuel cs

/-- Reads commands, if there are any, up to a closing parenthesis. -/
def readProcess : Nat → List Char → Option (List Char)
  | 0, _ => none
  | fuel + 1, cs =>
    let p := Point.skipLines fuel ⟨cs, [], true, true⟩
    match mark p.rest with
    | (.closing, r) => some r
    | _ => (readList fuel p).bind fun p => p.expectClosing.map Point.rest

/-- Reads a list of values up to its closing parenthesis. -/
def readValues : Nat → List Char → Option (List Char)
  | 0, _ => none
  | fuel + 1, cs =>
    let rest := (Point.skipLines fuel ⟨cs, [], false, true⟩).rest
    match rest with
    | ')' :: r => some r
    | _ =>
      if startsWord rest then
        (readWord fuel .value .empty rest).bind fun (_, r) => readValues fuel r
      else none

/-- Reads a redirection after its operator. -/
def readTarget : Nat → Point → List Char × Option Bool → Option Point
  | 0, _, _ => none
  | fuel + 1, p, (rest, document) =>
    let rest := skipBlanks rest
    if startsWord rest then
      (readWord fuel .plain .empty rest).map fun (w, r) =>
        match document with
        | some strips => { p.after r with documents := p.documents ++ [⟨strips, w.text⟩] }
        | none => p.after r
    else none

/-- Reads the redirections after a compound command. -/
def readRedirects : Nat → Point → Option Point
  | 0, _ => none
  | fuel + 1, p =>
    match redirect? (skipBlanks p.rest) with
    | some target => (readTarget fuel p target).bind (readRedirects fuel)
    | none => some p

/-- Reads the words and redirections of a simple command from a place in it. A
first word with parentheses after it names a function. -/
def readSimple : Nat → Place → Point → Option Point
  | 0, _, _ => none
  | fuel + 1, place, p =>
    let rest := skipBlanks p.rest
    match redirect? rest with
    | some target => (readTarget fuel p target).bind (readSimple fuel place.afterRedirect)
    | none =>
      if startsWord rest then
        match readWord fuel place.kind .empty rest with
        | none => none
        | some (w, r) =>
          match place, mark r with
          | .first, (.opening, r') =>
            match mark r' with
            | (.closing, r'') => readBody fuel (p.start r'')
            | _ => none
          | _, _ => readSimple fuel (place.afterWord w) (p.after r)
      else if place = .first then none
      else some p

/-- Reads the body of a function. -/
def readBody : Nat → Point → Option Point
  | 0, _ => none
  | fuel + 1, p =>
    let p := p.skipLines fuel
    if p.atCompound then readCompound fuel p else none

/-- Reads a list of commands, which holds one at least. -/
def readList : Nat → Point → Option Point
  | 0, _ => none
  | fuel + 1, p => (readJunction fuel (p.skipLines fuel)).bind (readMore fuel)

/-- Reads on in a list of commands. -/
def readMore : Nat → Point → Option Point
  | 0, _ => none
  | fuel + 1, p =>
    let next (p : Point) : Option Point :=
      let p := p.skipLines fuel
      if p.atListEnd then some p else (readJunction fuel p).bind (readMore fuel)
    match mark p.rest with
    | (.semicolon, r) => next (p.start r)
    | (.background, r) => next (p.start r)
    | (.newline, r) => next (p.nextLine r)
    | _ => some p

/-- Reads pipelines joined by `&&` and `||`. -/
def readJunction : Nat → Point → Option Point
  | 0, _ => none
  | fuel + 1, p =>
    (readPipeline fuel p).bind fun p =>
      match mark p.rest with
      | (.junction, r) => readJunction fuel ((p.start r).skipLines fuel)
      | _ => some p

/-- Reads a pipeline, which can be negated or timed. -/
def readPipeline : Nat → Point → Option Point
  | 0, _ => none
  | fuel + 1, p =>
    let prefixed (p : Point) : Option Point :=
      match mark p.rest with
      | (.finish, _) => some p
      | (.newline, _) => some p
      | (.semicolon, _) => some p
      | _ => readPipeline fuel p
    match p.reserved? with
    | some ("!", p) => prefixed p
    | some ("time", p) =>
      match bareWord p.rest with
      | ("-p", r) => prefixed (p.start r)
      | ("--", r) => prefixed (p.start r)
      | _ => prefixed p
    | _ => readPiped fuel p

/-- Reads commands joined by `|`. -/
def readPiped : Nat → Point → Option Point
  | 0, _ => none
  | fuel + 1, p =>
    (readCommand fuel p).bind fun p =>
      match mark p.rest with
      | (.pipe, r) => readPiped fuel ((p.start r).skipLines fuel)
      | _ => some p

/-- Reads one command. -/
def readCommand : Nat → Point → Option Point
  | 0, _ => none
  | fuel + 1, p =>
    if p.atCompound then readCompound fuel p
    else
      match p.reserved? with
      | some ("function", p) => readFunction fuel p
      | some ("coproc", p) => readCoprocess fuel p
      | some ("time", _) => readSimple fuel .first p
      | some _ => none
      | none => readSimple fuel .first p

/-- Reads a function after its reserved word. -/
def readFunction : Nat → Point → Option Point
  | 0, _ => none
  | fuel + 1, p =>
    let rest := skipBlanks p.rest
    if startsWord rest then
      (readWord fuel .plain .empty rest).bind fun (_, r) =>
        match mark r with
        | (.opening, r') =>
          match mark r' with
          | (.closing, r'') => readBody fuel (p.start r'')
          | _ => readBody fuel (p.start r)
        | _ => readBody fuel (p.start r)
    else none

/-- Reads a coprocess after its reserved word: a compound command, which can
have a name, or a simple one. -/
def readCoprocess : Nat → Point → Option Point
  | 0, _ => none
  | fuel + 1, p =>
    if p.atCompound then readCompound fuel p
    else
      let (_, r) := bareWord p.rest
      if (p.start r).atCompound then readCompound fuel (p.start r)
      else readSimple fuel .first p

/-- Reads a compound command with its redirections. -/
def readCompound : Nat → Point → Option Point
  | 0, _ => none
  | fuel + 1, p =>
    let command : Option Point :=
      match mark p.rest with
      | (.opening, r) => readParentheses fuel (p.start r)
      | _ =>
        match p.reserved? with
        | some ("if", p) => readIf fuel p
        | some ("while", p) => (readList fuel p).bind (readLoopBody fuel)
        | some ("until", p) => (readList fuel p).bind (readLoopBody fuel)
        | some ("for", p) => readFor fuel p
        | some ("select", p) => readNamed fuel p
        | some ("case", p) => readCase fuel p
        | some ("\x7b", p) => (readList fuel p).bind (Point.expect "\x7d")
        | some ("[[", p) => (readTest fuel p).bind (Point.expect "]]")
        | _ => none
    command.bind (readRedirects fuel)

/-- Reads what an opening parenthesis starts: arithmetic between two pairs of
them, or commands. -/
def readParentheses : Nat → Point → Option Point
  | 0, _ => none
  | fuel + 1, p =>
    let arithmetic? : Option (List Char) :=
      match p.rest with
      | '(' :: r =>
        match readMatched fuel '(' ')' r with
        | some (')' :: r') => some r'
        | _ => none
      | _ => none
    match arithmetic? with
    | some r => some (p.start r)
    | none => (readList fuel p).bind Point.expectClosing

/-- Reads a condition and what depends on it. -/
def readIf : Nat → Point → Option Point
  | 0, _ => none
  | fuel + 1, p =>
    (readList fuel p).bind fun p =>
      (p.expect "then").bind fun p =>
        (readList fuel p).bind fun p =>
          match p.reserved? with
          | some ("elif", p) => readIf fuel p
          | some ("else", p) => (readList fuel p).bind (Point.expect "fi")
          | some ("fi", p) => some p
          | _ => none

/-- Reads `do`, commands and `done`. -/
def readLoopBody : Nat → Point → Option Point
  | 0, _ => none
  | fuel + 1, p =>
    (p.expect "do").bind fun p => (readList fuel p).bind (Point.expect "done")

/-- Reads the commands of a loop over values. -/
def readForBody : Nat → Point → Option Point
  | 0, _ => none
  | fuel + 1, p =>
    match p.reserved? with
    | some ("\x7b", p) => (readList fuel p).bind (Point.expect "\x7d")
    | _ => readLoopBody fuel p

/-- Reads a loop: over values, or with three arithmetic expressions. -/
def readFor : Nat → Point → Option Point
  | 0, _ => none
  | fuel + 1, p =>
    match skipBlanks p.rest with
    | '(' :: '(' :: r =>
      match readMatched fuel '(' ')' r with
      | some (')' :: r') =>
        if (between r r').count ';' = 2 then
          let p := match mark r' with
            | (.semicolon, r'') => p.start r''
            | _ => p.start r'
          readForBody fuel (p.skipLines fuel)
        else none
      | _ => none
    | _ => readNamed fuel p

/-- Reads a variable, the values that it takes, and the commands for each. -/
def readNamed : Nat → Point → Option Point
  | 0, _ => none
  | fuel + 1, p =>
    let rest := skipBlanks p.rest
    if startsWord rest then
      (readWord fuel .plain .empty rest).bind fun (_, r) =>
        let p := (p.start r).skipLines fuel
        match p.reserved? with
        | some ("in", p) => (readEach fuel p).bind (readForBody fuel)
        | _ =>
          match mark r with
          | (.semicolon, r') => readForBody fuel ((p.start r').skipLines fuel)
          | _ => readForBody fuel p
    else none

/-- Reads words up to the end of their line or a semicolon. -/
def readEach : Nat → Point → Option Point
  | 0, _ => none
  | fuel + 1, p =>
    match mark p.rest with
    | (.semicolon, r) => some ((p.start r).skipLines fuel)
    | (.newline, r) => some ((p.nextLine r).skipLines fuel)
    | _ =>
      let rest := skipBlanks p.rest
      if startsWord rest then
        (readWord fuel .plain .empty rest).bind fun (_, r) => readEach fuel (p.after r)
      else none

/-- Reads a word and the clauses that it chooses from. -/
def readCase : Nat → Point → Option Point
  | 0, _ => none
  | fuel + 1, p =>
    let rest := skipBlanks p.rest
    if startsWord rest then
      (readWord fuel .plain .empty rest).bind fun (_, r) =>
        (((p.start r).skipLines fuel).expect "in").bind (readClauses fuel)
    else none

/-- Reads clauses up to `esac`. -/
def readClauses : Nat → Point → Option Point
  | 0, _ => none
  | fuel + 1, p =>
    let p := p.skipLines fuel
    match p.expect "esac" with
    | some p => some p
    | none =>
      match mark p.rest with
      | (.opening, r) => readPatterns fuel (p.start r)
      | _ => readPatterns fuel p

/-- Reads the patterns of a clause, and its commands. -/
def readPatterns : Nat → Point → Option Point
  | 0, _ => none
  | fuel + 1, p =>
    let rest := skipBlanks p.rest
    if startsWord rest then
      (readWord fuel .plain .empty rest).bind fun (_, r) =>
        match mark r with
        | (.pipe, r') => readPatterns fuel (p.start r')
        | (.closing, r') => readClause fuel ((p.start r').skipLines fuel)
        | _ => none
    else none

/-- Reads the commands of a clause, if it has any, and the clauses after it. -/
def readClause : Nat → Point → Option Point
  | 0, _ => none
  | fuel + 1, p =>
    let read := if p.atListEnd then some p else readList fuel p
    read.bind fun p =>
      match mark p.rest with
      | (.clause, r) => readClauses fuel (p.start r)
      | _ => p.expect "esac"

/-- Reads tests joined by `&&` and `||`. -/
def readTest : Nat → Point → Option Point
  | 0, _ => none
  | fuel + 1, p =>
    (readTerm fuel (p.skipLines fuel)).bind fun p =>
      let p := (p.start p.rest).skipLines fuel
      match mark p.rest with
      | (.junction, r) => readTest fuel (p.start r)
      | _ => some p

/-- Reads one test: in parentheses, negated, or with one or two operands. -/
def readTerm : Nat → Point → Option Point
  | 0, _ => none
  | fuel + 1, p =>
    match mark p.rest with
    | (.opening, r) => (readTest fuel (p.start r)).bind Point.expectClosing
    | _ =>
      match bareWord p.rest with
      | ("!", r) => readTerm fuel ((p.start r).skipLines fuel)
      | ("]]", _) => none
      | (first, r) =>
        if unaryTests.contains first then readOperand fuel .plain (p.after r)
        else (readOperand fuel .plain p).bind (readComparison fuel)

/-- Reads the operand of a test. -/
def readOperand : Nat → WordKind → Point → Option Point
  | 0, _, _ => none
  | fuel + 1, kind, p =>
    let rest := skipBlanks p.rest
    if (bareWord rest).1 ≠ "]]" && (startsWord rest || (kind = .regex && startsGroup rest)) then
      (readWord fuel kind .empty rest).map fun (_, r) => p.after r
    else none

/-- Reads a comparison after its left operand, if one follows. -/
def readComparison : Nat → Point → Option Point
  | 0, _ => none
  | fuel + 1, p =>
    match skipBlanks p.rest with
    | '<' :: r => readOperand fuel .plain (p.after r)
    | '>' :: r => readOperand fuel .plain (p.after r)
    | _ =>
      match mark p.rest with
      | (.junction, _) => some p
      | (.closing, _) => some p
      | (.newline, _) => some p
      | _ =>
        let (test, r) := bareWord p.rest
        if test = "]]" then some p
        else if binaryTests.contains test then readOperand fuel (operandKind test) (p.after r)
        else none

end

/-- The fuel for a text: going one command deeper takes a few steps, and some
character of the text. -/
def fuelFor (cs : List Char) : Nat := 16 * cs.length + 64

/-- Whether a text is a script. -/
def parses (cs : List Char) : Bool :=
  let fuel := fuelFor cs
  let p := Point.skipLines fuel ⟨cs, [], true, false⟩
  p.rest.isEmpty || ((readList fuel p).any fun p => (skipBlanks p.rest).isEmpty)

/-! ### Files -/

/-- How many bytes are looked at to tell a file that is no script. -/
def sniffLength : Nat := 80

/-- Whether a file is no script: a NUL stands in its first line, or in the first
two of a file that names its interpreter. -/
def isBinary (bytes : ByteArray) : Bool :=
  let sample := (bytes.extract 0 sniffLength).toList
  let lines := sample.splitOn 10
  let count := if [0x23, 0x21].isPrefixOf sample then 2 else 1
  (lines.take count).any fun line => line.contains 0

/-- Whether the bytes of a file are a script. A NUL says nothing. -/
def parsesBytes (bytes : ByteArray) : Bool :=
  !isBinary bytes && parses ((Text.decode bytes).filter (· ≠ '\x00'))

end Shell
end Attic
