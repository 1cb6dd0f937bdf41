import Attic.Reference.Kind
import Attic.Reference.Recognize
import Attic.Text.Lines

/-!
# Shell commands

Lines that run or read a script: `source` and `.`, an interpreter with a script
among its arguments, and a path in command position. A command starts at the
start of the line, after a list operator, in a subshell, or after one of a few
words; a path of the command ends at white space, a quote or an operator.

Key definitions: `Reference.shellSources`, `Reference.shellRuns`,
`Reference.commandStarts`, `Reference.shellWord?`, `Reference.interpreters`.
-/

namespace Attic
namespace Reference

/-- A character of a path in a command. -/
def isShellChar (c : Char) : Bool :=
  !(Text.isBlank c || isAnyQuote c || c == ';' || c == '|' || c == '&' || c == ')' ||
    c == '<' || c == '>')

/-- The rest after a quote, if there is one. -/
def skipQuote : List Char → List Char
  | [] => []
  | c :: cs => if isQuote c then cs else c :: cs

/-- A path of a command, after the quote that may open it. -/
def shellWord? (cs : List Char) : Option (List Char × List Char) := run? isShellChar (skipQuote cs)

/-- The words after which a command starts. -/
def leadingWords : List String := ["then", "do", "else", "exec", "time", "sudo", "env"]

/-- What is left after the start of a command, in each way in which one can
start here. -/
def commandStarts (before cs : List Char) : List (List Char) :=
  (if before.isEmpty then [cs] else []) ++
  (match cs with
    | c :: rest =>
      if c == ';' || c == '&' || c == '|' || c == '(' || c == '\x60' then [rest] else []
    | [] => []) ++
  (literal? "$(" cs).toList ++
  (if startsWord before then
    leadingWords.filterMap fun word =>
      match literal? word cs with
      | some (c :: rest) => if Text.isBlank c then some rest else none
      | _ => none
  else [])

/-! ### Reading a script -/

/-- A script that is read into the running shell. -/
def sourceForm : Form (List Char) := fun before cs =>
  firstOf? (fun start =>
    let start := skipBlanks start
    (((literal? "source" start).or (literal? "." start)).bind blanks?).bind shellWord?)
    (commandStarts before cs)

def shellSources (line : List Char) : List Specifier :=
  (occurrences sourceForm line).map fun raw => .path (String.ofList raw)

/-! ### Interpreters -/

/-- The rest after words with blanks between them. -/
def words? : List String → List Char → Option (List Char)
  | [], cs => some cs
  | [w], cs => literal? w cs
  | w :: ws, cs => ((literal? w cs).bind blanks?).bind (words? ws)

/-- `ts-node`, also as `ts-node-esm`. -/
def tsNode? (cs : List Char) : Option (List Char) :=
  (literal? "ts-node" cs).map fun rest => (literal? "-esm" rest).getD rest

/-- The runners that package managers start. -/
def packaged? (cs : List Char) : Option (List Char) :=
  (literal? "ts-node" cs).or (literal? "tsx" cs)

/-- `python` with its version, if it has one. -/
def python? (cs : List Char) : Option (List Char) :=
  (literal? "python" cs).map fun rest =>
    let rest := match rest with
      | '2' :: r => r
      | '3' :: r => r
      | r => r
    match rest with
    | '.' :: r => (run? Text.isDecimalDigit r).elim rest Prod.snd
    | r => r

/-- What is left after the name of an interpreter, in each way in which one can
stand here. -/
def interpreters (cs : List Char) : List (List Char) :=
  ["bash", "sh", "zsh", "dash", "ksh", "node"].filterMap (literal? · cs) ++
  (words? ["deno", "run"] cs).toList ++
  (words? ["bun", "run"] cs).toList ++ (literal? "bun" cs).toList ++
  (tsNode? cs).toList ++ (literal? "tsx" cs).toList ++
  (((literal? "npx" cs).bind blanks?).bind packaged?).toList ++
  (((literal? "pnpm" cs).bind blanks?).bind fun rest =>
    (((literal? "exec" rest).bind blanks?).bind packaged?).or (packaged? rest)).toList ++
  (python? cs).toList ++
  (words? ["uv", "run"] cs).toList ++
  (words? ["poetry", "run", "python"] cs).toList

/-- An option with the blanks after it: a dash, more of a word or more dashes,
and perhaps a value after an equals sign. -/
def option? : List Char → Option (List Char)
  | '-' :: cs =>
    (run? (fun c => Text.isWordChar c || c == '-') cs).bind fun (_, rest) =>
      match rest with
      | '=' :: rest => (run? (fun c => !Text.isBlank c) rest).bind fun (_, rest) => blanks? rest
      | rest => blanks? rest
  | _ => none

/-- The first argument that is no option. Where none is left, the last option is
taken as the argument. -/
def argument? : Nat → Option (List Char) → List Char → Option (List Char × List Char)
  | 0, _, _ => none
  | fuel + 1, last, cs =>
    match option? cs with
    | some rest => argument? fuel (some cs) rest
    | none => (shellWord? cs).or (last.bind shellWord?)

/-- What may stand right before an interpreter. -/
def interpreterStarts (before cs : List Char) : List (List Char) :=
  (if before.isEmpty then [cs] else []) ++
  (match cs with
    | c :: rest =>
      if Text.isBlank c || isAnyQuote c || c == ';' || c == '&' || c == '|' || c == '(' then [rest]
      else []
    | [] => []) ++
  (literal? "$(" cs).toList

/-- An interpreter with its first argument. -/
def interpreterForm : Form (List Char) := fun before cs =>
  firstOf? (fun start =>
    firstOf? (fun rest => (blanks? rest).bind fun args => argument? (args.length + 1) none args)
      (interpreters start))
    (interpreterStarts before cs)

/-! ### Paths in command position -/

/-- A path that was found, with what stands before its command and after it. -/
structure Placed where
  word : List Char
  /-- Last character first. -/
  before : List Char
  after : List Char

/-- A variable and a slash. -/
def variableSlash? (cs : List Char) : Option (List Char) :=
  (literal? "$" cs).bind fun rest =>
    let rest := match rest with
      | '\x7b' :: r => r
      | r => r
    (run? Text.isWordChar rest).bind fun (_, rest) =>
      let rest := match rest with
        | '\x7d' :: r => r
        | r => r
      literal? "/" rest

/-- What is left after the start of a path that shows that it is one. -/
def pathLead? (cs : List Char) : Option (List Char) :=
  firstOf? id
    [literal? "../" cs, literal? "./" cs, literal? "/" cs, literal? "~/" cs, variableSlash? cs]

/-- A path that starts like one, in command position. -/
def pathForm : Form Placed := fun before cs =>
  firstOf? (fun start =>
    let start := skipQuote (skipBlanks start)
    (pathLead? start).map fun rest =>
      let after := rest.dropWhile isShellChar
      (⟨start.take (start.length - after.length), before, after⟩, after))
    (commandStarts before cs)

/-- A path that starts like a word and has a slash, in command position. -/
def bareForm : Form Placed := fun before cs =>
  firstOf? (fun start =>
    match skipQuote (skipBlanks start) with
    | [] => none
    | c :: rest =>
      if (Text.isWordChar c || c == '@' || c == '+' || c == '-') &&
          (rest.takeWhile isShellChar).contains '/' then
        let after := rest.dropWhile isShellChar
        some (⟨c :: rest.takeWhile isShellChar, before, after⟩, after)
      else none)
    (commandStarts before cs)

/-- The calls whose arguments are imports. -/
def importCalls : List String :=
  ["import", "require", "require.resolve", "import_module", "__import__"]

/-- Whether a path is the argument of an importing call, from what stands before
its command, last character first. -/
def isCallArgument (before : List Char) : Bool :=
  let before := Text.trimStart before
  let before := match before with
    | '(' :: rest => rest
    | cs => cs
  let before := Text.trimStart before
  importCalls.any fun call => call.toList.reverse.isPrefixOf before

/-- The extensions of scripts. -/
def scriptExtensions : List String :=
  ["sh", "bash", "zsh", "js", "mjs", "cjs", "ts", "mts", "cts", "tsx", "py"]

def hasScriptExtension (word : List Char) : Bool :=
  match (Path.ofChars word).extension? with
  | some e => scriptExtensions.contains e
  | none => false

/-- An argument of an interpreter is a path if it has a slash or the extension
of a script. -/
def looksLikePath (word : List Char) : Bool := word.contains '/' || hasScriptExtension word

/-- A word with a slash is a command if it has the extension of a script, or if
the line, an argument or an operator follows. An address is none. -/
def isBareCommand (word after : List Char) : Bool :=
  if Text.occursIn [':', '/', '/'] word then false
  else
    hasScriptExtension word ||
      match after with
      | [] => true
      | c :: _ => Text.isBlank c || c == ';' || c == '&' || c == '|' || isQuote c

/-- Adds a specifier that is not there yet. -/
def addNew (specs : List Specifier) (s : Specifier) : List Specifier :=
  if specs.contains s then specs else specs ++ [s]

/-- The paths that a line runs. -/
def shellRuns (line : List Char) : List Specifier :=
  let run := (occurrences interpreterForm line).filter looksLikePath
  let paths := (occurrences pathForm line).filter fun p => !isCallArgument p.before
  let bare := (occurrences bareForm line).filter fun p =>
    !isCallArgument p.before && isBareCommand p.word p.after
  ((paths ++ bare).map fun p => Specifier.path (String.ofList p.word)).foldl addNew
    (run.map fun word => .path (String.ofList word))

end Reference
end Attic
