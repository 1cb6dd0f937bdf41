import Attic.Json.Value
import Attic.Reference.Detect
import Attic.Reference.Resolve

/-!
# Findings

A finding is a use of an archived script in another file: which script, which
file, which line, which kind of reference, and the line itself, cut to 200
characters. Findings sort by script, file, line, kind and text.

Key definitions: `Reference.Finding`, `Reference.Finding.before`,
`Reference.Finding.json`, `Reference.snippet`, `Reference.findings`.
-/

namespace Attic
namespace Reference

structure Finding where
  /-- The archived script. -/
  script : Path
  /-- The file that refers to it. -/
  file : Path
  /-- The line, counted from 1. -/
  line : Nat
  kind : Kind
  snippet : String
  deriving DecidableEq

/-- Whether a finding is reported before another. -/
def Finding.before (a b : Finding) : Bool :=
  if a.script.before b.script then true
  else if b.script.before a.script then false
  else if a.file.before b.file then true
  else if b.file.before a.file then false
  else if a.line ≠ b.line then a.line < b.line
  else if a.kind ≠ b.kind then a.kind.rank < b.kind.rank
  else a.snippet < b.snippet

def Finding.json (f : Finding) : Json.Value :=
  .object [
    ("archived_path", .text f.script.text),
    ("referencing_file", .text f.file.text),
    ("line_number", .nat f.line),
    ("reference_kind", .text f.kind.name),
    ("raw_snippet", .text f.snippet)]

def snippetLength : Nat := 200

/-- A line as it is shown: without blanks around it, and cut where it is long. -/
def snippet (line : List Char) : String :=
  let text := Text.trim line
  String.ofList (if snippetLength < text.length then text.take snippetLength ++ ['.', '.', '.']
    else text)

/-- The uses of archived scripts in one line of a file, other than of the file
itself. -/
def lineFindings (index : Index) (root file : Path) (flavor : Flavor) (line : List Char)
    (number : Nat) : List Finding :=
  (detect flavor line).flatMap fun (kind, specifier) =>
    ((index.resolve specifier kind file root).filter fun script => !script.same file).map
      fun script => ⟨script, file, number, kind, snippet line⟩

/-- The uses of archived scripts in the text of a file, sorted, each once. -/
def findings (index : Index) (root file : Path) (text : List Char) : List Finding :=
  let flavor := Flavor.of file
  Order.sortDistinct Finding.before
    (((Text.lines text).zipIdx 1).flatMap fun (line, number) =>
      lineFindings index root file flavor line number)

end Reference
end Attic
