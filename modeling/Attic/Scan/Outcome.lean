import Attic.Reference.Finding
import Attic.Scan.Files
import Attic.Text.Bytes

/-!
# Scanning for uses of archived scripts

A file is read unless it is larger than allowed or looks binary, that is, has
a NUL among its first 8000 bytes. What is not UTF-8 in it is replaced. Findings
and warnings are sorted; where nothing is archived no file is read and the
warnings of the walk stay in its order.

Key definitions: `Scan.Outcome`, `Scan.Scanner.scanFile`, `Scan.Scanner.scan`.
-/

namespace Attic
namespace Scan

structure Outcome where
  findings : List Reference.Finding
  warnings : List Warning
  filesScanned : Nat
  deriving DecidableEq

/-- How many bytes are looked at to tell a binary file. -/
def sniffLength : Nat := 8000

def looksBinary (bytes : ByteArray) : Bool := (bytes.extract 0 sniffLength).data.any (· == 0)

/-- The findings in one file, or why it was not read. -/
def Scanner.scanFile (s : Scanner) (t : Tree) (index : Reference.Index) (file : Path) :
    Except Warning (List Reference.Finding) :=
  match t.look (s.root.join file) with
  | .error f => .error ⟨file, .unreadable, f.message⟩
  | .ok (.file _ bytes) =>
    if s.maxFileBytes < bytes.size then
      .error ⟨file, .oversized, toString bytes.size ++ " bytes exceeds the " ++
        toString s.maxFileBytes ++ " byte limit"⟩
    else if looksBinary bytes then .ok []
    else .ok (Reference.findings index s.root file (Text.decode bytes))
  | .ok _ => .error ⟨file, .unreadable, Tree.Fault.isFolder.message⟩

/-- The uses of some archived scripts in the files below some roots. -/
def Scanner.scan (s : Scanner) (t : Tree) (archived roots excludeDirs : List Path) : Outcome :=
  let index := Reference.Index.ofPaths archived
  let (files, warnings) := s.files t roots excludeDirs
  if index.isEmpty then ⟨[], warnings, files.length⟩
  else
    let results := files.map (s.scanFile t index)
    ⟨Order.sortDistinct Reference.Finding.before (results.flatMap fun r => match r with
        | .ok found => found
        | .error _ => []),
      Order.sortBy Warning.before (warnings ++ results.filterMap fun r => match r with
        | .ok _ => none
        | .error w => some w),
      files.length⟩

end Scan
end Attic
