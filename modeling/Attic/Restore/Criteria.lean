import Attic.Calendar.Date
import Attic.Json.Value
import Attic.Order.Sorted
import Attic.Path.Parts
import Attic.Request
import Attic.Text.Lines

/-!
# What to restore

A request selects archived scripts in exactly one way: by batch, by category,
by the days on which they were archived, or by path. A range of days is
written `YYYY-MM-DD..YYYY-MM-DD`, both ends included; one day stands for
itself. The category of a path is that of the longest configured prefix, or
else the folder of the path.

Key definitions: `Restore.Criteria`, `Restore.Criteria.ofFlags`,
`Restore.Criteria.describe`, `Restore.readDates`, `Restore.categoryOf`.
-/

namespace Attic
namespace Restore

inductive Criteria where
  | batch (id : String)
  | category (tag : String)
  | dates (first last : Date)
  | path (p : Path)
  deriving DecidableEq

/-- Reads a range of days or one day. -/
def readDates (raw : String) : Except RequestFault (Date × Date) :=
  let read := fun cs => Date.read? (Text.trim cs)
  let range := match Text.cutFirst? ['.', '.'] raw.toList with
    | some (first, last) => (read first).bind fun a => (read last).map fun b => (a, b)
    | none => (read raw.toList).map fun a => (a, a)
  match range with
  | some (first, last) => if last.before first then .error (.badDates raw) else .ok (first, last)
  | none => .error (.badDates raw)

/-- The ways of selection that are given, by name. -/
def givenFlags (archiveId category dateRange : Option String) (path : Option Path) : List String :=
  [archiveId.map fun _ => "archive id", category.map fun _ => "category",
    dateRange.map fun _ => "date range", path.map fun _ => "path"].filterMap id

/-- The criteria of a request, which has to select in one way. -/
def Criteria.ofFlags (archiveId category dateRange : Option String) (path : Option Path) :
    Except RequestFault Criteria :=
  let given := givenFlags archiveId category dateRange path
  if 1 < given.length then .error (.ambiguous given)
  else
    match archiveId, category, dateRange, path with
    | some id, _, _, _ => .ok (.batch id)
    | none, some tag, _, _ => .ok (.category tag)
    | none, none, some raw, _ => (readDates raw).map fun (first, last) => .dates first last
    | none, none, none, some p => .ok (.path p)
    | none, none, none, none => .error .noCriteria

def Criteria.describe : Criteria → String
  | .batch id => "archive id '" ++ id ++ "'"
  | .category tag => "category '" ++ tag ++ "'"
  | .dates first last =>
    "dates " ++ String.ofList first.write ++ ".." ++ String.ofList last.write
  | .path p => "path '" ++ p.text ++ "'"

def Criteria.json : Criteria → Json.Value
  | .batch id => .object [("by", .text "batch"), ("value", .text id)]
  | .category tag => .object [("by", .text "category"), ("value", .text tag)]
  | .dates first last =>
    .object [("by", .text "date_range"), ("value", .object [
      ("start", .text (String.ofList first.write)), ("end", .text (String.ofList last.write))])]
  | .path p => .object [("by", .text "path"), ("value", .text p.text)]

/-- A prefix without the slashes at its end. -/
def prefixPath (key : String) : Path :=
  Path.ofChars (key.toList.reverse.dropWhile (· = '/')).reverse

/-- The category of a path: that of the longest configured prefix, as a text,
or its folder. -/
def categoryOf (categories : Order.Table String) (p : Path) : String :=
  let byLength := Order.sortBy (fun a b => b.1.utf8ByteSize < a.1.utf8ByteSize) categories
  match byLength.find? fun c => p.startsWith (prefixPath c.1) with
  | some c => c.2
  | none =>
    match p.parent? with
    | some folder => if folder.isEmpty then "." else folder.text
    | none => "."

end Restore
end Attic
