import Attic.Ledger.Event
import Attic.Text.Blank
import Attic.Tree.Change

/-!
# The journal

The journal is a file of events, one a line; blank lines say nothing. Its
entries are what the events make up one after the other: an archived script
adds an entry, a restored one marks the first active entry of its path, and a
restoration without such an entry changes nothing. Writing appends a line.

Key definitions: `Ledger.Fault`, `Ledger.markFirst?`, `Ledger.replay`,
`Ledger.readEvents`, `Ledger.Journal.entries`, `Ledger.Journal.prepare`,
`Ledger.Journal.append`.
Key theorem: `Ledger.replay_append`.
-/

namespace Attic
namespace Ledger

/-- Why a ledger does not do what it is asked to. -/
inductive Fault where
  /-- The file of the journal cannot be read or written. -/
  | file (path : Path) (fault : Tree.Fault)
  /-- A line of the journal is no event. -/
  | line (path : Path) (line : Nat) (flaw : Json.Flaw)
  | notActive (path : Path)
  | alreadyActive (path : Path)
  | unavailable (reason : String)
  deriving DecidableEq

def Fault.message : Fault → String
  | .file path fault => "ledger I/O error on " ++ path.text ++ ": " ++ fault.message
  | .line path n flaw =>
    "malformed ledger line " ++ toString n ++ " in " ++ path.text ++ ": " ++ flaw.message
  | .notActive path => "no active archive entry for " ++ path.text
  | .alreadyActive path => path.text ++ " already has an active archive entry"
  | .unavailable reason => "archive store unavailable: " ++ reason

/-- The reason below the message of a fault, if it has one. -/
def Fault.cause? : Fault → Option String
  | .file _ fault => some fault.message
  | .line _ _ flaw => some flaw.message
  | _ => none

/-! ### Entries and events -/

/-- Whether an entry is the active one of a path. -/
def Entry.isActiveOf (path : Path) (e : Entry) : Bool := e.isActive && e.original.same path

/-- Marks the first active entry of a path as restored, if there is one. -/
def markFirst? (path : Path) (moment : Timestamp) : List Entry → Option (List Entry)
  | [] => none
  | e :: es =>
    if e.isActiveOf path then some (e.restore moment :: es)
    else (markFirst? path moment es).map (e :: ·)

/-- The entries after one more event. -/
def applyEvent (entries : List Entry) : Event → List Entry
  | .archived original archive batch archivedAt reason =>
    entries ++ [.fresh original archive batch archivedAt reason]
  | .restored original _ moment => (markFirst? original moment entries).getD entries

/-- The entries that events make up. -/
def replay (events : List Event) : List Entry := events.foldl applyEvent []

theorem replay_append (es : List Event) (e : Event) :
    replay (es ++ [e]) = applyEvent (replay es) e := by
  simp [replay]

/-! ### The file -/

/-- The events of numbered lines. -/
def eventsOfLines (path : Path) : List (List Char × Nat) → Except Fault (List Event)
  | [] => .ok []
  | (l, n) :: ls =>
    match Text.trim l with
    | [] => eventsOfLines path ls
    | cs =>
      match Event.read cs with
      | .error flaw => .error (.line path n flaw)
      | .ok e => (eventsOfLines path ls).map (e :: ·)

/-- The events of a journal's text. -/
def readEvents (path : Path) (text : String) : Except Fault (List Event) :=
  eventsOfLines path ((Text.lines text.toList).zipIdx 1)

namespace Journal

/-- The events of the journal at a path; a journal that is not there has none. -/
def events (path : Path) (t : Tree) : Except Fault (List Event) :=
  if t.has path then
    match t.readText path with
    | .error f => .error (.file path f)
    | .ok text => readEvents path text
  else .ok []

/-- The entries of the journal at a path. -/
def entries (path : Path) (t : Tree) : Except Fault (List Entry) := (events path t).map replay

/-- Makes the folder that the journal lies in. -/
def prepare (path : Path) (t : Tree) : Tree.Change :=
  match path.parent? with
  | some p => if p.isEmpty then (.ok (), t) else t.makeFolders p
  | none => (.ok (), t)

/-- Appends the line of an event, making the journal and its folder. -/
def append (path : Path) (e : Event) (t : Tree) : Except Fault Unit × Tree :=
  match prepare path t with
  | (.error f, t) => (.error (.file path f), t)
  | (.ok (), t) =>
    match t.appendFile path e.line.toByteArray with
    | (.error f, t) => (.error (.file path f), t)
    | (.ok (), t) => (.ok (), t)

end Journal
end Ledger
end Attic
