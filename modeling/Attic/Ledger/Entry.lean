import Attic.Calendar.Timestamp
import Attic.Json.Shape
import Attic.Json.Write
import Attic.Path.Parts

/-!
# Ledger entries

An entry says where an archived script came from, where its copy is, in which
batch, when and why it was archived, and whether it has been restored. Entries
are written and read in JSON.

Key definitions: `Ledger.Status`, `Ledger.Entry`, `Ledger.Entry.isActive`,
`Ledger.Entry.archivedWithin`, `Ledger.Entry.json`, `Ledger.Entry.read`.
-/

namespace Attic
namespace Ledger

inductive Status where
  | active
  | restored
  deriving DecidableEq

/-- One archived script. Its paths are seen from the root of the repository. -/
structure Entry where
  original : Path
  archive : Path
  batch : String
  archivedAt : Timestamp
  reason : String
  status : Status
  restoredAt : Option Timestamp
  deriving DecidableEq

/-- The entry of a script that has just been archived. -/
def Entry.fresh (original archive : Path) (batch : String) (archivedAt : Timestamp)
    (reason : String) : Entry :=
  ⟨original, archive, batch, archivedAt, reason, .active, none⟩

def Entry.isActive (e : Entry) : Bool := e.status == .active

/-- Whether the script was archived on one of the days from `first` to `last`. -/
def Entry.archivedWithin (e : Entry) (first last : Date) : Bool :=
  !e.archivedAt.date.before first && !last.before e.archivedAt.date

/-- The entry as restored at a moment. -/
def Entry.restore (e : Entry) (moment : Timestamp) : Entry :=
  { e with status := .restored, restoredAt := some moment }

/-! ### In JSON -/

def Status.text : Status → String
  | .active => "active"
  | .restored => "restored"

def timeText (t : Timestamp) : String := String.ofList t.write

def Entry.json (e : Entry) : Json.Value :=
  .object [
    ("original_path", .text e.original.text),
    ("archive_path", .text e.archive.text),
    ("archive_batch_id", .text e.batch),
    ("archived_at", .text (timeText e.archivedAt)),
    ("reason", .text e.reason),
    ("restoration_status", .text e.status.text),
    ("restored_at", match e.restoredAt with
      | some t => .text (timeText t)
      | none => .null)]

def readPath (node : Json.Node) : Except Json.Flaw Path := node.readString.map Path.mk

/-- A timestamp, which is a text of its own. -/
def readTime (node : Json.Node) : Except Json.Flaw Timestamp :=
  match node.readString with
  | .error f => .error f
  | .ok s =>
    match Timestamp.read? s.toList with
    | some t => .ok t
    | none => .error .mismatch

/-- A timestamp, or nothing where `null` stands. -/
def readTime? : Json.Node → Except Json.Flaw (Option Timestamp)
  | .null => .ok none
  | node => (readTime node).map some

def Status.named? : String → Except Json.Flaw Status
  | "active" => .ok .active
  | "restored" => .ok .restored
  | _ => .error .mismatch

/-- A status: its name, or an object with its name as the only member and no
value. What is neither a text nor an object is no status at all. -/
def readStatus : Json.Node → Except Json.Flaw Status
  | .text (some s) => Status.named? s
  | .text none => .error .malformed
  | .object (.more name value rest) =>
    match name with
    | .error f => .error f
    | .ok name =>
      match Status.named? name with
      | .error f => .error f
      | .ok status =>
        match value with
        | .null =>
          match rest with
          | .closed => .ok status
          | .cut f => .error f
          | .more _ _ _ => .error .malformed
        | value => .error value.flaw
  | .object .closed => .error .malformed
  | .object (.cut f) => .error f
  | .broken f _ => .error f
  | _ => .error .malformed

/-- The fields of an entry that have been read. -/
structure Entry.Fields where
  original : Option Path
  archive : Option Path
  batch : Option String
  archivedAt : Option Timestamp
  reason : Option String
  status : Option Status
  restoredAt : Option (Option Timestamp)

/-- Reads one member of an entry; members of other names are passed over. -/
def Entry.Fields.read (f : Fields) (name : String) (value : Json.Node) :
    Except Json.Flaw Fields :=
  match name with
  | "original_path" =>
    (Json.readOnce f.original readPath value).map fun x => { f with original := x }
  | "archive_path" => (Json.readOnce f.archive readPath value).map fun x => { f with archive := x }
  | "archive_batch_id" =>
    (Json.readOnce f.batch Json.Node.readString value).map fun x => { f with batch := x }
  | "archived_at" =>
    (Json.readOnce f.archivedAt readTime value).map fun x => { f with archivedAt := x }
  | "reason" =>
    (Json.readOnce f.reason Json.Node.readString value).map fun x => { f with reason := x }
  | "restoration_status" =>
    (Json.readOnce f.status readStatus value).map fun x => { f with status := x }
  | "restored_at" =>
    (Json.readOnce f.restoredAt readTime? value).map fun x => { f with restoredAt := x }
  | _ => value.skip.map fun () => f

/-- The entry that the fields make up; only the time of restoration may be left
out. -/
def Entry.Fields.close (f : Fields) : Except Json.Flaw Entry := do
  let original ← Json.required f.original
  let archive ← Json.required f.archive
  let batch ← Json.required f.batch
  let archivedAt ← Json.required f.archivedAt
  let reason ← Json.required f.reason
  let status ← Json.required f.status
  .ok ⟨original, archive, batch, archivedAt, reason, status, f.restoredAt.getD none⟩

def Entry.ofNode : Json.Node → Except Json.Flaw Entry
  | .object members => do
    let fields ← members.fold Fields.read ⟨none, none, none, none, none, none, none⟩
    fields.close
  | .list items => do
    let (original, items) ← items.take readPath
    let (archive, items) ← items.take readPath
    let (batch, items) ← items.take Json.Node.readString
    let (archivedAt, items) ← items.take readTime
    let (reason, items) ← items.take Json.Node.readString
    let (status, items) ← items.take readStatus
    let (restoredAt, items) ← items.take readTime?
    items.finish
    .ok ⟨original, archive, batch, archivedAt, reason, status, restoredAt⟩
  | node => .error node.flaw

/-- Reads the text of an entry. -/
def Entry.read (cs : List Char) : Except Json.Flaw Entry :=
  let d := Json.Document.read cs
  d.close (Entry.ofNode d.root)

end Ledger
end Attic
