import Attic.Ledger.Entry

/-!
# Ledger events

A journal holds one event a line: a script was archived, or one was restored.
The name of an event stands in its member `event`, anywhere in the object, or
at the head of a list. The other values of an event are read as whole values
before any of them is looked at.

Key definitions: `Ledger.Event`, `Ledger.Event.json`, `Ledger.Event.line`,
`Ledger.Event.read`.
-/

namespace Attic
namespace Ledger

/-- What a journal records. -/
inductive Event where
  | archived (original archive : Path) (batch : String) (archivedAt : Timestamp) (reason : String)
  | restored (original : Path) (batch : String) (restoredAt : Timestamp)
  deriving DecidableEq

def Event.json : Event → Json.Value
  | .archived original archive batch archivedAt reason =>
    .object [
      ("event", .text "archived"),
      ("original_path", .text original.text),
      ("archive_path", .text archive.text),
      ("archive_batch_id", .text batch),
      ("archived_at", .text (timeText archivedAt)),
      ("reason", .text reason)]
  | .restored original batch restoredAt =>
    .object [
      ("event", .text "restored"),
      ("original_path", .text original.text),
      ("archive_batch_id", .text batch),
      ("restored_at", .text (timeText restoredAt))]

/-- The line of an event, with its line feed. -/
def Event.line (e : Event) : String := String.ofList (e.json.compact ++ ['\n'])

/-! ### Reading -/

/-- The names of the events. -/
inductive EventName where
  | archived
  | restored
  deriving DecidableEq

def EventName.read (node : Json.Node) : Except Json.Flaw EventName :=
  match node.readString with
  | .error f => .error f
  | .ok "archived" => .ok .archived
  | .ok "restored" => .ok .restored
  | .ok _ => .error .mismatch

/-- An event's name and other members, taken from an object in order. -/
structure Gathered where
  name : Option EventName
  others : List (String × Json.Value)

/-- How deep the values of an event may go. -/
def valueDepth : Nat := 127

def Gathered.read (g : Gathered) (name : String) (value : Json.Node) :
    Except Json.Flaw Gathered :=
  if name = "event" then
    (Json.readOnce g.name EventName.read value).map fun x => { g with name := x }
  else (value.value valueDepth).map fun v => { g with others := g.others ++ [(name, v)] }

/-- The only member of a name. -/
def onlyMember (name : String) (members : List (String × Json.Value)) :
    Except Json.Flaw Json.Value :=
  match members.filter fun m => m.1 = name with
  | [m] => .ok m.2
  | _ => .error .mismatch

def valueText : Json.Value → Except Json.Flaw String
  | .text s => .ok s
  | _ => .error .mismatch

def valueTime : Json.Value → Except Json.Flaw Timestamp
  | .text s =>
    match Timestamp.read? s.toList with
    | some t => .ok t
    | none => .error .mismatch
  | _ => .error .mismatch

/-- The event of a name and its fields, in the order of their declaration. -/
def Event.ofFields : EventName → List Json.Value → Except Json.Flaw Event
  | .archived, [original, archive, batch, archivedAt, reason] => do
    .ok (.archived ⟨← valueText original⟩ ⟨← valueText archive⟩ (← valueText batch)
      (← valueTime archivedAt) (← valueText reason))
  | .restored, [original, batch, restoredAt] => do
    .ok (.restored ⟨← valueText original⟩ (← valueText batch) (← valueTime restoredAt))
  | _, _ => .error .mismatch

def EventName.fields : EventName → List String
  | .archived => ["original_path", "archive_path", "archive_batch_id", "archived_at", "reason"]
  | .restored => ["original_path", "archive_batch_id", "restored_at"]

def Event.ofNode : Json.Node → Except Json.Flaw Event
  | .object members => do
    let g ← members.fold Gathered.read ⟨none, []⟩
    let name ← Json.required g.name
    let values ← name.fields.mapM fun field => onlyMember field g.others
    Event.ofFields name values
  | .list items => do
    let (name, items) ← items.take EventName.read
    let values ← items.values valueDepth
    Event.ofFields name values
  | node => .error node.flaw

/-- Reads the text of an event. -/
def Event.read (cs : List Char) : Except Json.Flaw Event :=
  let d := Json.Document.read cs
  d.close (Event.ofNode d.root)

end Ledger
end Attic
