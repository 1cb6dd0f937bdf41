import Attic.Json.Document

/-!
# Reading JSON of a known shape

Readers take a node of a document apart in the order of its text, so the first
flaw they meet is the first one of the text: a value of another kind is a
mismatch unless it is broken itself, and what follows is not looked at.

A record is written as an object of its fields in any order, or as a list of
them in the order of their declaration.

Key definitions: `Json.Node.flaw`, `Json.Node.readString`, `Json.Node.readNat`,
`Json.Node.readStrings`, `Json.Node.readTable`, `Json.Members.fold`,
`Json.Items.next?`, `Json.Document.close`.
-/

namespace Attic
namespace Json

/-- The flaw of a value that has another kind than the reader expects. -/
def Node.flaw : Node → Flaw
  | .broken f _ => f
  | .number none => .malformed
  | .text none => .malformed
  | _ => .mismatch

def Node.readString : Node → Except Flaw String
  | .text (some s) => .ok s
  | node => .error node.flaw

/-- A natural number that fits into 64 bits. -/
def Node.readNat : Node → Except Flaw Nat
  | .number (some (.nat n)) => .ok n
  | node => .error node.flaw

/-- A natural number, or nothing where `null` stands. -/
def Node.readNat? : Node → Except Flaw (Option Nat)
  | .null => .ok none
  | node => node.readNat.map some

mutual

/-- Passes over a value. Only its form counts: numbers may be too large and
escapes may name no character. -/
def Node.skip : Node → Except Flaw Unit
  | .list items => items.skip
  | .object members => members.skip
  | .broken _ f => .error f
  | _ => .ok ()

def Items.skip : Items → Except Flaw Unit
  | .closed => .ok ()
  | .cut f => .error f
  | .more item rest =>
    match item.skip with
    | .error f => .error f
    | .ok () => rest.skip

def Members.skip : Members → Except Flaw Unit
  | .closed => .ok ()
  | .cut f => .error f
  | .more _ value rest =>
    match value.skip with
    | .error f => .error f
    | .ok () => rest.skip

end

/-- Reads every item of a list. -/
def Items.readAll {α : Type} (read : Node → Except Flaw α) : Items → Except Flaw (List α)
  | .closed => .ok []
  | .cut f => .error f
  | .more item rest =>
    match read item with
    | .error f => .error f
    | .ok a => (rest.readAll read).map (a :: ·)

/-- The next item of a list, if there is one. -/
def Items.next? : Items → Except Flaw (Option (Node × Items))
  | .closed => .ok none
  | .cut f => .error f
  | .more item rest => .ok (some (item, rest))

/-- The next item of a record written as a list, which has to be there. -/
def Items.take {α : Type} (read : Node → Except Flaw α) (items : Items) :
    Except Flaw (α × Items) :=
  match items.next? with
  | .error f => .error f
  | .ok none => .error .mismatch
  | .ok (some (item, rest)) => (read item).map fun a => (a, rest)

/-- The next item of a record written as a list, or a value for one that is left
out. -/
def Items.takeOr {α : Type} (value : α) (read : Node → Except Flaw α) (items : Items) :
    Except Flaw (α × Items) :=
  match items.next? with
  | .error f => .error f
  | .ok none => .ok (value, .closed)
  | .ok (some (item, rest)) => (read item).map fun a => (a, rest)

/-- The end of a record written as a list: no item may follow. -/
def Items.finish : Items → Except Flaw Unit
  | .closed => .ok ()
  | .cut f => .error f
  | .more _ _ => .error .malformed

/-- Goes through the members of an object in order. -/
def Members.fold {σ : Type} (step : σ → String → Node → Except Flaw σ) :
    σ → Members → Except Flaw σ
  | s, .closed => .ok s
  | _, .cut f => .error f
  | s, .more name value rest =>
    match name with
    | .error f => .error f
    | .ok name =>
      match step s name value with
      | .error f => .error f
      | .ok s => rest.fold step s

/-- A list of texts. -/
def Node.readStrings : Node → Except Flaw (List String)
  | .list items => items.readAll Node.readString
  | node => .error node.flaw

/-- An object of texts, sorted by name; of members of one name the last counts. -/
def Node.readTable : Node → Except Flaw (Order.Table String)
  | .object members => members.fold (fun t name value =>
      value.readString.map fun s => t.put name s) []
  | node => .error node.flaw

/-- Sets a field that is read from a member; a second member of its name is a
mismatch. -/
def readOnce {α : Type} (field : Option α) (read : Node → Except Flaw α) (value : Node) :
    Except Flaw (Option α) :=
  match field with
  | some _ => .error .mismatch
  | none => (read value).map some

/-- A field that has to be there. -/
def required {α : Type} : Option α → Except Flaw α
  | some a => .ok a
  | none => .error .mismatch

/-- What was read of the whole text: nothing but blanks may follow the value. -/
def Document.close {α : Type} (d : Document) (a : Except Flaw α) : Except Flaw α :=
  match a with
  | .error f => .error f
  | .ok a => if d.trailing then .error .malformed else .ok a

/-- The value that a text says as a whole. -/
def readValue (cs : List Char) : Except Flaw Value :=
  let d := Document.read cs
  d.close (d.root.value 128)

end Json
end Attic
