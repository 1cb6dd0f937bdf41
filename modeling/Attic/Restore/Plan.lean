import Attic.Digest.Sip
import Attic.Ledger.Store
import Attic.Path.Normal
import Attic.Restore.Criteria

/-!
# Restoration plans

A plan lists the selected active entries, sorted by path and time, and says of
each whether it can come back: not if its archived copy is gone, and not if
something is at its place. The plan has a token, a digest of its items, by
which it is confirmed. Planning changes nothing.

Key definitions: `Restore.Action`, `Restore.Item`, `Restore.Plan`,
`Restore.Plan.token`, `Restore.Restorer`, `Restore.Restorer.relativePath`,
`Restore.Restorer.plan`.
-/

namespace Attic
namespace Restore

inductive Action where
  | restore
  /-- Something is at the place of the script already. -/
  | skipPresent
  /-- The archived copy is gone. -/
  | skipMissing
  deriving DecidableEq

def Action.rank : Action → Nat
  | .restore => 0
  | .skipPresent => 1
  | .skipMissing => 2

/-- The name of the action in JSON. -/
def Action.name : Action → String
  | .restore => "restore"
  | .skipPresent => "skip_already_exists"
  | .skipMissing => "skip_archive_missing"

/-- One entry of a plan. -/
structure Item where
  entry : Ledger.Entry
  action : Action
  /-- Whether the restored file may be executed. -/
  executable : Bool
  deriving DecidableEq

/-- Where the script goes. -/
def Item.target (i : Item) : Path := i.entry.original

def Item.json (i : Item) : Json.Value :=
  .object [
    ("entry", i.entry.json),
    ("action", .text i.action.name),
    ("target_path", .text i.target.text),
    ("restore_permissions", .bool i.executable)]

structure Plan where
  criteria : Criteria
  items : List Item
  deriving DecidableEq

namespace Plan

def isEmpty (p : Plan) : Bool := p.items.isEmpty

/-- How many items have an action. -/
def count (p : Plan) (a : Action) : Nat := (p.items.filter fun i => i.action = a).length

/-! ### The token -/

/-- The bytes of a number in a word of eight, least significant first. -/
def wordBytes (n : Nat) : List UInt8 := (List.range 8).map fun k => UInt8.ofNat (n / Nat.pow 256 k)

/-- A word turned right by two bits. -/
def turn (n : Nat) : Nat := n % Nat.pow 2 64 / 4 + n % 4 * Nat.pow 2 62

/-- The components of a path that count for its digest: all but the root. -/
def digestPieces (p : Path) : List String :=
  p.components.filterMap fun c => match c with
    | .root => none
    | c => some c.text

/-- What a path is to its digest: its components, and a number made of their
lengths that tells where one ends. -/
def pathBytes (p : Path) : List UInt8 :=
  let pieces := digestPieces p
  pieces.flatMap (fun s => s.toByteArray.toList) ++
    wordBytes (pieces.foldl (fun n s => turn (n + s.utf8ByteSize)) 0)

/-- What an item is to the digest. -/
def itemBytes (i : Item) : List UInt8 :=
  pathBytes i.target ++ pathBytes i.entry.archive ++ i.entry.batch.toByteArray.toList ++ [0xff] ++
    wordBytes i.action.rank

/-- The token by which the plan is confirmed. -/
def token (p : Plan) : String := Digest.hex (Digest.sip (p.items.flatMap itemBytes))

def json (p : Plan) : Json.Value :=
  .object [
    ("criteria", p.criteria.json),
    ("items", .list (p.items.map Item.json)),
    ("confirmation_token", .text p.token)]

end Plan

/-! ### Planning -/

/-- How scripts of a repository are restored. -/
structure Restorer where
  root : Path
  categories : Order.Table String
  store : Ledger.Store

/-- The path of an absolute argument below the root, also where only the way
without links leads there. -/
def Restorer.belowRoot? (s : Restorer) (t : Tree) (p : Path) : Option Path :=
  match p.below? s.root with
  | some q => some q
  | none =>
    match t.canonical s.root, p.parent? with
    | .ok root, some parent =>
      match t.canonical parent, p.fileName? with
      | .ok parent, some name => (parent.below? root).map fun q => q.join ⟨name⟩
      | _, _ => none
    | _, _ => none

/-- The form in which the ledger records a path, where there is one. -/
def Restorer.relativePath (s : Restorer) (t : Tree) (p : Path) : Path :=
  let relative := if p.isAbsolute then s.belowRoot? t p else some p
  (relative.bind Path.normalize?).getD p

/-- The active entries that criteria select. -/
def Restorer.select (s : Restorer) (c : Criteria) (r : Repository) :
    Except Ledger.Fault (List Ledger.Entry) :=
  match c with
  | .batch id => s.store.ofBatch id r
  | .dates first last => s.store.ofDates first last r
  | .category tag =>
    (s.store.active r).map fun es => es.filter fun e => categoryOf s.categories e.original = tag
  | .path p =>
    let wanted := s.relativePath r.tree p
    (s.store.active r).map fun es => es.filter fun e => e.original.same wanted

/-- Whether an entry comes before another in a plan. -/
def entryBefore (a b : Ledger.Entry) : Bool :=
  a.original.before b.original ||
    (!b.original.before a.original && a.archivedAt.before b.archivedAt)

/-- The extensions of scripts that are executed by a shell. -/
def shellExtensions : List String := ["sh", "bash", "zsh"]

/-- Whether a file is to be executed: it may be already, it has the extension of
a shell script, or its first line names an interpreter. -/
def isExecutable (t : Tree) (p : Path) : Bool :=
  match t.readFile p with
  | .error _ => false
  | .ok (mode, bytes) =>
    mode &&& 0o111 != 0 ||
      (match p.extension? with
        | some e => shellExtensions.contains e
        | none => false) ||
      (bytes.extract 0 2).toList == [0x23, 0x21]

/-- What is to be done with an entry. -/
def planItem (t : Tree) (root : Path) (e : Ledger.Entry) : Item :=
  let archive := root.join e.archive
  if !t.isFile archive then ⟨e, .skipMissing, false⟩
  else
    match t.lookPlain (root.join e.original) with
    | .ok _ => ⟨e, .skipPresent, false⟩
    | .error _ => ⟨e, .restore, isExecutable t archive⟩

/-- The plan for some criteria. -/
def Restorer.plan (s : Restorer) (c : Criteria) (r : Repository) : Except RequestFault Plan :=
  match s.select c r with
  | .error f => .error (.ledger f)
  | .ok es => .ok ⟨c, (Order.sortBy entryBefore es).map (planItem r.tree s.root)⟩

end Restore
end Attic
