import Attic.Restore.Plan

/-!
# Carrying out a plan

Each item is one unit: the archived copy is put back in its place, the ledger
marks the entry as restored, and the copy is removed. When the ledger refuses,
what was put back is removed again. Nothing that is there is overwritten. A
dry run only says what would be done; a run that restores anything has to be
forced or confirmed with the token of the plan. Items that go to one place
form a group and run in order; the groups do not depend on each other.

Key definitions: `Restore.Options`, `Restore.ItemFault`, `Restore.Done`,
`Restore.runItem`, `Restore.Reading`, `Restore.runItems`, `Restore.groups`,
`Restore.Report`, `Restore.Restorer.applyIn`, `Restore.Restorer.apply`.
-/

namespace Attic
namespace Restore

/-- How a plan is carried out. -/
structure Options where
  dryRun : Bool
  force : Bool
  token : Option String
  /-- Whether the time for starting items is over. -/
  expired : Bool
  deriving DecidableEq

def Options.standard : Options := ⟨false, false, none, false⟩

inductive SkipReason where
  /-- Something is at the place of the script. -/
  | conflict
  /-- The archived copy is gone. -/
  | missing
  deriving DecidableEq

/-- The name of the reason in JSON. -/
def SkipReason.name : SkipReason → String
  | .conflict => "filesystem_conflict"
  | .missing => "ledger_inconsistency"

/-- The reason in words. -/
def SkipReason.label : SkipReason → String
  | .conflict => "target already exists"
  | .missing => "archived file missing"

/-- Why an item was not restored. -/
inductive ItemFault where
  | tree (fault : Tree.Fault)
  /-- The ledger refused after the file was put back. -/
  | ledger (fault : Ledger.Fault) (rolledBack : Bool)
  | late
  deriving DecidableEq

def ItemFault.message : ItemFault → String
  | .tree fault => "failed to restore file: " ++ fault.message
  | .ledger fault true => "ledger update failed (file move rolled back): " ++ fault.message
  | .ledger fault false =>
    "ledger update failed (ROLLBACK FAILED, reconcile manually): " ++ fault.message
  | .late => "run deadline exceeded before this item was attempted"

/-- What became of one item. -/
inductive Done where
  | restored (warning : Option String)
  | skipped (reason : SkipReason)
  | failed (fault : ItemFault)
  deriving DecidableEq

/-- Marks the entry of a script that was put back and removes its archived copy;
when the ledger refuses, removes what was put back. -/
def settle (s : Restorer) (now : Timestamp) (i : Item) (r : Repository) : Done × Repository :=
  match s.store.markRestored i.target now r with
  | (.error f, r) =>
    match r.tree.removeFile (s.root.join i.target) with
    | (.ok (), t) => (.failed (.ledger f true), { r with tree := t })
    | (.error _, t) => (.failed (.ledger f false), { r with tree := t })
  | (.ok (), r) =>
    match r.tree.removeFile (s.root.join i.entry.archive) with
    | (.ok (), t) => (.restored none, { r with tree := t })
    | (.error f, t) =>
      (.restored (some ("restored " ++ i.target.text ++ " but could not remove archived copy " ++
        i.entry.archive.text ++ ": " ++ f.message)), { r with tree := t })

/-- Carries out one item. The tree may have changed since it was planned. -/
def runItem (s : Restorer) (now : Timestamp) (expired : Bool) (i : Item) (r : Repository) :
    Done × Repository :=
  if expired then (.failed .late, r)
  else
    let archive := s.root.join i.entry.archive
    if !r.tree.isFile archive then (.skipped .missing, r)
    else
      match r.tree.placeCopy archive (s.root.join i.target) i.executable with
      | (.error .exists, t) => (.skipped .conflict, { r with tree := t })
      | (.error f, t) => (.failed (.tree f), { r with tree := t })
      | (.ok (), t) => settle s now i { r with tree := t }

/-- What the clock shows when an item is started: the time, and whether that
for starting items is over. -/
structure Reading where
  now : Timestamp
  late : Bool

/-- Carries out items one after the other, each at the time of its start. -/
def runItems (s : Restorer) (clock : Item → Reading) :
    List Item → Repository → List (Path × Done) × Repository
  | [], r => ([], r)
  | i :: is, r =>
    let (d, r) := runItem s (clock i).now (clock i).late i r
    let (ds, r) := runItems s clock is r
    ((i.target, d) :: ds, r)

/-- Whether an item goes to a place before that of another. -/
def targetBefore (i j : Item) : Bool := i.target.before j.target

/-- Puts an item before groups that are sorted by their place. -/
def addToGroups (i : Item) : List (List Item) → List (List Item)
  | (j :: js) :: gs =>
    if i.target.same j.target then (i :: j :: js) :: gs else [i] :: (j :: js) :: gs
  | gs => [i] :: gs

/-- The items that restore, in groups of one place each, sorted by place. -/
def groups (p : Plan) : List (List Item) :=
  (Order.sortBy targetBefore (p.items.filter fun i => i.action = .restore)).foldr addToGroups []

structure Skipped where
  path : Path
  reason : SkipReason
  deriving DecidableEq

/-- Whether a skipped item is listed before another. -/
def Skipped.before (a b : Skipped) : Bool :=
  a.path.before b.path ||
    (!b.path.before a.path && a.reason == .conflict && b.reason == .missing)

structure Failed where
  path : Path
  fault : ItemFault
  deriving DecidableEq

/-- What carrying out a plan comes to. -/
structure Report where
  dryRun : Bool
  restored : List Path
  /-- What a real run would restore, on a dry run. -/
  wouldRestore : List Path
  skipped : List Skipped
  failed : List Failed
  warnings : List String
  deriving DecidableEq

def Report.isClean (r : Report) : Bool := r.failed.isEmpty

def Report.json (r : Report) : Json.Value :=
  .object [
    ("dry_run", .bool r.dryRun),
    ("restored", .list (r.restored.map fun p => .text p.text)),
    ("would_restore", .list (r.wouldRestore.map fun p => .text p.text)),
    ("skipped", .list (r.skipped.map fun s =>
      .object [("path", .text s.path.text), ("reason", .text s.reason.name)])),
    ("failed", .list (r.failed.map fun f =>
      .object [("path", .text f.path.text), ("error", .text f.fault.message)])),
    ("warnings", .list (r.warnings.map .text))]

/-- The items that the plan itself skips. -/
def plannedSkips (p : Plan) : List Skipped :=
  p.items.filterMap fun i => match i.action with
    | .restore => none
    | .skipPresent => some ⟨i.target, .conflict⟩
    | .skipMissing => some ⟨i.target, .missing⟩

/-- The report on a plan and what became of its items. -/
def Report.of (p : Plan) (done : List (Path × Done)) : Report where
  dryRun := false
  restored := Order.sortBy Path.before (done.filterMap fun d => match d.2 with
    | .restored _ => some d.1
    | _ => none)
  wouldRestore := []
  skipped := Order.sortBy Skipped.before (plannedSkips p ++ done.filterMap fun d => match d.2 with
    | .skipped reason => some ⟨d.1, reason⟩
    | _ => none)
  failed := Order.sortBy (fun a b => a.path.before b.path) (done.filterMap fun d => match d.2 with
    | .failed fault => some ⟨d.1, fault⟩
    | _ => none)
  warnings := Order.sortBy (fun a b => a < b) (done.filterMap fun d => match d.2 with
    | .restored warning => warning
    | _ => none)

/-- The report of a dry run. -/
def Report.dry (p : Plan) : Report :=
  ⟨true, [], (groups p).flatten.map Item.target, Order.sortBy Skipped.before (plannedSkips p), [],
    []⟩

/-- Carries out a plan, whose groups are run in a given order. -/
def Restorer.applyIn (s : Restorer) (order : List (List Item)) (clock : Item → Reading) (p : Plan)
    (o : Options) (r : Repository) : Except RequestFault Report × Repository :=
  if o.dryRun then (.ok (.dry p), r)
  else if p.isEmpty then (.error (.noMatches p.criteria.describe), r)
  else if !o.force && !(groups p).isEmpty && o.token ≠ some p.token then (.error .unconfirmed, r)
  else
    let (done, r) := runItems s clock order.flatten r
    (.ok (.of p done), r)

/-- Carries out a plan. -/
def Restorer.apply (s : Restorer) (now : Timestamp) (p : Plan) (o : Options) (r : Repository) :
    Except RequestFault Report × Repository :=
  s.applyIn (groups p) (fun _ => ⟨now, o.expired⟩) p o r

end Restore
end Attic
