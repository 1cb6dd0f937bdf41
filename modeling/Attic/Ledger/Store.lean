import Attic.Ledger.Journal

/-!
# Ledgers as stores

A repository is a file tree together with the entries of a ledger kept in
memory. A store is the way in which a ledger is read and written: in memory,
or in a journal, which is a file of the tree. Whatever a store does is done to
the repository.

Key definitions: `Repository`, `Ledger.Store`, `Ledger.Store.memory`,
`Ledger.Store.journal`, `Ledger.Store.ofBatch`, `Ledger.Store.ofDates`.
-/

namespace Attic

/-- A file tree and the entries of a ledger in memory. -/
structure Repository where
  tree : Tree
  entries : List Ledger.Entry
  deriving DecidableEq

namespace Ledger

/-- How a ledger is read and written. -/
structure Store where
  /-- The entries that have not been restored. -/
  active : Repository → Except Fault (List Entry)
  /-- Marks the active entry of a path as restored. -/
  markRestored : Path → Timestamp → Repository → Except Fault Unit × Repository
  /-- Adds an active entry, unless its path has one. -/
  record : Entry → Repository → Except Fault Unit × Repository

namespace Store

/-- The active entries of a batch. -/
def ofBatch (s : Store) (batch : String) (r : Repository) : Except Fault (List Entry) :=
  (s.active r).map fun es => es.filter fun e => e.batch = batch

/-- The active entries archived on one of the days from `first` to `last`. -/
def ofDates (s : Store) (first last : Date) (r : Repository) : Except Fault (List Entry) :=
  (s.active r).map fun es => es.filter fun e => e.archivedWithin first last

/-- The ledger in memory. -/
def memory : Store where
  active r := .ok (r.entries.filter Entry.isActive)
  markRestored path moment r :=
    match markFirst? path moment r.entries with
    | some es => (.ok (), { r with entries := es })
    | none => (.error (.notActive path), r)
  record e r :=
    if r.entries.any (Entry.isActiveOf e.original) then (.error (.alreadyActive e.original), r)
    else (.ok (), { r with entries := r.entries ++ [e] })

theorem memory_active {r : Repository} {es : List Entry} (h : r.entries = es) :
    memory.active r = .ok (es.filter Entry.isActive) := by
  rw [← h]
  rfl

/-- The tree after an append to a journal, as part of the repository. -/
def appendTo (path : Path) (e : Event) (r : Repository) : Except Fault Unit × Repository :=
  let (result, tree) := Journal.append path e r.tree
  (result, { r with tree := tree })

/-- The ledger in the journal at a path. -/
def journal (path : Path) : Store where
  active r := (Journal.entries path r.tree).map fun es => es.filter Entry.isActive
  markRestored original moment r :=
    match Journal.entries path r.tree with
    | .error f => (.error f, r)
    | .ok es =>
      match es.find? (Entry.isActiveOf original) with
      | none => (.error (.notActive original), r)
      | some e => appendTo path (.restored e.original e.batch moment) r
  record e r :=
    match Journal.entries path r.tree with
    | .error f => (.error f, r)
    | .ok es =>
      if es.any (Entry.isActiveOf e.original) then (.error (.alreadyActive e.original), r)
      else appendTo path (.archived e.original e.archive e.batch e.archivedAt e.reason) r

end Store
end Ledger
end Attic
