import Attic.Ledger.Store

/-!
# Stores that fail

Stores that refuse some of what they are asked, for studying what is left
behind when a ledger fails in the middle of a run.

Key definitions: `Ledger.Store.offline`, `Ledger.Store.refusing`,
`Ledger.Store.spoiling`, `Ledger.Store.losing`.
-/

namespace Attic
namespace Ledger
namespace Store

/-- A store that answers nothing. -/
def offline : Store where
  active _ := .error (.unavailable "offline")
  markRestored _ _ r := (.error (.unavailable "offline"), r)
  record _ r := (.error (.unavailable "offline"), r)

def refusal : Fault := .unavailable "write refused"

/-- A store that refuses every write for the paths that `refused` names and
changes nothing for them. -/
def refusing (refused : Path → Bool) (s : Store) : Store where
  active := s.active
  markRestored path moment r :=
    if refused path then (.error refusal, r) else s.markRestored path moment r
  record e r := if refused e.original then (.error refusal, r) else s.record e r

/-- The repository without a file. -/
def withoutFile (path : Path) (r : Repository) : Repository :=
  { r with tree := (r.tree.removeFile path).2 }

/-- A store that refuses as `refusing` does, after the file that was just put in
its place has been removed. -/
def spoiling (root : Path) (spoiled : Path → Bool) (s : Store) : Store where
  active := s.active
  markRestored path moment r :=
    if spoiled path then (.error refusal, withoutFile (root.join path) r)
    else s.markRestored path moment r
  record e r :=
    if spoiled e.original then (.error refusal, withoutFile (root.join e.archive) r)
    else s.record e r

/-- A store that loses the archived copy of a script while it is restored. -/
def losing (root : Path) (lost : Path → Bool) (s : Store) : Store where
  active := s.active
  markRestored path moment r :=
    if lost path then
      match s.active r with
      | .error f => (.error f, r)
      | .ok es =>
        match es.find? fun e => e.original.same path with
        | none => s.markRestored path moment r
        | some e => s.markRestored path moment (withoutFile (root.join e.archive) r)
    else s.markRestored path moment r
  record := s.record

end Store
end Ledger
end Attic
