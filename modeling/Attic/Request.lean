import Attic.Ledger.Journal

/-!
# Requests that cannot be carried out

Why a request to archive or to restore is refused as a whole. What goes wrong
with one script of a restoration is no such fault; it is part of the result.

Key definitions: `RequestFault`, `RequestFault.message`.
-/

namespace Attic

inductive RequestFault where
  /-- Scripts are selected in several ways at once. -/
  | ambiguous (given : List String)
  | noCriteria
  | badDates (raw : String)
  | noMatches (criteria : String)
  | unconfirmed
  | notAFile (path : Path)
  | tree (path : Path) (fault : Tree.Fault)
  | ledger (fault : Ledger.Fault)
  deriving DecidableEq

namespace RequestFault

def message : RequestFault → String
  | ambiguous given =>
    "ambiguous restore criteria: select by exactly one of " ++ String.intercalate ", " given
  | noCriteria =>
    "no restore criteria given: select by archive id, category, date range or path"
  | badDates raw => "invalid date range '" ++ raw ++ "': expected YYYY-MM-DD..YYYY-MM-DD"
  | noMatches criteria => "no active archive entries match " ++ criteria
  | unconfirmed =>
    "restoration requires confirmation: pass the plan's confirmation token or force"
  | notAFile path => path.text ++ " is not a file"
  | tree path fault => "filesystem error on " ++ path.text ++ ": " ++ fault.message
  | ledger fault => fault.message

end RequestFault

/-- The reason below the message of a request's fault, if it has one. -/
def RequestFault.cause? : RequestFault → Option String
  | .tree _ fault => some fault.message
  | .ledger fault => fault.cause?
  | _ => none

end Attic
