import Attic.Proofs.Ledger.History
import Attic.Proofs.Ledger.Scribe
import Mathlib

/-!
# Ledgers that keep to their file

Whether a record is accepted or refused, it changes the tree at most where the
ledger stands, and folders come where nothing was: those for the ledger may have
been made before the write failed.

Key definitions: `Ledger.Confined`, `Ledger.Confined.memory`,
`Ledger.Confined.refusing`, `Ledger.Confined.journal`.
-/

namespace Attic
namespace Ledger

/-- What a record changes at most. -/
structure Confined.Writes (place : Option Location) (t t' : Tree) : Prop where
  grounded : t'.Grounded
  stays : Tree.Stays [] [] t t'
  elsewhere : ∀ l, place ≠ some l → t.GrowsAt t' l

/-- A store whose records change nothing but its ledger. -/
structure Confined (s : Store) where
  /-- Where the ledger stands in a tree. -/
  place : Tree → Option Location
  writes : ∀ e r, r.tree.Grounded →
    Confined.Writes (place (s.record e r).2.tree) r.tree (s.record e r).2.tree

namespace Confined

variable {s : Store} {place : Option Location} {t t' : Tree}

theorem Writes.of_grows (grounded : t'.Grounded) (grows : t.Grows t') : Writes place t t' :=
  ⟨grounded, .of_grows grows, fun l _ => grows l⟩

theorem Writes.refl (grounded : t.Grounded) : Writes place t t := .of_grows grounded (.refl t)

/-- The ledger in memory. -/
def memory : Confined .memory where
  place _ := none
  writes e r grounded := by
    simp only [Store.memory]
    split <;> exact .refl grounded

/-- A store that refuses the records of some scripts. -/
def refusing (k : Confined s) (refused : Path → Bool) : Confined (.refusing refused s) where
  place := k.place
  writes e r grounded := by
    simp only [Store.refusing]
    split
    · exact .refl grounded
    · exact k.writes e r grounded

/-- An event is appended, or the folder of the journal has come at most. -/
theorem append_writes (grounded : t.Grounded) (path : Path) (event : Event) :
    Writes ((Journal.append path event t).2.placeOf? true path) t
      (Journal.append path event t).2 := by
  cases appended : Journal.append path event t with
  | mk result t' =>
  cases result with
  | error f =>
    obtain rfl := Journal.append_error appended
    obtain ⟨grounded', grows⟩ := Scribe.prepare_grows grounded path
    exact .of_grows grounded' grows
  | ok =>
    obtain ⟨l, place, grounded', stays, elsewhere⟩ := Scribe.append_writes grounded appended
    refine ⟨grounded', stays, fun k other => elsewhere k ?_⟩
    rintro rfl
    exact other place

/-- The ledger in a journal. -/
def journal (path : Path) : Confined (.journal path) where
  place t := t.placeOf? true path
  writes e r grounded := by
    simp only [Store.journal]
    split
    · exact .refl grounded
    split
    · exact .refl grounded
    · exact append_writes grounded path _

end Confined
end Ledger
end Attic
