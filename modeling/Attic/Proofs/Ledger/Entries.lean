import Attic.Ledger.Journal
import Attic.Proofs.Tree.Below
import Mathlib

/-!
# Entries that do not meet

In a tidy ledger the active entries have normal paths of their own, so that a
path stands for one active entry at most.

Key definitions: `Ledger.Entry.Unlike`, `Ledger.Entry.Apart`, `Ledger.Tidy`.
Key theorems: `Ledger.Entry.Apart.places`, `Ledger.Tidy.eq_of_isActiveOf`.
-/

namespace Attic
namespace Ledger

/-- Two entries that have neither path in common. -/
def Entry.Unlike (a b : Entry) : Prop := a.original ≠ b.original ∧ a.archive ≠ b.archive

instance : Std.Symm Entry.Unlike := ⟨fun _ _ h => ⟨h.1.symm, h.2.symm⟩⟩

/-- Two entries of which neither has a path of the other, be it that of the script
or that of the copy. -/
structure Entry.Apart (a b : Entry) : Prop where
  originals : a.original ≠ b.original
  archives : a.archive ≠ b.archive
  across : a.original ≠ b.archive
  back : b.original ≠ a.archive

theorem Entry.Apart.symm {a b : Entry} (h : a.Apart b) : b.Apart a :=
  ⟨h.originals.symm, h.archives.symm, h.back, h.across⟩

/-- An entry whose paths are normal. -/
structure Entry.Normal (e : Entry) : Prop where
  original : e.original.IsNormal
  archive : e.archive.IsNormal

/-- Entries that are apart have places of their own. -/
theorem Entry.Apart.places {a b : Entry} (h : a.Apart b) (ha : a.Normal) (hb : b.Normal)
    (base : Location) :
    (Tree.placeBelow base a.original ≠ Tree.placeBelow base b.original ∧
      Tree.placeBelow base a.original ≠ Tree.placeBelow base b.archive) ∧
    (Tree.placeBelow base a.archive ≠ Tree.placeBelow base b.original ∧
      Tree.placeBelow base a.archive ≠ Tree.placeBelow base b.archive) := by
  refine ⟨⟨?_, ?_⟩, ?_, ?_⟩
  · exact Tree.placeBelow_ne ha.original hb.original h.originals
  · exact Tree.placeBelow_ne ha.original hb.archive h.across
  · exact Tree.placeBelow_ne ha.archive hb.original h.back.symm
  · exact Tree.placeBelow_ne ha.archive hb.archive h.archives

/-- A ledger whose active entries have normal paths, no two of them the same. -/
structure Tidy (es : List Entry) : Prop where
  originals : ∀ e ∈ es, e.isActive = true → e.original.IsNormal
  archives : ∀ e ∈ es, e.isActive = true → e.archive.IsNormal
  distinct : (es.filter Entry.isActive).Pairwise Entry.Unlike

variable {es : List Entry} {e e' : Entry}

theorem isActiveOf_original (active : e.isActive = true) : e.isActiveOf e.original = true := by
  simp [Entry.isActiveOf, active, Path.same_refl]

/-- Only the active entry of a path is active for it. -/
theorem Tidy.eq_of_isActiveOf (tidy : Tidy es) (he : e ∈ es) (he' : e' ∈ es)
    (active' : e'.isActive = true) (h : e.isActiveOf e'.original = true) : e = e' := by
  simp only [Entry.isActiveOf, Bool.and_eq_true] at h
  obtain ⟨active, same⟩ := h
  by_contra differ
  have unlike := tidy.distinct.forall (List.mem_filter.2 ⟨he, active⟩)
    (List.mem_filter.2 ⟨he', active'⟩) differ
  exact unlike.1 ((tidy.originals e he active).eq_of_same (tidy.originals e' he' active') same)

end Ledger
end Attic
