import Attic.Restore.Apply

/-!
# How an item ends

Carrying out an item is a chain of steps, each of which can fail. Where the chain
stops decides what becomes of the item and of the repository: the item is not
started, its copy is gone, its script cannot be put back, the ledger refuses the
mark, or it is restored. What a run does to the tree or the ledger is shown for
these endings, one by one.

Key definition: `Restore.Ends`.
Key theorem: `Restore.runItem_ends`.
-/

namespace Attic
namespace Restore

/-- The endings of an item, each with the steps that lead to it. -/
inductive Ends (s : Restorer) (now : Timestamp) (late : Bool) (i : Item) (r : Repository) :
    Done → Repository → Prop
  | late (passed : late = true) : Ends s now late i r (.failed .late) r
  | missing (gone : r.tree.isFile (s.root.join i.entry.archive) = false) :
      Ends s now late i r (.skipped .missing) r
  | conflict {t : Tree} (copy : r.tree.isFile (s.root.join i.entry.archive) = true)
      (placed : r.tree.placeCopy (s.root.join i.entry.archive) (s.root.join i.target)
        i.executable = (.error .exists, t)) :
      Ends s now late i r (.skipped .conflict) { r with tree := t }
  | blocked {t : Tree} {f : Tree.Fault}
      (copy : r.tree.isFile (s.root.join i.entry.archive) = true)
      (placed : r.tree.placeCopy (s.root.join i.entry.archive) (s.root.join i.target)
        i.executable = (.error f, t)) :
      Ends s now late i r (.failed (.tree f)) { r with tree := t }
  /-- The script was put back and is removed again, as far as it can be. -/
  | refused {t : Tree} {f : Ledger.Fault} {r₁ : Repository}
      (copy : r.tree.isFile (s.root.join i.entry.archive) = true)
      (placed : r.tree.placeCopy (s.root.join i.entry.archive) (s.root.join i.target)
        i.executable = (.ok (), t))
      (marked : s.store.markRestored i.target now { r with tree := t } = (.error f, r₁)) :
      Ends s now late i r
        (.failed (.ledger f (r₁.tree.removeFile (s.root.join i.target)).1.isOk))
        { r₁ with tree := (r₁.tree.removeFile (s.root.join i.target)).2 }
  /-- There is a warning if the copy cannot be removed. -/
  | restored {t : Tree} {r₁ : Repository} {warning : Option String}
      (copy : r.tree.isFile (s.root.join i.entry.archive) = true)
      (placed : r.tree.placeCopy (s.root.join i.entry.archive) (s.root.join i.target)
        i.executable = (.ok (), t))
      (marked : s.store.markRestored i.target now { r with tree := t } = (.ok (), r₁))
      (warned : (r₁.tree.removeFile (s.root.join i.entry.archive)).1.isOk = warning.isNone) :
      Ends s now late i r (.restored warning)
        { r₁ with tree := (r₁.tree.removeFile (s.root.join i.entry.archive)).2 }

/-- **Each item has one of these endings.** -/
theorem runItem_ends (s : Restorer) (now : Timestamp) (late : Bool) (i : Item) (r : Repository) :
    Ends s now late i r (runItem s now late i r).1 (runItem s now late i r).2 := by
  unfold runItem
  split
  · next passed => exact .late passed
  dsimp only
  split
  · next gone => exact .missing (by simpa using gone)
  next copy =>
  simp only [Bool.not_eq_true, Bool.not_eq_false'] at copy
  split
  · next placed => exact .conflict copy placed
  · next placed => exact .blocked copy placed
  next placed =>
  unfold settle
  split
  · next marked =>
    have ends : Ends s now late i r _ _ := .refused copy placed marked
    split
    · next removed => rwa [removed] at ends
    · next removed => rwa [removed] at ends
  next r₁ marked =>
  have ends (w : Option String) (warned : _ = w.isNone) :
      Ends s now late i r (.restored w) _ := .restored copy placed marked warned
  split
  · next removed =>
    rw [removed] at ends
    exact ends _ rfl
  · next removed =>
    rw [removed] at ends
    exact ends _ rfl

/-- An item whose steps all go well is restored. -/
theorem runItem_restored {s : Restorer} {now : Timestamp} {i : Item} {r r₁ : Repository}
    {t t₁ : Tree} (copy : r.tree.isFile (s.root.join i.entry.archive) = true)
    (placed : r.tree.placeCopy (s.root.join i.entry.archive) (s.root.join i.target)
      i.executable = (.ok (), t))
    (marked : s.store.markRestored i.target now { r with tree := t } = (.ok (), r₁))
    (removed : r₁.tree.removeFile (s.root.join i.entry.archive) = (.ok (), t₁)) :
    runItem s now false i r = (.restored none, { r₁ with tree := t₁ }) := by
  rw [runItem, if_neg Bool.false_ne_true]
  simp only [copy, Bool.not_true, Bool.false_eq_true, if_false, placed, settle, marked, removed]

/-- Of several items the first is carried out, and then the others. -/
theorem runItems_cons (s : Restorer) (clock : Item → Reading) (i : Item) (is : List Item)
    (r : Repository) : runItems s clock (i :: is) r =
      ((i.target, (runItem s (clock i).now (clock i).late i r).1) ::
        (runItems s clock is (runItem s (clock i).now (clock i).late i r).2).1,
      (runItems s clock is (runItem s (clock i).now (clock i).late i r).2).2) := rfl

end Restore
end Attic
