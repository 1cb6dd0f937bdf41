import Attic.Proofs.Ledger.Keeper
import Attic.Proofs.Restore.Endings
import Attic.Proofs.Tree.Below
import Mathlib

/-!
# What carrying out one item does

An item that is not restored leaves the ledger alone and adds folders to the
tree at most. One that is restored marks its entry, puts the bytes of its
archived copy at its place, and takes the copy away; elsewhere the tree only
grows. Nothing else can come of an item, whatever the ledger refuses.

Key definitions: `Restore.Follows`, `Restore.Item.Fit`, `Restore.Item.Restores`,
`Restore.Item.Placed`.
Key theorem: `Restore.runItem_effect`.
-/

namespace Attic
namespace Restore

/-- An item whose script and copy have places of their own, apart from those of
the ledger. -/
structure Item.Fit (own : Location → Prop) (base : Location) (i : Item) : Prop where
  target : i.target.IsNormal
  archive : i.entry.archive.IsNormal
  differ : i.target ≠ i.entry.archive
  target_free : ¬ own (Tree.placeBelow base i.target)
  archive_free : ¬ own (Tree.placeBelow base i.entry.archive)

variable {s : Restorer} {k : Ledger.Keeper s.store} {base : Location} {r r' : Repository}
variable {es es' : List Ledger.Entry} {now : Timestamp} {i : Item}

/-- A repository in which a run can be followed: there are no links, the root can
be reached, and the ledger has the entries. -/
structure Follows (k : Ledger.Keeper s.store) (base : Location) (r : Repository)
    (es : List Ledger.Entry) : Prop where
  plain : r.tree.Plain
  rooted : r.tree.reach [] (Tree.steps s.root.text) = some base
  keeps : k.keeps r es

/-- What restoring an item does to the tree and the ledger. -/
structure Item.Restores (k : Ledger.Keeper s.store) (base : Location) (now : Timestamp) (i : Item)
    (r r' : Repository) (es es' : List Ledger.Entry) : Prop where
  marked : Ledger.markFirst? i.target now es = some es'
  nameable : Tree.Nameable s.root i.target
  copied : ∃ mode bytes,
    r.tree.get? (Tree.placeBelow base i.entry.archive) = some (.file mode bytes) ∧
    r'.tree.get? (Tree.placeBelow base i.target) =
      some (.file (Tree.copyMode i.executable mode) bytes)
  removed : r'.tree.get? (Tree.placeBelow base i.entry.archive) = none
  elsewhere : ∀ l, l ≠ Tree.placeBelow base i.target →
    l ≠ Tree.placeBelow base i.entry.archive → ¬ k.own l → r.tree.GrowsAt r'.tree l

/-- The ledger can be followed on when files that are not its own come or go. -/
theorem Follows.change (h : Follows k base r es) {t : Tree} (plain : t.Plain)
    (own : ∀ l, k.own l → t.get? l = r.tree.get? l)
    (folders : ∀ l, r.tree.get? l = some .folder → t.get? l = some .folder) :
    Follows k base { r with tree := t } es :=
  ⟨plain, Tree.reach_kept folders _ _ h.rooted, k.steady h.plain plain h.keeps own folders⟩

theorem Follows.grow (h : Follows k base r es) {t : Tree} (plain : t.Plain)
    (grows : r.tree.Grows t) : Follows k base { r with tree := t } es := by
  refine h.change plain (fun l own => ?_) fun l => (grows l).keeps
  obtain ⟨mode, bytes, held⟩ := k.held h.plain h.keeps own
  rw [held, (grows l).keeps held]

/-- A file is taken away that is not the ledger's. -/
theorem Follows.erase (h : Follows k base r es) {l : Location} {mode : Nat} {bytes : ByteArray}
    (free : ¬ k.own l) (file : r.tree.get? l = some (.file mode bytes)) :
    Follows k base { r with tree := r.tree.erase l } es := by
  refine h.change (h.plain.erase file) (fun m own => Tree.get?_erase_other ?_) fun m folder => ?_
  · rintro rfl
    exact free own
  · rw [Tree.get?_erase_other, folder]
    rintro rfl
    rw [file] at folder
    exact absurd folder (by simp)

/-! ### Putting a script back -/

/-- A script that has been put back where nothing was, from a copy that is still there. -/
structure Item.Placed (root : Path) (base : Location) (i : Item) (t t' : Tree) : Prop where
  target : Tree.Nameable root i.target
  archive : Tree.Nameable root i.entry.archive
  apart : Tree.placeBelow base i.entry.archive ≠ Tree.placeBelow base i.target
  vacant : t.get? (Tree.placeBelow base i.target) = none
  copied : ∃ mode bytes, t.get? (Tree.placeBelow base i.entry.archive) = some (.file mode bytes) ∧
    t'.get? (Tree.placeBelow base i.entry.archive) = some (.file mode bytes) ∧
    t'.get? (Tree.placeBelow base i.target) = some (.file (Tree.copyMode i.executable mode) bytes)
  grows : ∀ l, l ≠ Tree.placeBelow base i.target → t.GrowsAt t' l
  plain : t'.Plain

section

variable {t : Tree}

/-- No folder goes when a script is put back. -/
theorem Item.Placed.folders {root : Path} {t₀ : Tree} (placed : i.Placed root base t₀ t)
    {l : Location} (folder : t₀.get? l = some .folder) : t.get? l = some .folder := by
  refine (placed.grows l ?_).keeps folder
  rintro rfl
  simp [placed.vacant] at folder

variable (fit : i.Fit k.own base) (h : Follows k base r es)

include fit h

/-- What is placed is a script that has been put back. -/
theorem Item.Fit.placed (done : r.tree.placeCopy (s.root.join i.entry.archive)
    (s.root.join i.target) i.executable = (.ok (), t)) : i.Placed s.root base r.tree t := by
  rcases Tree.placeCopy_normal h.plain h.rooted fit.archive fit.target i.executable with
    ⟨f, t', failed, -⟩ | ⟨t₁, mode, bytes, grows, archive, target, copy, free, done', plain⟩
  · exact absurd (Prod.mk.inj (done.symm.trans failed)).1 (by simp)
  obtain ⟨-, rfl⟩ := Prod.mk.inj (done.symm.trans done')
  have apart : Tree.placeBelow base i.entry.archive ≠ Tree.placeBelow base i.target :=
    (Tree.placeBelow_ne fit.target fit.archive fit.differ).symm
  have below : Tree.placeBelow base i.target ≠ [] :=
    Tree.ne_nil_of_get? (t := t₁) (by simp [free])
  refine ⟨target, archive, apart, ?_, ⟨mode, bytes, copy, ?_, Tree.get?_set_same below⟩,
    fun l hl => ?_, plain⟩
  · rcases grows (Tree.placeBelow base i.target) with same | ⟨none, -⟩
    · exact same.symm.trans free
    · exact none
  · rw [Tree.get?_set_other apart, (grows _).keeps copy]
  · rw [Tree.GrowsAt, Tree.get?_set_other hl]
    exact grows l

/-- Where a script cannot be put back folders have been made at most. -/
theorem Item.Fit.blocked {f : Tree.Fault} (failed : r.tree.placeCopy
    (s.root.join i.entry.archive) (s.root.join i.target) i.executable = (.error f, t)) :
    t.Plain ∧ r.tree.Grows t := by
  rcases Tree.placeCopy_normal h.plain h.rooted fit.archive fit.target i.executable with
    ⟨f', t', failed', plain, grows⟩ | ⟨t₁, mode, bytes, -, -, -, -, -, done, -⟩
  · obtain ⟨-, rfl⟩ := Prod.mk.inj (failed.symm.trans failed')
    exact ⟨plain, grows⟩
  · exact absurd (Prod.mk.inj (failed.symm.trans done)).1 (by simp)

/-- The ledger is followed on when a script has been put back. -/
theorem Item.Placed.follows (placed : i.Placed s.root base r.tree t) :
    Follows k base { r with tree := t } es := by
  refine h.change placed.plain (fun l own => ?_) fun _ => placed.folders
  obtain ⟨m, b, held⟩ := k.held h.plain h.keeps own
  rw [held, (placed.grows l _).keeps held]
  rintro rfl
  exact fit.target_free own

/-- The ledger refuses the mark, and what was put back is removed again. -/
theorem Item.Placed.undone (placed : i.Placed s.root base r.tree t) :
    Follows k base { r with tree := (t.removeFile (s.root.join i.target)).2 } es ∧
      r.tree.Grows (t.removeFile (s.root.join i.target)).2 := by
  obtain ⟨mode, bytes, -, -, there⟩ := placed.copied
  have follows := placed.follows fit h
  have below : Tree.placeBelow base i.target ≠ [] :=
    Tree.ne_nil_of_get? (t := r.tree) (by simp [placed.vacant])
  rw [Tree.removeFile_normal placed.plain follows.rooted placed.target there]
  refine ⟨follows.erase fit.target_free there, fun l => ?_⟩
  by_cases hl : l = Tree.placeBelow base i.target
  · left
    rw [hl, Tree.get?_erase_same below, placed.vacant]
  · rw [Tree.GrowsAt, Tree.get?_erase_other hl]
    exact placed.grows l hl

/-- The ledger makes the mark, and the copy is removed. -/
theorem Item.Placed.settled (placed : i.Placed s.root base r.tree t) (valid : now.isValid = true)
    {r₁ : Repository} (done : s.store.markRestored i.target now { r with tree := t } =
      (.ok (), r₁)) :
    ∃ es', (r₁.tree.removeFile (s.root.join i.entry.archive)).1 = .ok () ∧
      Follows k base
        { r₁ with tree := (r₁.tree.removeFile (s.root.join i.entry.archive)).2 } es' ∧
      i.Restores k base now r
        { r₁ with tree := (r₁.tree.removeFile (s.root.join i.entry.archive)).2 } es es' := by
  obtain ⟨mode, bytes, was, copy, there⟩ := placed.copied
  have follows := placed.follows fit h
  rcases k.mark follows.plain follows.keeps i.target now valid with ⟨f, refused⟩ |
    ⟨es', r₂, marked, done', keeps, plain, same⟩
  · exact absurd (Prod.mk.inj (done.symm.trans refused)).1 (by simp)
  obtain ⟨-, rfl⟩ := Prod.mk.inj (done.symm.trans done')
  have folders : ∀ l, t.get? l = some .folder → r₁.tree.get? l = some .folder := by
    intro l folder
    rw [same l, folder]
    intro own
    obtain ⟨m, b, held⟩ := k.held follows.plain follows.keeps own
    simp [held] at folder
  have follows₁ : Follows k base r₁ es' :=
    ⟨plain, Tree.reach_kept folders _ _ follows.rooted, keeps⟩
  have copy₁ := (same _ fit.archive_free).trans copy
  have written : Tree.placeBelow base i.entry.archive ≠ [] :=
    Tree.ne_nil_of_get? (t := r.tree) (by simp [was])
  rw [Tree.removeFile_normal plain follows₁.rooted placed.archive copy₁]
  refine ⟨es', rfl, follows₁.erase fit.archive_free copy₁, marked, placed.target,
    ⟨mode, bytes, was, ?_⟩, Tree.get?_erase_same written, fun l hl hl' own => ?_⟩
  · exact (Tree.get?_erase_other placed.apart.symm).trans ((same _ fit.target_free).trans there)
  · rw [Tree.GrowsAt, Tree.get?_erase_other hl', same l own]
    exact placed.grows l hl

end

/-! ### Items -/

/-- **What becomes of an item.** -/
theorem runItem_effect (fit : i.Fit k.own base) (valid : now.isValid = true) (late : Bool)
    (h : Follows k base r es) :
    ((∀ w, (runItem s now late i r).1 ≠ .restored w) ∧
      Follows k base (runItem s now late i r).2 es ∧
      r.tree.Grows (runItem s now late i r).2.tree) ∨
    ∃ es', (runItem s now late i r).1 = .restored none ∧
      Follows k base (runItem s now late i r).2 es' ∧
      i.Restores k base now r (runItem s now late i r).2 es es' := by
  have ends := runItem_ends s now late i r
  generalize (runItem s now late i r).1 = d at ends ⊢
  generalize (runItem s now late i r).2 = r' at ends ⊢
  cases ends with
  | late | missing => exact .inl ⟨by simp, h, .refl _⟩
  | conflict _ failed | blocked _ failed =>
    obtain ⟨plain, grows⟩ := fit.blocked h failed
    exact .inl ⟨by simp, h.grow plain grows, grows⟩
  | refused _ done refused =>
    have placed := fit.placed h done
    have follows := placed.follows fit h
    rcases k.mark follows.plain follows.keeps i.target now valid with ⟨f, refused'⟩ |
      ⟨es', r₂, -, done', -⟩
    · obtain ⟨-, rfl⟩ := Prod.mk.inj (refused.symm.trans refused')
      obtain ⟨follows', grows⟩ := placed.undone fit h
      exact .inl ⟨by simp, follows', grows⟩
    · exact absurd (Prod.mk.inj (refused.symm.trans done')).1 (by simp)
  | restored _ done marked warned =>
    obtain ⟨es', removed, follows, restores⟩ := (fit.placed h done).settled fit h valid marked
    rw [removed] at warned
    exact .inr ⟨es', congrArg Done.restored (Option.isNone_iff_eq_none.1 warned.symm), follows,
      restores⟩

/-- A script is put back only where nothing is. -/
theorem runItem_vacant (fit : i.Fit k.own base) (late : Bool) (h : Follows k base r es)
    {w : Option String} (restored : (runItem s now late i r).1 = .restored w) :
    r.tree.get? (Tree.placeBelow base i.target) = none := by
  have ends := runItem_ends s now late i r
  rw [restored] at ends
  generalize (runItem s now late i r).2 = r' at ends
  cases ends with
  | restored _ done => exact (fit.placed h done).vacant

end Restore
end Attic
