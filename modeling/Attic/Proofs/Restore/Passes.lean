import Attic.Proofs.Restore.Frame
import Attic.Proofs.Tree.Barring
import Mathlib

/-!
# Plans that are carried out again

A plan may be carried out again and again, each time in another order of its groups
and with a ledger that refuses other marks. A script that was restored once is not
restored again. A run in which nothing failed leaves nothing for the next one to do:
the copy of each item is gone, its place is taken, or a file is where its folder has
to be. The exception is a file in the way that is itself the copy of an item: once
that item is restored the way is free.

Key definitions: `Restore.Item.Idle`, `Restore.Item.InWay`, `Restore.Pass`,
`Restore.Pass.state`.
Key theorems: `Restore.runItem_settles`, `Restore.runItems_settles`,
`Restore.Restorer.passes_settle`.
-/

namespace Attic

namespace Tree

variable {t : Tree} {p : Path} {l : Location} {o : Object} {mode : Nat} {bytes : ByteArray}

theorem isFile_of_placeOf? (grounded : t.Grounded) (slash : endsWithSlash p.text = false)
    (place : t.placeOf? false p = some l) (there : t.get? l = some (.file mode bytes)) :
    t.isFile p = true := by
  obtain ⟨fault, way⟩ := spot_eq_ok (spot_of_placeOf? grounded place there)
  refine isFile_iff.2 ⟨mode, bytes, readFile_eq_ok.2 ?_⟩
  rw [look, slash, spot_of_walk fault (walk_into (by simp) way)]
  rfl

end Tree

namespace Restore

open Ledger (Entry)

variable {s : Restorer} {root : Path} {base l : Location} {t₀ t t' : Tree} {i j : Item}
variable {is restored planned : List Item} {p : Plan} {r r' : Repository} {now : Timestamp}
variable {late : Bool} {clock : Item → Reading} {q : Path}

/-! ### Trees that runs lead to -/

namespace Frame

variable (frame : Frame root planned restored t t')

include frame

theorem folders (folder : t.get? l = some .folder) : t'.get? l = some .folder := by
  rcases frame.kept l _ folder with still | ⟨noFolder, -⟩
  · exact still
  · exact absurd rfl noFolder

theorem plain (plain : t.Plain) (grounded : t'.Grounded) : t'.Plain := by
  refine ⟨fun l target link => ?_, grounded⟩
  rcases frame.came l _ link with old | ⟨⟨mode, bytes, file⟩, -⟩ | ⟨folder, -⟩
  · exact plain.linkless l target old
  · simp at file
  · simp at folder

end Frame

/-- A plan that was made in a tree without links: the copy of each item that restores
was there, and nothing was at its place. -/
structure Planned (root : Path) (base : Location) (t₀ : Tree) (p : Plan) : Prop where
  plain : t₀.Plain
  rooted : t₀.reach [] (Tree.steps root.text) = some base
  ready : ∀ i ∈ p.restoring, i.Ready t₀ root
  normal : ∀ i ∈ p.restoring, i.target.IsNormal

/-- A tree that runs of a plan have led to. -/
structure Later (root : Path) (p : Plan) (t₀ t : Tree) : Prop where
  plain : t.Plain
  frame : Frame root p.restoring p.restoring t₀ t

theorem Later.refl (plain : t.Plain) : Later root p t t := ⟨plain, .of_same fun _ => rfl⟩

/-- Another run. -/
theorem Later.next (later : Later root p t₀ t) (grounded : t'.Grounded)
    (frame : Frame root p.restoring restored t t') (sub : ∀ i ∈ restored, i ∈ p.restoring) :
    Later root p t₀ t' :=
  ⟨frame.plain later.plain grounded, later.frame.trans (frame.mono sub)⟩

theorem Later.rooted (later : Later root p t₀ t) (made : Planned root base t₀ p) :
    t.reach [] (Tree.steps root.text) = some base :=
  Tree.reach_kept (fun _ => later.frame.folders) _ _ made.rooted

namespace Planned

variable (made : Planned root base t₀ p)

include made

/-- Where a script can go nothing was when the plan was made. -/
theorem free (plain : t.Plain) (rooted : t.reach [] (Tree.steps root.text) = some base)
    (hi : i ∈ p.restoring) {into must : Bool} {s : Tree.Spot}
    (h : t.spot into must (root.join i.target) = .ok s) : t₀.get? s.place.1 = none := by
  by_contra there
  obtain ⟨o, there⟩ := Option.ne_none_iff_exists'.1 there
  obtain ⟨f, free⟩ := (made.ready i hi).free
  obtain ⟨names, e, isName⟩ := (made.normal i hi).exists_names
  rw [e] at h free
  obtain ⟨fits, place⟩ := Tree.place_below plain rooted isName h
  rw [place] at there
  by_cases hne : names = []
  · subst hne
    rw [Tree.lookPlain, Tree.spot_below made.plain made.rooted isName fits.1] at free
    simp [Tree.way, Tree.stroll, Tree.found, Except.map] at free
  · simp [Tree.lookPlain_below made.plain made.rooted isName hne fits there] at free

/-- The copy of an item was a file when the plan was made, and its path leads where it
led. -/
theorem copy (hj : j ∈ p.restoring) : ∃ c mode bytes,
    Tree.endsWithSlash (root.join j.entry.archive).text = false ∧
      t₀.get? c = some (.file mode bytes) ∧ ∀ t, t₀.Steady t →
        t.placeOf? false (root.join j.entry.archive) = some c := by
  obtain ⟨mode, bytes, read⟩ := Tree.isFile_iff.1 (made.ready j hj).copy
  obtain ⟨slash, -⟩ := Tree.spot_of_readFile read
  obtain ⟨c, place, there⟩ := Tree.placeOf?_of_readFile read
  exact ⟨c, mode, bytes, slash, (there made.plain.in_folder (made.plain.linkless c)).1,
    fun t steady => steady _ _ place⟩

end Planned

/-! ### What stays in the way -/

section

variable (made : Planned root base t₀ p) (later : Later root p t₀ t) (later' : Later root p t₀ t')
variable (frame : Frame root p.restoring restored t t')
variable (sub : ∀ i ∈ restored, i ∈ p.restoring)

include made later later' frame sub

/-- **A place that is taken stays taken**: no copy is there. -/
theorem taken_stays (hi : i ∈ p.restoring) (taken : t.Taken (root.join i.target)) :
    t'.Taken (root.join i.target) := by
  obtain ⟨slash, l, o, spot⟩ := taken
  rcases frame.kept l o (later.plain.in_folder.spot_holds spot) with still | ⟨-, j, hj, place⟩
  · have place := frame.steady _ _ (Tree.placeOf?_eq_some.2 ⟨_, spot, rfl⟩)
    exact ⟨slash, l, o, Tree.spot_of_placeOf? later'.plain.in_folder place still⟩
  · obtain ⟨c, mode, bytes, -, file, copy⟩ := made.copy (sub j hj)
    obtain rfl := Option.some.inj ((copy t' later'.frame.steady).symm.trans place)
    have free : t₀.get? c = none := made.free later.plain (later.rooted made) hi spot
    simp [free] at file

/-- **A copy that is gone stays gone**: no script comes there. -/
theorem missing_stays (hj : j ∈ p.restoring)
    (gone : t.isFile (root.join j.entry.archive) = false) :
    t'.isFile (root.join j.entry.archive) = false := by
  refine Bool.eq_false_iff.2 fun back => ?_
  obtain ⟨c, mode, bytes, slash, file, copy⟩ := made.copy hj
  obtain ⟨m, b, read⟩ := Tree.isFile_iff.1 back
  obtain ⟨l, place, there⟩ := Tree.placeOf?_of_readFile read
  obtain rfl := Option.some.inj ((copy t' later'.frame.steady).symm.trans place)
  obtain ⟨there, -⟩ := there later'.plain.in_folder (later'.plain.linkless c)
  rcases frame.came c _ there with old | ⟨-, k, hk, script⟩ | ⟨folder, -⟩
  · have still := Tree.isFile_of_placeOf? later.plain.in_folder slash
      (copy t later.frame.steady) old
    simp [gone] at still
  · have spot := Tree.spot_of_placeOf? later'.plain.in_folder script there
    have free : t₀.get? c = none := made.free later'.plain (later'.rooted made) (sub k hk) spot
    simp [free] at file
  · simp at folder

end

/-- Whether nothing can be done for an item: its copy is gone, its place is taken, or
a file is where its folder has to be. -/
def Item.Idle (root : Path) (base : Location) (t : Tree) (i : Item) : Prop :=
  t.isFile (root.join i.entry.archive) = false ∨ t.Taken (root.join i.target) ∨
    t.Barred (root.join i.target) (Tree.placeBelow base i.target).dropLast

/-- Whether the copy of an item is where the folder for another has to be. -/
def Item.InWay (root : Path) (base : Location) (t : Tree) (j i : Item) : Prop :=
  t.placeOf? false (root.join j.entry.archive) = some (Tree.placeBelow base i.target).dropLast

section

variable (made : Planned root base t₀ p) (later : Later root p t₀ t) (later' : Later root p t₀ t')
variable (frame : Frame root p.restoring restored t t')
variable (sub : ∀ i ∈ restored, i ∈ p.restoring)

include made later later' frame sub

/-- **A file in the way stays there**, unless it is the copy of an item that is
restored. -/
theorem barred_stays
    (barred : t.Barred (root.join i.target) (Tree.placeBelow base i.target).dropLast) :
    i.Idle root base t' ∨ ∃ j ∈ restored, j.InWay root base t₀ i := by
  obtain ⟨above, mode, bytes, parent, spot⟩ := barred
  rcases frame.kept _ _ (later.plain.in_folder.spot_holds spot) with still | ⟨-, j, hj, place⟩
  · have place := frame.steady _ _ (Tree.placeOf?_eq_some.2 ⟨_, spot, rfl⟩)
    exact .inl (.inr (.inr ⟨above, mode, bytes, parent,
      Tree.spot_of_placeOf? later'.plain.in_folder place still⟩))
  · obtain ⟨c, m, b, -, -, copy⟩ := made.copy (sub j hj)
    rw [copy t' later'.frame.steady] at place
    exact .inr ⟨j, hj, (copy t₀ (.of_same fun _ => rfl)).trans place⟩

end

/-! ### What becomes of an item -/

/-- Nothing is done for an item for which nothing can be done. -/
theorem Ends.idle {d : Done} (ends : Ends s now late i r d r') (idle : i.Idle s.root base r.tree) :
    (∀ w, d ≠ .restored w) ∧ r' = r := by
  have stopped (copy : r.tree.isFile (s.root.join i.entry.archive) = true) :
      r.tree.placeCopy (s.root.join i.entry.archive) (s.root.join i.target) i.executable =
        (.error .exists, r.tree) := by
    rcases idle with gone | taken | barred
    · simp [gone] at copy
    · exact Tree.placeCopy_of_taken copy taken
    · exact Tree.placeCopy_of_barred barred
  cases ends with
  | late | missing => exact ⟨by simp, rfl⟩
  | conflict copy placed | blocked copy placed =>
    obtain ⟨-, rfl⟩ := Prod.mk.inj ((stopped copy).symm.trans placed)
    exact ⟨by simp, rfl⟩
  | refused copy placed | restored copy placed =>
    exact absurd (Prod.mk.inj ((stopped copy).symm.trans placed)).1 (by simp)

/-- **Nothing is done for an item for which nothing can be done.** -/
theorem runItem_idle (now : Timestamp) (late : Bool) (idle : i.Idle s.root base r.tree) :
    (∀ w, (runItem s now late i r).1 ≠ .restored w) ∧ (runItem s now late i r).2 = r :=
  (runItem_ends s now late i r).idle idle

/-- The place of a script that has been put back stays taken when the copy is removed:
the copy was there when the plan was made, and nothing was at the place. -/
theorem taken_of_placed (made : Planned s.root base t₀ p) (later : Later s.root p t₀ t)
    (hi : i ∈ p.restoring) (placed : t.placeCopy (s.root.join i.entry.archive)
      (s.root.join i.target) i.executable = (.ok (), t')) :
    (t'.removeFile (s.root.join i.entry.archive)).2.Taken (s.root.join i.target) := by
  obtain ⟨l, name, mode, bytes, -, spot, slash, rfl⟩ := Tree.placeCopy_ok placed
  obtain ⟨plain₁, grows⟩ := Tree.makeParent_grows later.plain (s.root.join i.target)
  have rooted₁ := Tree.reach_kept (fun l => (grows l).keeps) _ _ (later.rooted made)
  have steady₁ := later.frame.steady.trans (.of_grows grows)
  generalize (t.makeParent (s.root.join i.target)).2 = t₁ at *
  obtain ⟨folder, vacant⟩ := plain₁.in_folder.spot_holds spot
  have steady₂ : t₁.Steady (t₁.set (l ++ [name]) (.file mode bytes)) := .set_file vacant
  have plain₂ : (t₁.set (l ++ [name]) (.file mode bytes)).Plain :=
    plain₁.set (by simp) (by simp) (by rwa [List.dropLast_concat]) (by simp [vacant])
  have place := steady₂ _ _ (Tree.placeOf?_eq_some.2 ⟨_, spot, rfl⟩)
  have there : (t₁.set (l ++ [name]) (.file mode bytes)).get? (l ++ [name]) =
    some (.file mode bytes) := Tree.get?_set_same (by simp)
  obtain ⟨c, m, b, slash', copy, leads⟩ := made.copy hi
  have source := leads _ (steady₁.trans steady₂)
  refine .removeFile plain₂
    ⟨slash, _, _, Tree.spot_of_placeOf? plain₂.in_folder place there⟩ slash' fun same => ?_
  have free : t₀.get? (l ++ [name]) = none := made.free plain₁ rooted₁ hi spot
  have meet : l ++ [name] = c := Option.some.inj ((place.symm.trans same).trans source)
  simp [← meet, free] at copy

/-- **What becomes of an item**, and what it leaves: a place that is taken, a copy
that is gone, or a file in the way. -/
theorem runItem_settles (made : Planned s.root base t₀ p) (later : Later s.root p t₀ r.tree)
    (aloof : s.store.Aloof) (hi : i ∈ p.restoring) (now : Timestamp) (late : Bool) :
    (∃ w, (runItem s now late i r).1 = .restored w) ∧
        (runItem s now late i r).2.tree.Taken (s.root.join i.target) ∨
      (runItem s now late i r).1 = .skipped .missing ∧
        (runItem s now late i r).2.tree.isFile (s.root.join i.entry.archive) = false ∨
      (runItem s now late i r).1 = .skipped .conflict ∧
        ((runItem s now late i r).2.tree.Taken (s.root.join i.target) ∨
          (runItem s now late i r).2.tree.Barred (s.root.join i.target)
            (Tree.placeBelow base i.target).dropLast) ∨
      ∃ f, (runItem s now late i r).1 = .failed f := by
  have ends := runItem_ends s now late i r
  generalize (runItem s now late i r).1 = d at ends
  generalize (runItem s now late i r).2 = r' at ends
  cases ends with
  | late | blocked | refused => exact .inr (.inr (.inr ⟨_, rfl⟩))
  | missing gone => exact .inr (.inl ⟨rfl, gone⟩)
  | conflict copy placed =>
    refine .inr (.inr (.inl ⟨rfl, ?_⟩))
    rcases Tree.placeCopy_exists later.plain (later.rooted made) (made.normal i hi) copy placed with
      taken | ⟨rfl, barred⟩
    · exact .inl taken
    · exact .inr barred
  | restored _ placed marked =>
    refine .inl ⟨⟨_, rfl⟩, ?_⟩
    rw [aloof.tree marked]
    exact taken_of_placed made later hi placed

/-! ### What becomes of a run -/

/-- Nothing is done where nothing can be done for any item. -/
theorem runItems_idle (clock : Item → Reading) : ∀ {is : List Item},
    (∀ i ∈ is, i.Idle s.root base r.tree) →
      restoredPaths (runItems s clock is r).1 = [] ∧ (runItems s clock is r).2 = r
  | [], _ => ⟨rfl, rfl⟩
  | i :: is, idle => by
    obtain ⟨idleI, idle'⟩ := List.forall_mem_cons.1 idle
    obtain ⟨outcome, same⟩ := runItem_idle (clock i).now (clock i).late idleI
    obtain ⟨none, same'⟩ := runItems_idle clock idle'
    rw [runItems_cons, same]
    exact ⟨(restoredPaths_of_ne outcome _ _).trans none, same'⟩

/-- An item of the plan leads to a later tree. -/
theorem runItem_later (aloof : s.store.Aloof) (later : Later s.root p t₀ r.tree)
    (hi : i ∈ p.restoring) (now : Timestamp) (late : Bool) :
    Later s.root p t₀ (runItem s now late i r).2.tree ∧
      Frame s.root p.restoring p.restoring r.tree (runItem s now late i r).2.tree := by
  obtain ⟨grounded, ⟨-, frame⟩ | ⟨-, frame⟩⟩ :=
    runItem_frame aloof later.plain.in_folder hi now late
  · have frame' : Frame s.root p.restoring p.restoring _ _ := frame.mono (by simp)
    exact ⟨later.next grounded frame' fun _ => id, frame'⟩
  · have frame' : Frame s.root p.restoring p.restoring _ _ := frame.mono (by simpa using hi)
    exact ⟨later.next grounded frame' fun _ => id, frame'⟩

/-- What a run of items leads to, and which of them are restored. -/
theorem runItems_later (aloof : s.store.Aloof) (clock : Item → Reading)
    (later : Later s.root p t₀ r.tree) (inside : ∀ i ∈ is, i ∈ p.restoring) :
    ∃ restored : List Item, (∀ i ∈ restored, i ∈ is) ∧
      restoredPaths (runItems s clock is r).1 = restored.map Item.target ∧
      Later s.root p t₀ (runItems s clock is r).2.tree ∧
      Frame s.root p.restoring restored r.tree (runItems s clock is r).2.tree := by
  obtain ⟨restored, sub, paths, grounded, frame⟩ :=
    runItems_frame aloof clock later.plain.in_folder inside
  have sub : ∀ i ∈ restored, i ∈ is := fun i hi => sub.subset hi
  exact ⟨restored, sub, paths, later.next grounded frame fun i hi => inside i (sub i hi), frame⟩

section

variable (made : Planned s.root base t₀ p) (aloof : s.store.Aloof)

include made aloof

/-- **A script whose place is taken is not restored.** -/
theorem runItems_taken (clock : Item → Reading) (hi : i ∈ p.restoring) :
    ∀ {is : List Item} {r : Repository}, Later s.root p t₀ r.tree →
      (∀ j ∈ is, j ∈ p.restoring) → r.tree.Taken (s.root.join i.target) →
        i.target ∉ restoredPaths (runItems s clock is r).1
  | [], r, _, _, _ => by simp [runItems, restoredPaths]
  | j :: is, r, later, inside, taken => by
    obtain ⟨hj, inside'⟩ := List.forall_mem_cons.1 inside
    obtain ⟨later', frame⟩ := runItem_later aloof later hj (clock j).now (clock j).late
    have taken' := taken_stays made later later' frame (fun _ => id) hi taken
    have rest := runItems_taken clock hi later' inside' taken'
    intro again
    obtain ⟨w, mem⟩ := mem_restoredPaths.1 again
    rcases List.mem_cons.1 mem with e | mem
    · obtain ⟨target, outcome⟩ := Prod.mk.inj e
      have idle : j.Idle s.root base r.tree := .inr (.inl (target ▸ taken))
      exact (runItem_idle _ _ idle).1 w outcome.symm
    · exact rest (mem_restoredPaths.2 ⟨w, mem⟩)

/-- **No script is restored twice in a run, and the places of those that are restored
are taken then.** -/
theorem runItems_once (clock : Item → Reading) : ∀ {is : List Item} {r : Repository},
    Later s.root p t₀ r.tree → (∀ i ∈ is, i ∈ p.restoring) →
    (restoredPaths (runItems s clock is r).1).Nodup ∧
      ∀ q ∈ restoredPaths (runItems s clock is r).1,
        (∃ i ∈ p.restoring, i.target = q) ∧
          (runItems s clock is r).2.tree.Taken (s.root.join q)
  | [], r, _, _ => by simp [runItems, restoredPaths]
  | i :: is, r, later, inside => by
    obtain ⟨hi, inside'⟩ := List.forall_mem_cons.1 inside
    obtain ⟨later₁, -⟩ := runItem_later aloof later hi (clock i).now (clock i).late
    obtain ⟨restored, sub, -, later₂, frame⟩ := runItems_later aloof clock later₁ inside'
    obtain ⟨nodup, rest⟩ := runItems_once clock later₁ inside'
    rw [runItems]
    rcases runItem_settles made later aloof hi (clock i).now (clock i).late with
      ⟨⟨w, outcome⟩, taken⟩ | ⟨outcome, -⟩ | ⟨outcome, -⟩ | ⟨f, outcome⟩
    · dsimp only
      rw [outcome]
      have fresh := runItems_taken made aloof clock hi later₁ inside' taken
      refine ⟨List.nodup_cons.2 ⟨fresh, nodup⟩, ?_⟩
      refine List.forall_mem_cons.2 ⟨⟨⟨i, hi, rfl⟩, ?_⟩, rest⟩
      exact taken_stays made later₁ later₂ frame (fun j hj => inside' j (sub j hj)) hi taken
    all_goals
      dsimp only
      rw [outcome]
      exact ⟨nodup, rest⟩

/-- **A run in which nothing fails leaves nothing to be done**, except for items that
were skipped as the copy of a restored one was in the way. -/
theorem runItems_settles (clock : Item → Reading) : ∀ {is : List Item} {r : Repository},
    Later s.root p t₀ r.tree → (∀ i ∈ is, i ∈ p.restoring) →
    (∀ x ∈ (runItems s clock is r).1, ∀ f, x.2 ≠ .failed f) → ∀ i ∈ is,
      i.Idle s.root base (runItems s clock is r).2.tree ∨
        (i.target, .skipped .conflict) ∈ (runItems s clock is r).1 ∧
          ∃ j ∈ p.restoring, j.target ∈ restoredPaths (runItems s clock is r).1 ∧
            j.InWay s.root base t₀ i
  | [], r, _, _, _ => by simp
  | i :: is, r, later, inside, fine => by
    obtain ⟨hi, inside'⟩ := List.forall_mem_cons.1 inside
    obtain ⟨later₁, -⟩ := runItem_later aloof later hi (clock i).now (clock i).late
    obtain ⟨restored, sub, paths, later₂, frame⟩ := runItems_later aloof clock later₁ inside'
    have sub' : ∀ j ∈ restored, j ∈ p.restoring := fun j hj => inside' j (sub j hj)
    rw [runItems] at fine ⊢
    dsimp only at fine ⊢
    obtain ⟨fineI, fine'⟩ := List.forall_mem_cons.1 fine
    have rest := runItems_settles clock later₁ inside' fine'
    have more {q : Path} {d : Done} (hq : q ∈ restoredPaths (runItems s clock is
        (runItem s (clock i).now (clock i).late i r).2).1) : q ∈ restoredPaths ((i.target, d) ::
          (runItems s clock is (runItem s (clock i).now (clock i).late i r).2).1) := by
      obtain ⟨w, mem⟩ := mem_restoredPaths.1 hq
      exact mem_restoredPaths.2 ⟨w, List.mem_cons_of_mem _ mem⟩
    refine List.forall_mem_cons.2 ⟨?_, fun k hk => ?_⟩
    · rcases runItem_settles made later aloof hi (clock i).now (clock i).late
        with ⟨-, taken⟩ | ⟨-, gone⟩ | ⟨outcome, taken | barred⟩ | ⟨f, failed⟩
      · exact .inl (.inr (.inl (taken_stays made later₁ later₂ frame sub' hi taken)))
      · exact .inl (.inl (missing_stays made later₁ later₂ frame sub' hi gone))
      · exact .inl (.inr (.inl (taken_stays made later₁ later₂ frame sub' hi taken)))
      · rcases barred_stays made later₁ later₂ frame sub' barred with idle | ⟨j, hj, way⟩
        · exact .inl idle
        · refine .inr ⟨by rw [outcome]; exact List.mem_cons_self, j, sub' j hj, more ?_, way⟩
          rw [paths]
          exact List.mem_map_of_mem hj
      · exact absurd failed (fineI f)
    · rcases rest k hk with idle | ⟨skipped, j, hj, back, way⟩
      · exact .inl idle
      · exact .inr ⟨List.mem_cons_of_mem _ skipped, j, hj, more back, way⟩

end

/-! ### One run after another -/

/-- A run of a plan: what the ledger is like then, in which order the groups are run,
and what the clock shows. -/
structure Pass where
  store : Ledger.Store
  order : List (List Item)
  clock : Item → Reading

/-- Carries out a plan without asking. -/
def Pass.run (s : Restorer) (p : Plan) (x : Pass) (r : Repository) :
    Except RequestFault Report × Repository :=
  { s with store := x.store }.applyIn x.order x.clock p { Options.standard with force := true } r

/-- What becomes of the items of a run. -/
def Pass.items (s : Restorer) (x : Pass) (r : Repository) : List (Path × Done) × Repository :=
  runItems { s with store := x.store } x.clock x.order.flatten r

section

variable (s : Restorer) (p : Plan) (passes : Nat → Pass) (r : Repository)

/-- The repository before the `n`-th run, from 0. -/
def Pass.state : Nat → Repository
  | 0 => r
  | n + 1 => ((passes n).run s p (Pass.state n)).2

/-- What the `n`-th run comes to. -/
def Pass.result (n : Nat) : Except RequestFault Report :=
  ((passes n).run s p (Pass.state s p passes r n)).1

end

/-- What carrying out a plan has skipped. -/
def skippedBy : Except RequestFault Report → List Skipped
  | .ok report => report.skipped
  | .error _ => []

/-- What carrying out a plan could not do. -/
def failedBy : Except RequestFault Report → List Failed
  | .ok report => report.failed
  | .error _ => []

section

variable (s : Restorer) {x : Pass} (r : Repository) (perm : x.order.Perm (groups p))

include perm

/-- A run is that of its items. -/
theorem Pass.run_cases :
    x.items s r = ([], r) ∧ (∃ f, x.run s p r = (.error f, r)) ∨
      x.run s p r = (.ok (.of p (x.items s r).1), (x.items s r).2) := by
  unfold Pass.run Restorer.applyIn
  rw [if_neg (by simp [Options.standard])]
  split
  · next empty =>
    have members := perm.flatten.trans (groups_perm p)
    rw [Plan.restoring, List.isEmpty_iff.1 empty] at members
    left
    rw [Pass.items, List.perm_nil.1 members]
    exact ⟨rfl, _, rfl⟩
  · rw [if_neg (by simp [Options.standard])]
    exact .inr rfl

theorem Pass.run_state : (x.run s p r).2 = (x.items s r).2 := by
  rcases Pass.run_cases s r perm with ⟨none, f, failed⟩ | done
  · rw [failed, none]
  · rw [done]

theorem Pass.run_restored :
    (restoredBy (x.run s p r).1).Perm (restoredPaths (x.items s r).1) := by
  rcases Pass.run_cases s r perm with ⟨none, f, failed⟩ | done
  · rw [failed, none]
    exact .refl _
  · rw [done]
    exact restored_perm p _

theorem Pass.run_failed (clean : failedBy (x.run s p r).1 = []) :
    ∀ y ∈ (x.items s r).1, ∀ f, y.2 ≠ .failed f := by
  rcases Pass.run_cases s r perm with ⟨none, -⟩ | done
  · simp [none]
  · rw [done] at clean
    intro y hy f failed
    have listed : ⟨y.1, f⟩ ∈ (Report.of p (x.items s r).1).failed :=
      (Order.mem_sortBy _ _).2 (List.mem_filterMap.2 ⟨y, hy, by rw [failed]⟩)
    rw [show (Report.of p (x.items s r).1).failed = [] from clean] at listed
    simp at listed

theorem Pass.run_skipped (hq : (q, .skipped .conflict) ∈ (x.items s r).1) :
    ⟨q, .conflict⟩ ∈ skippedBy (x.run s p r).1 := by
  rcases Pass.run_cases s r perm with ⟨none, -⟩ | done
  · simp [none] at hq
  · rw [done]
    exact (Order.mem_sortBy _ _).2 (List.mem_append_right _ (List.mem_filterMap.2 ⟨_, hq, rfl⟩))

theorem Pass.restoring : ∀ i ∈ x.order.flatten, i ∈ p.restoring := fun _ hi =>
  (perm.flatten.trans (groups_perm p)).mem_iff.1 hi

/-- **Where nothing can be done for any item a run does nothing.** -/
theorem Pass.run_idle
    (idle : ∀ i ∈ p.restoring, i.Idle s.root base r.tree) :
    restoredBy (x.run s p r).1 = [] ∧ (x.run s p r).2 = r := by
  obtain ⟨none, still⟩ := runItems_idle (s := { s with store := x.store }) x.clock
    fun i hi => idle i (Pass.restoring perm i hi)
  constructor
  · exact ((Pass.run_restored s r perm).trans (none ▸ .refl _)).eq_nil
  · rw [Pass.run_state s r perm]
    exact still

end

/-- What a plan was made from. -/
theorem Planned.of_plan {c : Criteria} {es : List Entry} (plain : r.tree.Plain)
    (rooted : r.tree.reach [] (Tree.steps s.root.text) = some base)
    (active : s.store.active r = .ok (es.filter Entry.isActive))
    (normal : ∀ e ∈ es, e.original.IsNormal) (planned : s.plan c r = .ok p) :
    Planned s.root base r.tree p := by
  obtain ⟨chosen, sub, items⟩ := plan_items active planned
  have made {i : Item} (hi : i ∈ p.restoring) : i.Ready r.tree s.root ∧ i.target.IsNormal := by
    obtain ⟨inside, restores⟩ := mem_restoring.1 hi
    obtain ⟨e, he, rfl⟩ := List.mem_map.1 (items.mem_iff.1 inside)
    refine ⟨planItem_ready restores, ?_⟩
    rw [Item.target, planItem_entry]
    exact normal e (List.mem_filter.1 (sub.subset he)).1
  exact ⟨plain, rooted, fun i hi => (made hi).1, fun i hi => (made hi).2⟩

section

variable {passes : Nat → Pass} (made : Planned s.root base r.tree p)
variable (orders : ∀ n, (passes n).order.Perm (groups p)) (aloof : ∀ n, (passes n).store.Aloof)

include made orders aloof

/-- Runs lead to later trees. -/
theorem Pass.later : ∀ n, Later s.root p r.tree (Pass.state s p passes r n).tree
  | 0 => .refl made.plain
  | n + 1 => by
    rw [Pass.state, Pass.run_state s _ (orders n)]
    exact (runItems_later (s := { s with store := (passes n).store }) (aloof n) _ (Pass.later n)
      (Pass.restoring (orders n))).choose_spec.2.2.1

/-- What is taken before a run is taken after it. -/
theorem Pass.taken_next (hi : i ∈ p.restoring) {n : Nat}
    (taken : (Pass.state s p passes r n).tree.Taken (s.root.join i.target)) :
    (Pass.state s p passes r (n + 1)).tree.Taken (s.root.join i.target) := by
  have later := Pass.later made orders aloof n
  have inside := Pass.restoring (orders n)
  rw [Pass.state, Pass.run_state s _ (orders n)]
  obtain ⟨restored, sub, -, later', frame⟩ := runItems_later
    (s := { s with store := (passes n).store }) (aloof n) (passes n).clock later inside
  exact taken_stays made later later' frame (fun j hj => inside j (sub j hj)) hi taken

/-- **What was restored in a run is taken in all states after it.** -/
theorem Pass.taken {m : Nat} (hq : q ∈ restoredBy (Pass.result s p passes r m)) :
    (∃ i ∈ p.restoring, i.target = q) ∧
      ∀ n, m < n → (Pass.state s p passes r n).tree.Taken (s.root.join q) := by
  obtain ⟨-, restored⟩ := runItems_once (s := { s with store := (passes m).store }) made
    (aloof m) (passes m).clock (Pass.later made orders aloof m) (Pass.restoring (orders m))
  obtain ⟨⟨i, hi, rfl⟩, taken⟩ :=
    restored q ((Pass.run_restored s _ (orders m)).mem_iff.1 hq)
  refine ⟨⟨i, hi, rfl⟩, fun n hn => ?_⟩
  induction n, hn using Nat.le_induction with
  | base =>
    rw [Pass.state, Pass.run_state s _ (orders m)]
    exact taken
  | succ n _ ih => exact Pass.taken_next made orders aloof hi ih

end

/-- **A plan that is carried out again and again restores no script twice, and a run in
which nothing fails leaves nothing for the next one to do.** So it is whatever
marks the ledger refuses, in any order of the groups, and at any time. An item is
left over only if it was skipped because a file was where its folder has to be and
that file was the copy of an item restored after it. -/
theorem Restorer.passes_settle {c : Criteria} {es : List Entry} {passes : Nat → Pass}
    (plain : r.tree.Plain) (rooted : r.tree.reach [] (Tree.steps s.root.text) = some base)
    (active : s.store.active r = .ok (es.filter Entry.isActive))
    (normal : ∀ e ∈ es, e.original.IsNormal) (planned : s.plan c r = .ok p)
    (orders : ∀ n, (passes n).order.Perm (groups p)) (aloof : ∀ n, (passes n).store.Aloof) :
    (∀ n, (restoredBy (Pass.result s p passes r n)).Nodup) ∧
    (∀ m n, m < n → (restoredBy (Pass.result s p passes r m)).Disjoint
      (restoredBy (Pass.result s p passes r n))) ∧
    ∀ n, failedBy (Pass.result s p passes r n) = [] →
      restoredBy (Pass.result s p passes r (n + 1)) = [] ∧
          Pass.state s p passes r (n + 2) = Pass.state s p passes r (n + 1) ∨
        ∃ i ∈ p.restoring, ∃ j ∈ p.restoring,
          ⟨i.target, .conflict⟩ ∈ skippedBy (Pass.result s p passes r n) ∧
          j.target ∈ restoredBy (Pass.result s p passes r n) ∧ j.InWay s.root base r.tree i := by
  have made := Planned.of_plan plain rooted active normal planned
  have later := Pass.later made orders aloof
  refine ⟨fun n => ?_, fun m n before q hq again => ?_, fun n clean => ?_⟩
  · obtain ⟨nodup, -⟩ := runItems_once (s := { s with store := (passes n).store }) made
      (aloof n) (passes n).clock (later n) (Pass.restoring (orders n))
    exact (Pass.run_restored s _ (orders n)).nodup_iff.2 nodup
  · obtain ⟨⟨i, hi, rfl⟩, taken⟩ := Pass.taken made orders aloof hq
    have never := runItems_taken (s := { s with store := (passes n).store }) made (aloof n)
      (passes n).clock hi (later n) (Pass.restoring (orders n)) (taken n before)
    exact never ((Pass.run_restored s _ (orders n)).mem_iff.1 again)
  · have settled := runItems_settles (s := { s with store := (passes n).store }) made (aloof n)
      (passes n).clock (later n) (Pass.restoring (orders n)) (Pass.run_failed s _ (orders n) clean)
    by_cases idle : ∀ i ∈ p.restoring, i.Idle s.root base (Pass.state s p passes r (n + 1)).tree
    · exact .inl (Pass.run_idle s _ (orders (n + 1)) idle)
    · simp only [not_forall] at idle
      obtain ⟨i, hi, busy⟩ := idle
      rw [Pass.state, Pass.run_state s _ (orders n)] at busy
      have inside := ((orders n).flatten.trans (groups_perm p)).mem_iff.2 hi
      obtain ⟨skipped, j, hj, back, way⟩ := (settled i inside).resolve_left busy
      exact .inr ⟨i, hi, j, hj, Pass.run_skipped s _ (orders n) skipped,
        (Pass.run_restored s _ (orders n)).mem_iff.2 back, way⟩

def leftEntry (script copy : String) : Entry :=
  .fresh ⟨script⟩ ⟨copy⟩ "b1" ⟨⟨2025, 6, 1⟩, 0, 0⟩ ""

/-- The folder of the first script has to be where the copy of the second one is. -/
def leftRepository : Repository where
  tree := ⟨[(["r"], .folder), (["r", "a"], .file 0o644 "1".toByteArray), (["r", "z"], .folder),
    (["r", "z", "x"], .file 0o644 "2".toByteArray)]⟩
  entries := [leftEntry "a/b" "z/x", leftEntry "c" "a"]

def leftRestorer : Restorer := ⟨⟨"/r"⟩, [], .memory⟩

def leftPlan : Plan :=
  ⟨.batch "b1", leftRepository.entries.map (planItem leftRepository.tree ⟨"/r"⟩)⟩

def leftPass : Pass :=
  ⟨.memory, leftPlan.items.map fun i => [i], fun _ => ⟨⟨⟨2025, 6, 2⟩, 0, 0⟩, false⟩⟩

/-- Nothing fails in the first run, and the second one restores what was left over. -/
theorem passes_settle_left :
    leftRestorer.plan (.batch "b1") leftRepository = .ok leftPlan ∧
    restoredBy (Pass.result leftRestorer leftPlan (fun _ => leftPass) leftRepository 0) = [⟨"c"⟩] ∧
    failedBy (Pass.result leftRestorer leftPlan (fun _ => leftPass) leftRepository 0) = [] ∧
    restoredBy (Pass.result leftRestorer leftPlan (fun _ => leftPass) leftRepository 1) =
      [⟨"a/b"⟩] ∧
    List.Disjoint [(⟨"c"⟩ : Path)] [⟨"a/b"⟩] ∧
    ∃ i ∈ leftPlan.restoring, ∃ j ∈ leftPlan.restoring,
      ⟨i.target, .conflict⟩ ∈
        skippedBy (Pass.result leftRestorer leftPlan (fun _ => leftPass) leftRepository 0) ∧
      j.target = ⟨"c"⟩ ∧ j.InWay ⟨"/r"⟩ ["r"] leftRepository.tree i := by
  have sorted : Order.sortBy targetBefore (leftPlan.items.filter fun i => i.action = .restore) =
      leftPlan.items.filter fun i => i.action = .restore :=
    Order.sortBy_of_sorted (by decide +kernel)
  have grouped : leftPass.order = groups leftPlan := by
    rw [groups, sorted]
    decide +kernel
  have planned : leftRestorer.plan (.batch "b1") leftRepository = .ok leftPlan := by
    have selected : leftRestorer.select (.batch "b1") leftRepository =
        .ok leftRepository.entries := by decide +kernel
    rw [Restorer.plan, selected]
    simp only
    rw [Order.sortBy_of_sorted (by decide +kernel)]
    rfl
  have plain : leftRepository.tree.Plain := by
    refine Tree.plain_of_objects ?_ (by decide +kernel)
    simp [leftRepository]
  have normal : ∀ e ∈ leftRepository.entries, e.original.IsNormal := by
    simp only [leftRepository, List.forall_mem_cons]
    exact ⟨rfl, rfl, by simp⟩
  have ran (r : Repository) : leftPass.run leftRestorer leftPlan r =
      (.ok (.of leftPlan (leftPass.items leftRestorer r).1),
        (leftPass.items leftRestorer r).2) := rfl
  have first : (leftPass.items leftRestorer leftRepository).1 =
      [(⟨"a/b"⟩, .skipped .conflict), (⟨"c"⟩, .restored none)] := by decide +kernel
  have second : (leftPass.items leftRestorer (leftPass.items leftRestorer leftRepository).2).1 =
      [(⟨"a/b"⟩, .restored none), (⟨"c"⟩, .skipped .missing)] := by decide +kernel
  have restored : restoredBy (Pass.result leftRestorer leftPlan (fun _ => leftPass)
      leftRepository 0) = [⟨"c"⟩] := by
    rw [Pass.result, ran, Pass.state, first]
    exact Order.sortBy_of_sorted (List.pairwise_singleton _ _)
  have failed : failedBy (Pass.result leftRestorer leftPlan (fun _ => leftPass)
      leftRepository 0) = [] := by
    rw [Pass.result, ran, Pass.state, first]
    exact Order.sortBy_of_sorted .nil
  have again : restoredBy (Pass.result leftRestorer leftPlan (fun _ => leftPass)
      leftRepository 1) = [⟨"a/b"⟩] := by
    rw [Pass.result, ran, Pass.state, ran, Pass.state, second]
    exact Order.sortBy_of_sorted (List.pairwise_singleton _ _)
  have rooted : leftRepository.tree.reach [] (Tree.steps leftRestorer.root.text) = some ["r"] := by
    decide +kernel
  have orders : ∀ n, ((fun _ : Nat => leftPass) n).order.Perm (groups leftPlan) :=
    fun _ => .of_eq grouped
  have aloof : ∀ n, ((fun _ : Nat => leftPass) n).store.Aloof := fun _ => Ledger.Store.memory_aloof
  obtain ⟨-, apart, settled⟩ := Restorer.passes_settle plain rooted rfl normal planned orders aloof
  have disjoint := apart 0 1 Nat.zero_lt_one
  rw [restored, again] at disjoint
  obtain ⟨none, -⟩ | ⟨i, hi, j, hj, skipped, back, way⟩ := settled 0 failed
  · simp [again] at none
  · rw [restored, List.mem_singleton] at back
    exact ⟨planned, restored, failed, again, disjoint, i, hi, j, hj, skipped, back, way⟩

end Restore
end Attic
