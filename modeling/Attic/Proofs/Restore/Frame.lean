import Attic.Proofs.Restore.Endings
import Attic.Proofs.Restore.Planning
import Attic.Proofs.Tree.Places
import Mathlib

/-!
# What a run leaves alone

Carrying out a plan never writes over anything. What was in the tree is there
afterwards as it was, but for the copies of what was restored, and what has come
are restored scripts and folders for planned ones. The tree may have links, also
such that lead nowhere; the plan may have been made long before; and whatever the
ledger refuses is rolled back.

Key definitions: `Ledger.Store.Aloof`, `Restore.Frame`.
Key theorems: `Restore.Frame.trans`, `Restore.runItem_frame`,
`Restore.runItems_frame`, `Restore.Restorer.applyIn_frame`.
-/

namespace Attic

namespace Ledger

/-- A store whose marks do not change the tree. -/
def Store.Aloof (s : Store) : Prop :=
  ∀ path moment r, (s.markRestored path moment r).2.tree = r.tree

theorem Store.memory_aloof : Store.memory.Aloof := by
  intro path moment r
  simp only [memory]
  split <;> rfl

theorem Store.Aloof.tree {s : Store} (aloof : s.Aloof) {path : Path} {moment : Timestamp}
    {r r' : Repository} {result : Except Fault Unit}
    (marked : s.markRestored path moment r = (result, r')) : r'.tree = r.tree := by
  rw [← aloof path moment r, marked]

/-- So it stays where some marks are refused. -/
theorem Store.Aloof.refusing {s : Store} (aloof : s.Aloof) (refused : Path → Bool) :
    (Store.refusing refused s).Aloof := by
  intro path moment r
  simp only [Store.refusing]
  split
  · rfl
  · exact aloof path moment r

end Ledger

namespace Restore

variable {s : Restorer} {root : Path} {planned done done' : List Item} {i : Item} {t t' u : Tree}
variable {r r' : Repository} {now : Timestamp} {clock : Item → Reading} {p : Plan} {o : Options}
variable {gs : List (List Item)} {l : Location} {name : String} {mode : Nat} {bytes : ByteArray}
variable {late : Bool}

/-! ### Frames -/

/-- What a run may change: the copies of restored items go, and restored scripts
come, with folders for planned ones. -/
structure Frame (root : Path) (planned restored : List Item) (t t' : Tree) : Prop where
  /-- Paths lead where they led. -/
  steady : t.Steady t'
  /-- What was there is there, unless it was the copy of a restored item. -/
  kept : ∀ l o, t.get? l = some o → t'.get? l = some o ∨
    o ≠ .folder ∧ ∃ i ∈ restored, t'.placeOf? false (root.join i.entry.archive) = some l
  /-- What is there was there, or it is a restored script or a folder above a planned
  one. -/
  came : ∀ l o, t'.get? l = some o → t.get? l = some o ∨
    (∃ mode bytes, o = .file mode bytes) ∧
      (∃ i ∈ restored, t'.placeOf? false (root.join i.target) = some l) ∨
    o = .folder ∧ ∃ i ∈ planned, ∃ q, (root.join i.target).Above q ∧ t'.placeOf? false q = some l

namespace Frame

theorem of_same (same : ∀ l, t'.get? l = t.get? l) : Frame root planned done t t' :=
  ⟨.of_same same, fun l o there => .inl (by rw [same, there]),
    fun l o there => .inl (by rw [← same, there])⟩

theorem mono (h : Frame root planned done t t') (sub : ∀ i ∈ done, i ∈ done') :
    Frame root planned done' t t' := by
  refine ⟨h.steady, fun l o there => ?_, fun l o there => ?_⟩
  · rcases h.kept l o there with still | ⟨noFolder, i, hi, copy⟩
    · exact .inl still
    · exact .inr ⟨noFolder, i, sub i hi, copy⟩
  · rcases h.came l o there with old | ⟨file, i, hi, script⟩ | folder
    · exact .inl old
    · exact .inr (.inl ⟨file, i, sub i hi, script⟩)
    · exact .inr (.inr folder)

/-- **One run after another.** -/
theorem trans (h : Frame root planned done t t') (h' : Frame root planned done t' u) :
    Frame root planned done t u := by
  refine ⟨h.steady.trans h'.steady, fun l o there => ?_, fun l o there => ?_⟩
  · rcases h.kept l o there with still | ⟨noFolder, i, hi, copy⟩
    · exact h'.kept l o still
    · exact .inr ⟨noFolder, i, hi, h'.steady _ _ copy⟩
  · rcases h'.came l o there with old | new
    · rcases h.came l o old with older | ⟨file, i, hi, script⟩ | ⟨folder, i, hi, q, above, place⟩
      · exact .inl older
      · exact .inr (.inl ⟨file, i, hi, h'.steady _ _ script⟩)
      · exact .inr (.inr ⟨folder, i, hi, q, above, h'.steady _ _ place⟩)
    · exact .inr new

/-- The folders for a script. -/
theorem opened (grounded : t.Grounded) (hi : i ∈ planned) :
    Frame root planned done t (t.makeParent (root.join i.target)).2 := by
  obtain ⟨-, grows⟩ := grounded.makeParent_grows (root.join i.target)
  refine ⟨.of_grows grows, fun l o there => .inl ((grows l).keeps there), fun l o there => ?_⟩
  rcases grows l with same | ⟨none, folder⟩
  · exact .inl (same ▸ there)
  · have new : (t.makeParent (root.join i.target)).2.get? l ≠ t.get? l := by simp [none, folder]
    exact .inr (.inr ⟨Option.some.inj (there.symm.trans folder), i, hi,
      Tree.makeParent_places grounded _ new⟩)

/-- A script where nothing was. -/
theorem placed (spot : t.spot false false (root.join i.target) = .ok (.vacant l name))
    (hi : i ∈ done) : Frame root planned done t (t.set (l ++ [name]) (.file mode bytes)) := by
  have free := Tree.free_of_spot spot
  have steady : t.Steady (t.set (l ++ [name]) (.file mode bytes)) := .set_file free
  refine ⟨steady, fun k o there => .inl ?_, fun k o there => ?_⟩
  · rw [Tree.get?_set_other, there]
    rintro rfl
    simp [free] at there
  · by_cases here : k = l ++ [name]
    · subst here
      rw [Tree.get?_set_same (by simp)] at there
      exact .inr (.inl ⟨⟨_, _, (Option.some.inj there).symm⟩, i, hi,
        steady _ _ (Tree.placeOf?_eq_some.2 ⟨_, spot, rfl⟩)⟩)
    · rw [Tree.get?_set_other here] at there
      exact .inl there

/-- A copy that can be read is removed. -/
theorem removed (grounded : t.Grounded) (hi : i ∈ done)
    (read : t.readFile (root.join i.entry.archive) = .ok (mode, bytes)) :
    (t.removeFile (root.join i.entry.archive)).2.Grounded ∧
      Frame root planned done t (t.removeFile (root.join i.entry.archive)).2 := by
  obtain ⟨slash, -⟩ := Tree.spot_of_readFile read
  rcases Tree.removeFile_cases t slash with ⟨f, failed⟩ | ⟨m, o, spot, noFolder, done⟩
  · rw [failed]
    exact ⟨grounded, .of_same fun _ => rfl⟩
  rw [done]
  have there : t.get? m = some o := grounded.spot_holds spot
  have steady : t.Steady (t.erase m) := .erase there noFolder fun target link =>
    Tree.dead_of_readFile read (link ▸ spot)
  have written : m ≠ [] := Tree.ne_nil_of_get? (t := t) (by simpa [there] using noFolder)
  refine ⟨grounded.erase (by simpa [there] using noFolder), steady, fun k o' there' => ?_,
    fun k o' there' => .inl ?_⟩
  · by_cases here : k = m
    · subst here
      obtain rfl := Option.some.inj (there.symm.trans there')
      exact .inr ⟨noFolder, i, hi, steady _ _ (Tree.placeOf?_eq_some.2 ⟨_, spot, rfl⟩)⟩
    · exact .inl (by rw [Tree.get?_erase_other here, there'])
  · rwa [Tree.get?_erase_other] at there'
    rintro rfl
    simp [Tree.get?_erase_same written] at there'

end Frame

/-! ### Items -/

/-- What was put in a vacant place is removed again by its path. -/
theorem removeFile_of_vacant {path : Path} (slash : Tree.endsWithSlash path.text = false)
    (spot : t.spot false false path = .ok (.vacant l name)) (k : Location) :
    ((t.set (l ++ [name]) (.file mode bytes)).removeFile path).2.get? k = t.get? k := by
  have free := Tree.free_of_spot spot
  have stays : t.Stays [] [] (t.set (l ++ [name]) (.file mode bytes)) :=
    .set_file (by simp) (by simp [free])
  have found := Tree.spot_reads stays spot (.filled (Tree.get?_set_same (by simp)) (by simp))
  rw [Tree.removeFile, slash, found]
  by_cases here : k = l ++ [name]
  · subst here
    exact (Tree.get?_erase_same (by simp)).trans free.symm
  · exact (Tree.get?_erase_other here).trans (Tree.get?_set_other here)

/-- What an item does to the tree, by its ending. -/
theorem Ends.frame {d : Done} (ends : Ends s now late i r d r') (aloof : s.store.Aloof)
    (grounded : r.tree.Grounded) (hi : i ∈ planned) : r'.tree.Grounded ∧
      ((∀ w, d ≠ .restored w) ∧ Frame s.root planned [] r.tree r'.tree ∨
        (∃ w, d = .restored w) ∧ Frame s.root planned [i] r.tree r'.tree) := by
  obtain ⟨grounded₁, grows⟩ := grounded.makeParent_grows (s.root.join i.target)
  have opened {done : List Item} : Frame s.root planned done r.tree
      (r.tree.makeParent (s.root.join i.target)).2 := .opened grounded hi
  cases ends with
  | late | missing => exact ⟨grounded, .inl ⟨by simp, .of_same fun _ => rfl⟩⟩
  | conflict _ placed | blocked _ placed =>
    rw [Tree.placeCopy_error placed]
    exact ⟨grounded₁, .inl ⟨by simp, opened⟩⟩
  | @refused _ _ r₁ _ placed marked =>
    obtain ⟨l, name, mode, bytes, -, spot, slash, rfl⟩ := Tree.placeCopy_ok placed
    have unmarked := aloof.tree marked
    -- what was put back is taken away again, which leaves the folders only
    have same : ∀ k, (r₁.tree.removeFile (s.root.join i.target)).2.get? k =
        (r.tree.makeParent (s.root.join i.target)).2.get? k := by
      rw [unmarked]
      exact removeFile_of_vacant slash spot
    exact ⟨grounded₁.congr same, .inl ⟨by simp, opened.trans (.of_same same)⟩⟩
  | @restored _ r₁ w copy placed marked =>
    obtain ⟨l, name, mode, bytes, -, spot, -, rfl⟩ := Tree.placeCopy_ok placed
    have unmarked := aloof.tree marked
    obtain ⟨folder, free⟩ := grounded₁.spot_holds spot
    have grounded₂ := grounded₁.set (o := .file mode bytes) (by simp : l ++ [name] ≠ [])
      (by rwa [List.dropLast_concat]) (by simp [free])
    -- the copy can still be read where the script has been put back
    have kept : ∀ k o, r.tree.get? k = some o → r₁.tree.get? k = some o := by
      intro k o there
      have there₁ := (grows k).keeps there
      rw [unmarked, Tree.get?_set_other, there₁]
      rintro rfl
      simp [free] at there₁
    obtain ⟨m, b, read⟩ := Tree.isFile_iff.1 copy
    have hi' : i ∈ [i] := List.mem_singleton_self i
    obtain ⟨grounded₃, removal⟩ : _ ∧ Frame s.root planned [i] _ _ :=
      Frame.removed (unmarked ▸ grounded₂) hi' (Tree.readFile_kept grounded kept read)
    have placement : Frame s.root planned [i]
        (r.tree.makeParent (s.root.join i.target)).2 r₁.tree := by
      rw [unmarked]
      exact .placed spot hi'
    exact ⟨grounded₃, .inr ⟨⟨w, rfl⟩, (opened.trans placement).trans removal⟩⟩

/-- **What an item does to the tree.** -/
theorem runItem_frame (aloof : s.store.Aloof) (grounded : r.tree.Grounded) (hi : i ∈ planned)
    (now : Timestamp) (late : Bool) : (runItem s now late i r).2.tree.Grounded ∧
      ((∀ w, (runItem s now late i r).1 ≠ .restored w) ∧
          Frame s.root planned [] r.tree (runItem s now late i r).2.tree ∨
        (∃ w, (runItem s now late i r).1 = .restored w) ∧
          Frame s.root planned [i] r.tree (runItem s now late i r).2.tree) :=
  (runItem_ends s now late i r).frame aloof grounded hi

/-! ### Runs -/

theorem runItems_frame (aloof : s.store.Aloof) (clock : Item → Reading) : ∀ {is : List Item}
    {r : Repository}, r.tree.Grounded → (∀ i ∈ is, i ∈ planned) → ∃ restored : List Item,
      restored.Sublist is ∧ restoredPaths (runItems s clock is r).1 = restored.map Item.target ∧
        (runItems s clock is r).2.tree.Grounded ∧
        Frame s.root planned restored r.tree (runItems s clock is r).2.tree
  | [], r, grounded, _ => ⟨[], .slnil, rfl, grounded, .of_same fun _ => rfl⟩
  | i :: is, r, grounded, inside => by
    obtain ⟨grounded₁, first⟩ := runItem_frame aloof grounded (inside i List.mem_cons_self)
      (clock i).now (clock i).late
    obtain ⟨restored, sub, paths, grounded', rest⟩ := runItems_frame aloof clock grounded₁
      fun j hj => inside j (List.mem_cons_of_mem _ hj)
    rcases first with ⟨outcome, frame⟩ | ⟨outcome, frame⟩
    · refine ⟨restored, sub.cons i, ?_, grounded', (frame.mono (by simp)).trans rest⟩
      rw [runItems, restoredPaths_of_ne outcome, paths]
    · refine ⟨i :: restored, sub.cons_cons i, ?_, grounded', (frame.mono (by simp)).trans
        (rest.mono fun j hj => List.mem_cons_of_mem _ hj)⟩
      rw [runItems, restoredPaths_of_restored outcome, paths, List.map_cons]

/-- The paths that carrying out a plan has restored. -/
def restoredBy : Except RequestFault Report → List Path
  | .ok report => report.restored
  | .error _ => []

/-- **Carrying out a plan overwrites nothing**, with any options, in any order of its
groups, and whatever the ledger refuses: all that was in the tree is there as it
was, but for the copies of the items that the report has as restored, and all that
has come are their scripts and folders above planned ones. -/
theorem Restorer.applyIn_frame {result : Except RequestFault Report} (aloof : s.store.Aloof)
    (grounded : r.tree.Grounded) (perm : gs.Perm (groups p))
    (run : s.applyIn gs clock p o r = (result, r')) :
    r'.tree.Grounded ∧ ∃ restored : List Item, restored.Subperm p.restoring ∧
      (restored.map Item.target).Perm (restoredBy result) ∧
      Frame s.root p.restoring restored r.tree r'.tree := by
  have members := perm.flatten.trans (groups_perm p)
  have idle : r.tree.Grounded ∧ ∃ restored : List Item, restored.Subperm p.restoring ∧
      (restored.map Item.target).Perm [] ∧ Frame s.root p.restoring restored r.tree r.tree :=
    ⟨grounded, [], List.nil_subperm, .refl _, .of_same fun _ => rfl⟩
  unfold Restorer.applyIn at run
  split at run
  · obtain ⟨rfl, rfl⟩ := Prod.mk.inj run
    exact idle
  split at run
  · obtain ⟨rfl, rfl⟩ := Prod.mk.inj run
    exact idle
  split at run
  · obtain ⟨rfl, rfl⟩ := Prod.mk.inj run
    exact idle
  obtain ⟨rfl, rfl⟩ := Prod.mk.inj run
  obtain ⟨restored, sub, paths, grounded', frame⟩ :=
    runItems_frame aloof clock grounded fun i hi => members.mem_iff.1 hi
  exact ⟨grounded', restored, sub.subperm.trans members.subperm,
    paths ▸ (restored_perm p _).symm, frame⟩

def liveEntry (script copy : String) : Ledger.Entry :=
  .fresh ⟨script⟩ ⟨copy⟩ "b1" ⟨⟨2025, 6, 1⟩, 0, 0⟩ ""

/-- The copy of the first script is a link, and where the last one was there is a
link that leads nowhere. -/
def liveTree : Tree :=
  ⟨[(["r"], .folder), (["r", "n"], .link "nowhere"), (["r", "z"], .folder),
    (["r", "z", "v"], .file 0o644 "v".toByteArray), (["r", "z", "w"], .file 0o644 "w".toByteArray),
    (["r", "z", "x"], .link "w"), (["r", "z", "y"], .file 0o644 "y".toByteArray)]⟩

def liveRepository : Repository :=
  ⟨liveTree, [liveEntry "a" "z/x", liveEntry "d/e" "z/y", liveEntry "n" "z/v"]⟩

/-- The second script is refused by the ledger. -/
def liveRestorer : Restorer := ⟨⟨"/r"⟩, [], .refusing (·.same ⟨"d/e"⟩) .memory⟩

/-- A plan that was made before the link came. -/
def livePlan : Plan :=
  ⟨.batch "b1", liveRepository.entries.map (planItem (liveTree.erase ["r", "n"]) ⟨"/r"⟩)⟩

def liveReading : Reading := ⟨⟨⟨2025, 6, 2⟩, 0, 0⟩, false⟩

/-- One script comes, its copy goes, and a folder is left of another one. -/
theorem applyIn_frame_live : ∃ report r',
    liveRestorer.applyIn (groups livePlan) (fun _ => liveReading) livePlan
      ⟨false, true, none, false⟩ liveRepository = (.ok report, r') ∧
    report.restored = [⟨"a"⟩] ∧ report.skipped = [⟨⟨"n"⟩, .conflict⟩] ∧
    r'.tree = ⟨[(["r"], .folder), (["r", "n"], .link "nowhere"), (["r", "z"], .folder),
      (["r", "z", "v"], .file 0o644 "v".toByteArray),
      (["r", "z", "w"], .file 0o644 "w".toByteArray),
      (["r", "z", "y"], .file 0o644 "y".toByteArray), (["r", "a"], .file 0o644 "w".toByteArray),
      (["r", "d"], .folder)]⟩ ∧
    ∃ restored : List Item, (restored.map Item.target).Perm [⟨"a"⟩] ∧
      Frame ⟨"/r"⟩ livePlan.restoring restored liveTree r'.tree := by
  have grouped : groups livePlan = livePlan.items.map fun i => [i] := by
    rw [groups, Order.sortBy_of_sorted (by decide +kernel)]
    decide +kernel
  have grounded : liveTree.Grounded :=
    Tree.WellFormed.grounded ⟨by decide, by decide, by decide +kernel⟩
  have flat : (groups livePlan).flatten = livePlan.items := by
    rw [grouped]
    rfl
  have done : (runItems liveRestorer (fun _ => liveReading) (groups livePlan).flatten
      liveRepository).1 = [(⟨"a"⟩, .restored none),
        (⟨"d/e"⟩, .failed (.ledger Ledger.Store.refusal true)), (⟨"n"⟩, .skipped .conflict)] := by
    rw [flat]
    decide +kernel
  have run : liveRestorer.applyIn (groups livePlan) (fun _ => liveReading) livePlan
      ⟨false, true, none, false⟩ liveRepository = (.ok (.of livePlan _), _) := rfl
  have restored : (Report.of livePlan (runItems liveRestorer (fun _ => liveReading)
      (groups livePlan).flatten liveRepository).1).restored = [⟨"a"⟩] := by
    rw [done]
    exact Order.sortBy_of_sorted (List.pairwise_singleton _ _)
  obtain ⟨-, items, -, targets, frame⟩ := Restorer.applyIn_frame
    (Ledger.Store.memory_aloof.refusing _) grounded .rfl run
  refine ⟨_, _, run, restored, ?_, ?_, items, restored ▸ targets, frame⟩
  · rw [done]
    exact Order.sortBy_of_sorted (by decide +kernel)
  · rw [flat]
    decide +kernel

end Restore
end Attic
