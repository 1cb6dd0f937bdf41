import Attic.Proofs.Archive.Batches
import Attic.Proofs.Tree.Moving
import Mathlib

/-!
# What committing a batch does

Each script moves into the folder beside it, and its entry comes to the ledger.
The scripts of a batch do not get in each other's way: none of them has the name
of the folder, so no folder comes where one was.

Key definitions: `Archive.Sited`, `Archive.Sites`, `Archive.Committed`.
Key theorems: `Archive.Committed.cons`, `Archive.commit_committed`.
-/

namespace Attic
namespace Archive

open Ledger (Entry Store)

variable {root : Path} {base : Location} {d : String} {e : Entry} {es : List Entry}
variable {r r₁ r' : Repository} {t t' : Tree} {mode : Nat} {bytes : ByteArray}

/-- An entry whose copy goes into the folder `d` beside the script. -/
structure Sited (root : Path) (d : String) (e : Entry) : Prop where
  names : ∃ ns n a, (∀ b ∈ ns, Path.IsName b) ∧ Path.IsName n ∧ Path.IsName d ∧ Path.IsName a ∧
    e.original = .ofNames (ns ++ [n]) ∧ e.archive = .ofNames (ns ++ [d, a])
  nameable : Tree.Nameable root e.original

theorem Planned.sited {q : Request} {active : List Entry} (plain : t.Plain)
    (hd : Path.IsName q.dirName) (h : Planned q t active e) : Sited q.root q.dirName e := by
  obtain ⟨ns, n, k, hns, hn, original, archive⟩ := h.names
  have normal : e.original.IsNormal := by
    rw [original]
    exact Path.ofNames_isNormal (Path.isName_concat hns hn)
  obtain ⟨base, rooted⟩ := Tree.reach_root plain normal h.file
  refine ⟨⟨ns, n, _, hns, hn, hd, candidateName_isName hns hn q.now.date k, original, ?_⟩,
    ((Tree.isFile_normal plain rooted normal).1 h.file).1⟩
  rw [archive, original]
  exact candidate_ofNames hns hn hd q.now.date k

theorem Sited.archive_isNormal (h : Sited root d e) : e.archive.IsNormal := by
  obtain ⟨ns, n, a, hns, -, hd, ha, -, archive⟩ := h.names
  rw [archive]
  exact Path.ofNames_isNormal (Path.isName_pair hns hd ha)

theorem Sited.normal (h : Sited root d e) : e.Normal := ⟨h.nameable.normal, h.archive_isNormal⟩

/-- A copy can stand at its path if that is not too long. -/
theorem Sited.archive_nameable (h : Sited root d e)
    (fits : Tree.Fits root (e.archive.names?.getD [])) : Tree.Nameable root e.archive := by
  refine ⟨h.archive_isNormal, fun empty => ?_, fits⟩
  obtain ⟨ns, n, a, hns, -, hd, ha, -, archive⟩ := h.names
  have written := Path.isEmpty_ofNames (Path.isName_pair hns hd ha) (by simp)
  rw [← archive, empty] at written
  simp [Path.isEmpty] at written

/-- The names of a script and its copy, and the places they have below a root. -/
structure Sites (root : Path) (base : Location) (d : String) (e : Entry) (ns : List String)
    (n a : String) : Prop where
  above : ∀ b ∈ ns, Path.IsName b
  script : Path.IsName n
  dir : Path.IsName d
  copy : Path.IsName a
  original : e.original = .ofNames (ns ++ [n])
  archive : e.archive = .ofNames (ns ++ [d, a])
  fits : Tree.Fits root (ns ++ [n])
  fromPlace : Tree.placeBelow base e.original = base ++ (ns ++ [n])
  toPlace : Tree.placeBelow base e.archive = base ++ (ns ++ [d, a])
  folder : (Tree.placeBelow base e.archive).dropLast = base ++ (ns ++ [d])

theorem Sited.exists_sites (h : Sited root d e) (base : Location) :
    ∃ ns n a, Sites root base d e ns n a := by
  obtain ⟨ns, n, a, hns, hn, hd, ha, original, archive⟩ := h.names
  have isName := Path.isName_concat hns hn
  have fits := h.nameable.fits
  rw [original, Path.names?_ofNames isName] at fits
  have toPlace : Tree.placeBelow base e.archive = base ++ (ns ++ [d, a]) := by
    rw [archive, Tree.placeBelow_ofNames base (Path.isName_pair hns hd ha)]
  refine ⟨ns, n, a, hns, hn, hd, ha, original, archive, fits, ?_, toPlace, ?_⟩
  · rw [original, Tree.placeBelow_ofNames base isName]
  · rw [toPlace]
    simp

/-- The folder of a copy has the name that the request gives. -/
theorem Sited.folder_getLast? (h : Sited root d e) (base : Location) :
    (Tree.placeBelow base e.archive).dropLast.getLast? = some d := by
  obtain ⟨ns, n, a, sites⟩ := h.exists_sites base
  rw [sites.folder, ← List.append_assoc, List.getLast?_concat]

/-! ### One script -/

/-- **A script that is moved comes to its place in the folder beside it**, and its
name is not that of the folder. -/
theorem Sited.moveFile_ok (h : Sited root d e) (plain : t.Plain)
    (rooted : t.reach [] (Tree.steps root.text) = some base)
    (file : t.get? (Tree.placeBelow base e.original) = some (.file mode bytes))
    (moved : t.moveFile (root.join e.original) (root.join e.archive) = (.ok (), t')) :
    Tree.Nameable root e.archive ∧ t'.Plain ∧
      t.Moves t' (Tree.placeBelow base e.original) (Tree.placeBelow base e.archive).dropLast
        (Tree.placeBelow base e.archive) ∧
      (Tree.placeBelow base e.original).getLast? ≠ some d := by
  obtain ⟨ns, n, a, sites⟩ := h.exists_sites base
  rw [sites.fromPlace] at file
  rw [sites.original, sites.archive] at moved
  obtain ⟨fits', plain', moves⟩ := Tree.moveFile_moves plain rooted sites.above sites.script
    sites.dir sites.copy sites.fits file moved
  rw [sites.folder, sites.fromPlace, sites.toPlace]
  refine ⟨h.archive_nameable ?_, plain', moves, ?_⟩
  · rwa [sites.archive, Path.names?_ofNames (Path.isName_pair sites.above sites.dir sites.copy)]
  · intro same
    refine moves.beside ?_
    rw [← List.append_assoc, List.getLast?_concat] at same
    rw [Option.some.inj same]

/-- **A script that is committed has moved**, its name is not that of the folder,
and its entry is the last of the ledger. -/
theorem commitEntry_moves (plain : r.tree.Plain)
    (rooted : r.tree.reach [] (Tree.steps root.text) = some base) (sited : Sited root d e)
    (file : r.tree.get? (Tree.placeBelow base e.original) = some (.file mode bytes))
    (done : commitEntry root .memory e r = (.ok (), r')) :
    r'.entries = r.entries ++ [e] ∧ Tree.Nameable root e.archive ∧ r'.tree.Plain ∧
      r.tree.Moves r'.tree (Tree.placeBelow base e.original)
        (Tree.placeBelow base e.archive).dropLast (Tree.placeBelow base e.archive) ∧
      (Tree.placeBelow base e.original).getLast? ≠ some d := by
  unfold commitEntry at done
  cases moved : r.tree.moveFile (root.join e.original) (root.join e.archive) with
  | mk result t =>
  simp only [moved] at done
  cases result with
  | error f => simp at done
  | ok =>
  have recorded : r' = { r with tree := t, entries := r.entries ++ [e] } := by
    unfold Store.memory at done
    by_cases active : r.entries.any (Entry.isActiveOf e.original) = true
    · simp [active] at done
    · simp only [active, Bool.false_eq_true, if_false, Prod.mk.injEq, true_and] at done
      exact done.symm
  rw [recorded]
  exact ⟨rfl, sited.moveFile_ok plain rooted file moved⟩

/-! ### A batch -/

theorem stepEach_cons {step : Entry → Repository → Except RequestFault Unit × Repository}
    (done : stepEach step (e :: es) r = (.ok (), r')) :
    ∃ r₁, step e r = (.ok (), r₁) ∧ stepEach step es r₁ = (.ok (), r') := by
  rw [stepEach] at done
  split at done
  · simp at done
  · next r₁ first => exact ⟨r₁, first, done⟩

/-- What committing a batch makes of a tree: the scripts are where their copies go,
nothing is where they were, and elsewhere folders come at most, each of them beside
a script. -/
structure Committed (root : Path) (base : Location) (d : String) (es : List Entry)
    (t t' : Tree) : Prop where
  moved : ∀ e ∈ es, ∃ mode bytes,
    t.get? (Tree.placeBelow base e.original) = some (.file mode bytes) ∧
    t'.get? (Tree.placeBelow base e.archive) = some (.file mode bytes)
  gone : ∀ e ∈ es, t'.get? (Tree.placeBelow base e.original) = none
  nameable : ∀ e ∈ es, Tree.Nameable root e.archive
  named : ∀ e ∈ es, (Tree.placeBelow base e.original).getLast? ≠ some d
  grows : ∀ l, (∀ e ∈ es, l ≠ Tree.placeBelow base e.original ∧
    l ≠ Tree.placeBelow base e.archive) → t.GrowsAt t' l
  beside : ∀ l, (∀ e ∈ es, l ≠ Tree.placeBelow base e.original ∧
    l ≠ Tree.placeBelow base e.archive) → l.getLast? ≠ some d → t'.get? l = t.get? l
  folders : ∀ l, t.get? l = some .folder → t'.get? l = some .folder

/-- The places of an entry are not those of entries apart from it. -/
theorem Sited.elsewhere (h : Sited root d e) (base : Location) (sited : ∀ j ∈ es, Sited root d j)
    (apart : ∀ j ∈ es, e.Apart j) :
    (∀ j ∈ es, Tree.placeBelow base e.original ≠ Tree.placeBelow base j.original ∧
      Tree.placeBelow base e.original ≠ Tree.placeBelow base j.archive) ∧
    ∀ j ∈ es, Tree.placeBelow base e.archive ≠ Tree.placeBelow base j.original ∧
      Tree.placeBelow base e.archive ≠ Tree.placeBelow base j.archive := by
  have places := fun j hj => (apart j hj).places h.normal (sited j hj).normal base
  exact ⟨fun j hj => (places j hj).1, fun j hj => (places j hj).2⟩

theorem Committed.nil (t : Tree) : Committed root base d [] t t :=
  ⟨by simp, by simp, by simp, by simp, fun _ _ => .inl rfl, fun _ _ _ => rfl, fun _ => id⟩

/-- A script that moves before those of a batch does not get in their way. -/
theorem Committed.cons {t₁ : Tree} (rest : Committed root base d es t₁ t') (here : Sited root d e)
    (sited : ∀ j ∈ es, Sited root d j) (apart : ∀ j ∈ es, e.Apart j)
    (nameable : Tree.Nameable root e.archive)
    (named : (Tree.placeBelow base e.original).getLast? ≠ some d)
    (moves : t.Moves t₁ (Tree.placeBelow base e.original)
      (Tree.placeBelow base e.archive).dropLast (Tree.placeBelow base e.archive))
    (files : ∀ j ∈ es, ∃ mode bytes,
      t.get? (Tree.placeBelow base j.original) = some (.file mode bytes)) :
    Committed root base d (e :: es) t t' := by
  obtain ⟨original, archive⟩ := here.elsewhere base sited apart
  refine ⟨fun j hj => ?_, fun j hj => ?_, List.forall_mem_cons.2 ⟨nameable, rest.nameable⟩,
    List.forall_mem_cons.2 ⟨named, rest.named⟩, fun l hl => ?_, fun l hl other => ?_,
    fun l hl => rest.folders l (moves.folders hl)⟩
  · rcases List.mem_cons.1 hj with rfl | hj
    · obtain ⟨mode, bytes, file, copy⟩ := moves.file
      exact ⟨mode, bytes, file, (rest.grows _ archive).keeps copy⟩
    · obtain ⟨mode, bytes, there⟩ := files j hj
      obtain ⟨mode', bytes', file, copy⟩ := rest.moved j hj
      rw [(moves.growsAt (original j hj).1.symm (archive j hj).1.symm).keeps there] at file
      exact ⟨mode', bytes', there.trans file, copy⟩
  · rcases List.mem_cons.1 hj with rfl | hj
    · rw [rest.beside _ original named, moves.gone]
    · exact rest.gone j hj
  · obtain ⟨⟨hl', hl''⟩, others⟩ := List.forall_mem_cons.1 hl
    exact (moves.growsAt hl' hl'').trans (rest.grows l others)
  · obtain ⟨⟨hl', hl''⟩, others⟩ := List.forall_mem_cons.1 hl
    have folder : l ≠ (Tree.placeBelow base e.archive).dropLast := by
      intro same
      rw [same, here.folder_getLast? base] at other
      exact other rfl
    rw [rest.beside l others other, moves.elsewhere l hl' hl'' folder]

/-- **A batch that is committed has moved**, and its entries are the last of the
ledger. -/
theorem commit_committed (plain : r.tree.Plain)
    (rooted : r.tree.reach [] (Tree.steps root.text) = some base)
    (sited : ∀ e ∈ es, Sited root d e) (apart : es.Pairwise Entry.Apart)
    (files : ∀ e ∈ es, ∃ mode bytes,
      r.tree.get? (Tree.placeBelow base e.original) = some (.file mode bytes))
    (done : commit root .memory es r = (.ok (), r')) :
    r'.entries = r.entries ++ es ∧ r'.tree.Plain ∧
      Committed root base d es r.tree r'.tree := by
  induction es generalizing r with
  | nil =>
    obtain rfl : r = r' := (Prod.mk.inj done).2
    exact ⟨by simp, plain, .nil _⟩
  | cons e es ih =>
    obtain ⟨here, sited'⟩ := List.forall_mem_cons.1 sited
    obtain ⟨⟨mode, bytes, file⟩, files'⟩ := List.forall_mem_cons.1 files
    obtain ⟨apartE, apart'⟩ := List.pairwise_cons.1 apart
    obtain ⟨original, archive⟩ := here.elsewhere base sited' apartE
    obtain ⟨r₁, step, done⟩ := stepEach_cons done
    obtain ⟨entries₁, nameable, plain₁, moves, named⟩ :=
      commitEntry_moves plain rooted here file step
    obtain ⟨entries', plain', rest⟩ := ih plain₁
      (Tree.reach_kept (fun _ => moves.folders) _ _ rooted) sited' apart'
      (fun j hj => by
        obtain ⟨mode, bytes, there⟩ := files' j hj
        exact ⟨mode, bytes,
          (moves.growsAt (original j hj).1.symm (archive j hj).1.symm).keeps there⟩) done
    exact ⟨by rw [entries', entries₁, List.append_assoc, List.singleton_append], plain',
      rest.cons here sited' apartE nameable named moves files'⟩

end Archive
end Attic
