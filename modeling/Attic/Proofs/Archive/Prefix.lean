import Attic.Proofs.Archive.RoundTrip
import Attic.Proofs.Tree.Undoing
import Attic.Ledger.Unreliable
import Mathlib

/-!
# Batches that stop

A request fails in one of two ways. Its scripts are looked at before any of them
moves, and if one of them is not fit to be archived nothing has happened. After
that the batch stops at the first script that cannot be moved or recorded: those
before it are where their entries say, it has been moved back, and nothing else
has changed, except that the folder for its copy may have come.

Key definitions: `Ledger.Store.Reluctant`, `Archive.Shifted`.
Key theorems: `Archive.stepEach_error`, `Archive.commitEntry_error`,
`Archive.commit_error`, `Archive.archive_prefix`.
-/

namespace Attic

namespace Ledger

/-- A ledger in memory that can refuse whatever it is asked. -/
structure Store.Reluctant (s : Store) : Prop where
  active : ∀ r, s.active r = Store.memory.active r ∨ ∃ f, s.active r = .error f
  record : ∀ e r, s.record e r = Store.memory.record e r ∨ ∃ f, s.record e r = (.error f, r)

namespace Store

theorem memory_reluctant : memory.Reluctant := ⟨fun _ => .inl rfl, fun _ _ => .inl rfl⟩

/-- A ledger that refuses to record some paths. -/
theorem Reluctant.refusing {s : Store} (h : s.Reluctant) (refused : Path → Bool) :
    (s.refusing refused).Reluctant where
  active := h.active
  record e r := by
    dsimp only [Store.refusing]
    split
    · exact .inr ⟨_, rfl⟩
    · exact h.record e r

theorem offline_reluctant : offline.Reluctant := ⟨fun _ => .inr ⟨_, rfl⟩, fun _ _ => .inr ⟨_, rfl⟩⟩

variable {s : Store} {e : Entry} {r r' : Repository} {f : Fault}

theorem memory_record_ok (h : memory.record e r = (.ok (), r')) :
    r' = { r with entries := r.entries ++ [e] } := by
  dsimp only [memory] at h
  split at h
  · simp at h
  · exact (Prod.mk.inj h).2.symm

theorem memory_record_error (h : memory.record e r = (.error f, r')) : r' = r := by
  dsimp only [memory] at h
  split at h
  · exact (Prod.mk.inj h).2.symm
  · simp at h

namespace Reluctant

/-- What is recorded is recorded in memory. -/
theorem record_ok (h : s.Reluctant) (done : s.record e r = (.ok (), r')) :
    memory.record e r = (.ok (), r') := by
  rcases h.record e r with same | ⟨f, refused⟩
  · rw [← same, done]
  · simp [refused] at done

/-- What is refused changes nothing. -/
theorem record_error (h : s.Reluctant) (failed : s.record e r = (.error f, r')) : r' = r := by
  rcases h.record e r with same | ⟨g, refused⟩
  · exact memory_record_error (same.symm.trans failed)
  · rw [refused] at failed
    exact (Prod.mk.inj failed).2.symm

end Reluctant
end Store
end Ledger

namespace Archive

open Ledger (Entry Store)

variable {root : Path} {base : Location} {d : String} {e : Entry} {es : List Entry}
variable {r r₁ r' : Repository} {t t' : Tree} {mode : Nat} {bytes : ByteArray}
variable {s : Store} {f : RequestFault} {q : Request} {paths : List Path} {l : Location}
variable {step : Entry → Repository → Except RequestFault Unit × Repository}

/-! ### One script -/

/-- The folder for a copy lies in the one that its script is in. -/
theorem Sited.above (h : Sited root d e) (base : Location) (plain : t.Plain)
    (there : t.get? (Tree.placeBelow base e.original) ≠ none) :
    t.get? (Tree.placeBelow base e.archive).dropLast.dropLast = some .folder := by
  obtain ⟨ns, n, a, sites⟩ := h.exists_sites base
  rw [sites.fromPlace, ← List.append_assoc] at there
  rw [sites.folder, ← List.append_assoc, List.dropLast_concat]
  exact plain.in_folder.above (List.cons_ne_nil n []) there

section

variable (sited : Sited root d e) (plain : t.Plain)
variable (rooted : t.reach [] (Tree.steps root.text) = some base)
variable (file : t.get? (Tree.placeBelow base e.original) = some (.file mode bytes))

include sited plain rooted file

/-- A script that cannot be moved stays. -/
theorem Sited.moveFile_error {g : Tree.Fault}
    (failed : t.moveFile (root.join e.original) (root.join e.archive) = (.error g, t')) :
    t'.Plain ∧ t.Opened t' (Tree.placeBelow base e.archive).dropLast := by
  have above := sited.above base plain (by simp [file])
  obtain ⟨ns, n, a, sites⟩ := sited.exists_sites base
  rw [sites.fromPlace] at file
  rw [sites.folder] at above ⊢
  rw [sites.original, sites.archive] at failed
  have opened := Tree.moveFile_error plain rooted sites.above sites.dir sites.copy sites.fits file
    failed
  exact ⟨opened.plain plain (by simp) above, opened⟩

/-- A script that has been moved to a free place can be moved back. -/
theorem Sited.moveFile_back
    (free : Tree.Nameable root e.archive → t.get? (Tree.placeBelow base e.archive) = none ∨
      t.get? (Tree.placeBelow base e.archive) = some .folder)
    (moved : t.moveFile (root.join e.original) (root.join e.archive) = (.ok (), t')) :
    ∃ t₁, t'.moveFile (root.join e.archive) (root.join e.original) = (.ok (), t₁) ∧ t₁.Plain ∧
      t.Opened t₁ (Tree.placeBelow base e.archive).dropLast := by
  obtain ⟨nameable, -, moves, -⟩ := sited.moveFile_ok plain rooted file moved
  have vacant := (free nameable).resolve_right moves.free
  have above := sited.above base plain (by simp [file])
  obtain ⟨ns, n, a, sites⟩ := sited.exists_sites base
  rw [sites.fromPlace] at file
  rw [sites.folder] at above ⊢
  rw [sites.toPlace] at vacant
  rw [sites.original, sites.archive] at moved ⊢
  obtain ⟨t₁, back, opened⟩ := Tree.moveFile_back plain rooted sites.above sites.dir sites.copy
    sites.fits file sites.script vacant moved
  exact ⟨t₁, back, opened.plain plain (by simp) above, opened⟩

end

/-- Why a script is not archived although it is fit to be. -/
def Stops (e : Entry) (f : RequestFault) : Prop :=
  (∃ g, f = .tree e.original g) ∨ ∃ g, f = .ledger g

theorem commitEntry_ok (reluctant : s.Reluctant) (done : commitEntry root s e r = (.ok (), r')) :
    commitEntry root .memory e r = (.ok (), r') := by
  unfold commitEntry at done ⊢
  cases moving : r.tree.moveFile (root.join e.original) (root.join e.archive) with
  | mk result t =>
  simp only [moving] at done
  cases result with
  | error g => simp at done
  | ok =>
  cases recording : s.record e { r with tree := t } with
  | mk result r₁ =>
  simp only [recording] at done
  cases result with
  | error g => simp at done
  | ok =>
    simp only [moving, reluctant.record_ok recording]
    exact done

/-- **A script that is not archived is where it was**, and at most the folder for
its copy has come. -/
theorem commitEntry_error (reluctant : s.Reluctant) (plain : r.tree.Plain)
    (rooted : r.tree.reach [] (Tree.steps root.text) = some base) (sited : Sited root d e)
    (file : r.tree.get? (Tree.placeBelow base e.original) = some (.file mode bytes))
    (free : Tree.Nameable root e.archive →
      r.tree.get? (Tree.placeBelow base e.archive) = none ∨
        r.tree.get? (Tree.placeBelow base e.archive) = some .folder)
    (failed : commitEntry root s e r = (.error f, r')) :
    Stops e f ∧ r'.entries = r.entries ∧ r'.tree.Plain ∧
      r.tree.Opened r'.tree (Tree.placeBelow base e.archive).dropLast := by
  unfold commitEntry at failed
  cases moving : r.tree.moveFile (root.join e.original) (root.join e.archive) with
  | mk result t =>
  simp only [moving] at failed
  cases result with
  | error g =>
    obtain ⟨why, rfl⟩ := Prod.mk.inj failed
    exact ⟨.inl ⟨g, (Except.error.inj why).symm⟩, rfl,
      sited.moveFile_error plain rooted file moving⟩
  | ok =>
  cases recording : s.record e { r with tree := t } with
  | mk result r₁ =>
  simp only [recording] at failed
  cases result with
  | ok => simp at failed
  | error g =>
    obtain rfl := reluctant.record_error recording
    obtain ⟨t₁, back, after⟩ := sited.moveFile_back plain rooted file free moving
    obtain ⟨why, rfl⟩ := Prod.mk.inj failed
    refine ⟨.inr ⟨g, (Except.error.inj why).symm⟩, rfl, ?_⟩
    rw [back]
    exact after

/-! ### A batch -/

/-- Steps that fail stop at one of the entries, after those before it. -/
theorem stepEach_error : ∀ {es : List Entry} {r : Repository},
    stepEach step es r = (.error f, r') → ∃ k e r₁, es[k]? = some e ∧
      stepEach step (es.take k) r = (.ok (), r₁) ∧ step e r₁ = (.error f, r')
  | [], r, h => by simp [stepEach] at h
  | e :: es, r, h => by
    rw [stepEach] at h
    split at h
    · next g r₁ first =>
      obtain ⟨rfl, rfl⟩ : g = f ∧ r₁ = r' := by simpa using h
      exact ⟨0, e, r, rfl, rfl, first⟩
    · next r₁ first =>
      obtain ⟨k, e', r₂, there, before, last⟩ := stepEach_error h
      refine ⟨k + 1, e', r₂, there, ?_, last⟩
      rw [List.take_succ_cons, stepEach, first]
      exact before

theorem commit_ok (reluctant : s.Reluctant) : ∀ {es : List Entry} {r : Repository},
    commit root s es r = (.ok (), r') → commit root .memory es r = (.ok (), r')
  | [], _, done => done
  | e :: es, r, done => by
    obtain ⟨r₁, first, rest⟩ := stepEach_cons done
    rw [commit, stepEach, commitEntry_ok reluctant first]
    exact commit_ok reluctant rest

/-- Nothing changes but the places of the scripts, of their copies and of the folders
for these. -/
theorem commit_elsewhere (plain : r.tree.Plain)
    (rooted : r.tree.reach [] (Tree.steps root.text) = some base)
    (sited : ∀ e ∈ es, Sited root d e) (apart : es.Pairwise Entry.Apart)
    (files : ∀ e ∈ es, ∃ mode bytes,
      r.tree.get? (Tree.placeBelow base e.original) = some (.file mode bytes))
    (done : commit root .memory es r = (.ok (), r'))
    (away : ∀ e ∈ es, l ≠ Tree.placeBelow base e.original ∧ l ≠ Tree.placeBelow base e.archive ∧
      l ≠ (Tree.placeBelow base e.archive).dropLast) : r'.tree.get? l = r.tree.get? l := by
  induction es generalizing r with
  | nil => rw [(Prod.mk.inj done).2]
  | cons e es ih =>
    have here := sited e List.mem_cons_self
    have sited' : ∀ j ∈ es, Sited root d j := fun j hj => sited j (List.mem_cons_of_mem _ hj)
    obtain ⟨apartE, apart'⟩ := List.pairwise_cons.1 apart
    obtain ⟨original, archive⟩ := here.elsewhere base sited' apartE
    obtain ⟨mode, bytes, file⟩ := files e List.mem_cons_self
    obtain ⟨r₁, step, rest⟩ := stepEach_cons done
    obtain ⟨-, -, plain₁, moves, -⟩ := commitEntry_moves plain rooted here file step
    have rooted₁ := Tree.reach_kept (fun _ => moves.folders) _ _ rooted
    obtain ⟨awayO, awayA, awayF⟩ := away e List.mem_cons_self
    rw [ih plain₁ rooted₁ sited' apart' (fun j hj => ?_) rest fun j hj =>
      away j (List.mem_cons_of_mem _ hj), moves.elsewhere l awayO awayA awayF]
    obtain ⟨mode, bytes, script⟩ := files j (List.mem_cons_of_mem _ hj)
    exact ⟨mode, bytes,
      (moves.growsAt (original j hj).1.symm (archive j hj).1.symm).keeps script⟩

/-- A batch that has been committed stays so when a folder for a copy comes. -/
theorem Committed.opened (h : Committed root base d es t t') {u : Tree}
    (opened : t'.Opened u l) (named : l.getLast? = some d) : Committed root base d es t u where
  moved e he := by
    obtain ⟨mode, bytes, script, copy⟩ := h.moved e he
    exact ⟨mode, bytes, script, (opened.grows _).keeps copy⟩
  gone e he := by
    rw [opened.elsewhere _ fun same => h.named e he (by rw [same, named]), h.gone e he]
  nameable := h.nameable
  named := h.named
  grows k hk := (h.grows k hk).trans (opened.grows k)
  beside k hk other := by
    rw [opened.elsewhere k fun same => other (by rw [same, named]), h.beside k hk other]
  folders k folder := (opened.grows k).keeps (h.folders k folder)

/-- The state after the first scripts of a batch have been archived and perhaps one
more has been tried: `es` are archived and `tried` have had folders made for them. -/
structure Halted (q : Request) (base : Location) (es tried : List Entry) (r r' : Repository) : Prop
    extends Stowed q base es r r' where
  made : ∀ l, (∀ e ∈ es, l ≠ Tree.placeBelow base e.original ∧
    l ≠ Tree.placeBelow base e.archive) → r'.tree.get? l = r.tree.get? l ∨
      r.tree.get? l = none ∧ r'.tree.get? l = some .folder ∧
        ∃ e ∈ tried, l = (Tree.placeBelow base e.archive).dropLast

variable {active : List Entry}

theorem Ready.take (h : Ready q base active es t) (k : Nat) :
    Ready q base active (es.take k) t where
  rooted := h.rooted
  planned e he := h.planned e (List.mem_of_mem_take he)
  sited e he := h.sited e (List.mem_of_mem_take he)
  apart := h.apart.sublist (List.take_sublist k es)
  files e he := h.files e (List.mem_of_mem_take he)

/-- Nothing is where the copy of a planned script goes. -/
theorem Ready.vacant (h : Ready q base active es t) (plain : t.Plain) (he : e ∈ es)
    (nameable : Tree.Nameable q.root e.archive) :
    t.get? (Tree.placeBelow base e.archive) = none := by
  by_contra taken
  obtain ⟨o, taken⟩ := Option.ne_none_iff_exists'.1 taken
  have has := Tree.has_normal plain h.rooted nameable taken
  rw [(h.planned e he).free] at has
  exact Bool.noConfusion has

/-- An entry of a batch is apart from those before it. -/
theorem Ready.apart_before (h : Ready q base active es t) {k : Nat} (there : es[k]? = some e) :
    ∀ j ∈ es.take k, e.Apart j := by
  intro j hj
  have pairs := h.apart
  rw [← List.take_append_drop k es] at pairs
  refine ((List.pairwise_append.1 pairs).2.2 j hj e ?_).symm
  exact List.mem_of_getElem? (by rw [List.getElem?_drop, Nat.add_zero, there])

section

variable (ready : Ready q base (r.entries.filter Entry.isActive) es r.tree)
variable (plain : r.tree.Plain) (reluctant : s.Reluctant)

include ready plain reluctant

theorem Ready.halted (done : commit q.root s es r = (.ok (), r')) :
    Halted q base es es r r' := by
  obtain ⟨rooted, planned, sited, apart, files⟩ := ready
  have done := commit_ok reluctant done
  obtain ⟨entries, plain₁, committed⟩ := commit_committed plain rooted sited apart files done
  refine ⟨⟨plain, rooted, planned, sited, apart, entries, plain₁, committed⟩, fun l away => ?_⟩
  rcases committed.grows l away with same | ⟨none, folder⟩
  · exact .inl same
  refine .inr ⟨none, folder, ?_⟩
  by_contra others
  have same := commit_elsewhere plain rooted sited apart files done (l := l) fun e he =>
    ⟨(away e he).1, (away e he).2, fun here => others ⟨e, he, here⟩⟩
  rw [same, none] at folder
  simp at folder

/-- **A batch that stops has been archived up to the script at which it stops.** -/
theorem commit_error (failed : commit q.root s es r = (.error f, r')) :
    ∃ k e, es[k]? = some e ∧ Stops e f ∧ Halted q base (es.take k) (es.take (k + 1)) r r' := by
  obtain ⟨k, e, r₁, there, before, last⟩ := stepEach_error failed
  have first := (ready.take k).halted plain reluctant before
  have mem := List.mem_of_getElem? there
  have here := ready.sited e mem
  obtain ⟨original, archive⟩ := here.elsewhere base (ready.take k).sited (ready.apart_before there)
  obtain ⟨mode, bytes, file⟩ := ready.files e mem
  have free (nameable : Tree.Nameable q.root e.archive) :
      r₁.tree.get? (Tree.placeBelow base e.archive) = none ∨
        r₁.tree.get? (Tree.placeBelow base e.archive) = some .folder := by
    rcases first.committed.grows _ archive with same | ⟨-, folder⟩
    · exact .inl (same.trans (ready.vacant plain mem nameable))
    · exact .inr folder
  obtain ⟨stops, entries, plain', opened⟩ := commitEntry_error reluctant first.plain₁
    first.rooted₁ here ((first.committed.grows _ original).keeps file) free last
  refine ⟨k, e, there, stops, ⟨plain, ready.rooted, (ready.take k).planned, (ready.take k).sited,
    (ready.take k).apart, entries.trans first.entries, plain',
    first.committed.opened opened (here.folder_getLast? base)⟩, fun l away => ?_⟩
  have tried {j : Entry} (hj : j ∈ es.take k) : j ∈ es.take (k + 1) :=
    (List.take_sublist_take_left (Nat.le_succ k)).subset hj
  have last : e ∈ es.take (k + 1) := by
    rw [List.take_add_one, there]
    simp
  by_cases hl : l = (Tree.placeBelow base e.archive).dropLast
  · rcases (first.committed.grows l away).trans (opened.grows l) with same | ⟨none, folder⟩
    · exact .inl same
    · exact .inr ⟨none, folder, e, last, hl⟩
  · rw [opened.elsewhere l hl]
    rcases first.made l away with same | ⟨none, folder, j, hj, place⟩
    · exact .inl same
    · exact .inr ⟨none, folder, j, tried hj, place⟩

end

/-! ### What is found afterwards -/

/-- What has become of a tree when the scripts of `es` have been archived and those
of `tried` have at most had folders made for their copies. -/
structure Shifted (root : Path) (base : Location) (es tried : List Entry) (t t' : Tree) :
    Prop where
  scripts : ∀ e ∈ es, ∃ mode bytes, t.readFile (root.join e.original) = .ok (mode, bytes) ∧
    t'.readFile (root.join e.archive) = .ok (mode, bytes)
  gone : ∀ e ∈ es, t'.has (root.join e.original) = false
  /-- No copy takes the place of anything. -/
  vacant : ∀ e ∈ es, t.has (root.join e.archive) = false
  others : ∀ l, (∀ e ∈ es, l ≠ Tree.placeBelow base e.original ∧
    l ≠ Tree.placeBelow base e.archive) → t'.get? l = t.get? l ∨
      t.get? l = none ∧ t'.get? l = some .folder
  /-- A folder that has come is one for copies, and holds nothing else. -/
  folders : ∀ l, t.get? l = none → t'.get? l = some .folder →
    (∃ e ∈ tried, l = (Tree.placeBelow base e.archive).dropLast) ∧
    ∀ name, t'.get? (l ++ [name]) ≠ none → ∃ e ∈ es, l ++ [name] = Tree.placeBelow base e.archive

theorem Halted.shifted {tried : List Entry} (h : Halted q base es tried r r')
    (ready : Ready q base active tried r.tree) : Shifted q.root base es tried r.tree r'.tree where
  scripts e he := h.exists_file he
  gone e he := Tree.has_eq_false h.plain₁ h.rooted₁ (h.sited e he).nameable (h.committed.gone e he)
  vacant e he := (h.planned e he).free
  others := h.committed.grows
  folders l none folder := by
    have place : ∃ e ∈ tried, l = (Tree.placeBelow base e.archive).dropLast := by
      have away : ∀ e ∈ es, l ≠ Tree.placeBelow base e.original ∧
          l ≠ Tree.placeBelow base e.archive := by
        refine fun e he => ⟨?_, ?_⟩
        · rintro rfl
          simp [h.committed.gone e he] at folder
        · rintro rfl
          obtain ⟨mode, bytes, -, copy⟩ := h.committed.moved e he
          simp [copy] at folder
      rcases h.made l away with same | ⟨-, -, made⟩
      · rw [same, none] at folder
        simp at folder
      · exact made
    refine ⟨place, fun name there => ?_⟩
    -- nothing was in the folder before, and no folder comes in one that comes
    have before : r.tree.get? (l ++ [name]) = Option.none := by
      by_contra was
      have := h.plain.in_folder _ (by simp) was
      rw [List.dropLast_concat, none] at this
      simp at this
    by_contra others
    have away : ∀ e ∈ es, l ++ [name] ≠ Tree.placeBelow base e.original ∧
        l ++ [name] ≠ Tree.placeBelow base e.archive := by
      refine fun e he => ⟨fun same => ?_, fun same => others ⟨e, he, same⟩⟩
      rw [same, h.committed.gone e he] at there
      exact there rfl
    rcases h.made _ away with same | ⟨-, -, e, he, same⟩
    · exact there (same.trans before)
    · obtain ⟨mode, bytes, file⟩ := ready.files e he
      have above := (ready.sited e he).above base h.plain (by simp [file])
      rw [← same, List.dropLast_concat, none] at above
      simp at above

/-! ### The request -/

/-- Why a request is refused before anything moves. -/
def Unfit (s : Store) (r : Repository) (f : RequestFault) : Prop :=
  (∃ p, f = .notAFile p) ∨ (∃ p, f = .ledger (.alreadyActive p)) ∨
    ∃ g, s.active r = .error g ∧ f = .ledger g

theorem planScripts_error : ∀ {paths : List Path} {planned : List Entry},
    planScripts q t active planned paths = .error f →
      (∃ p, f = .notAFile p) ∨ ∃ p, f = .ledger (.alreadyActive p)
  | [], _, h => by simp [planScripts] at h
  | p :: paths, planned, h => by
    unfold planScripts at h
    split at h
    · next g first =>
      obtain rfl := Except.error.inj h
      unfold planScript at first
      split at first
      · exact .inl ⟨_, (Except.error.inj first).symm⟩
      split at first
      · exact .inl ⟨_, (Except.error.inj first).symm⟩
      split at first
      · exact .inl ⟨_, (Except.error.inj first).symm⟩
      split at first
      · exact .inr ⟨_, (Except.error.inj first).symm⟩
      · simp at first
    · exact planScripts_error h

theorem sampleRepository_plain : sampleRepository.tree.Plain := by
  refine Tree.plain_of_objects ?_ (by decide +kernel)
  simp [sampleRepository]

theorem sampleRequest_isName : Path.IsName sampleRequest.dirName :=
  ⟨by decide, by decide, by decide, by decide⟩

/-- A ledger that refuses the second script of the sample. -/
def sampleStore : Store := Store.memory.refusing fun p => p = ⟨"m/b"⟩

end Archive
end Attic
