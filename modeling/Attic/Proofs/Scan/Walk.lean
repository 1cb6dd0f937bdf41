import Attic.Proofs.Order.Merged
import Attic.Proofs.Path.Below
import Attic.Scan.Files
import Mathlib

/-!
# The files that a walk comes to

A walk goes from a start along names down to a file. It gets there if the
objects before the file are folders and no exclusion holds of one of them or of
the file, and it needs no names if the start is a file itself. Exclusions only
keep a walk from files: what cannot be walked does not depend on them. One more
exclusion takes the files whose way leads through a folder that it leaves out.

Key definitions: `Scan.Between`, `Scan.Stands`,
`Scan.Excludes.Lets`, `Scan.leavesOut`, `Scan.Avoids`, `Scan.Scanner.ComesTo`,
`Scan.Scanner.Finds`, `Scan.Scanner.FindsApart`.
Key theorems: `Scan.mem_walked`, `Scan.Excludes.lets_concat`,
`Scan.Scanner.mem_files`, `Scan.Scanner.mem_files_concat`,
`Scan.Scanner.files_warnings`.
-/

namespace Attic
namespace Scan

variable {t : Tree} {root start f p : Path} {e : Excludes} {place l : Location}
variable {ns names : List String} {dirs roots : List Path} {globs : List Glob.Pattern}

/-! ### Ways -/

/-- Whether names stop on the way that others go. -/
structure Between (ns names : List String) : Prop where
  begun : ns ≠ []
  along : ns <+: names
  before : ns ≠ names

theorem not_between_single {n : String} : ¬ Between ns [n] := by
  intro h
  have long := h.along.length_le
  cases ns with
  | nil => exact h.begun rfl
  | cons m ns =>
    obtain rfl : ns = [] := by simpa using long
    exact h.before (by simpa using h.along)

theorem between_cons {n m : String} : Between ns (n :: m :: names) ↔
    ns = [n] ∨ ∃ ks, ns = n :: ks ∧ Between ks (m :: names) := by
  constructor
  · rintro ⟨begun, along, before⟩
    cases ns with
    | nil => exact absurd rfl begun
    | cons k ks =>
      obtain ⟨rfl, along'⟩ := List.cons_prefix_cons.1 along
      by_cases hks : ks = []
      · exact .inl (by rw [hks])
      · exact .inr ⟨ks, rfl, hks, along', fun same => before (by rw [same])⟩
  · rintro (rfl | ⟨ks, rfl, between⟩)
    · exact ⟨by simp, by simp, by simp⟩
    · exact ⟨by simp, List.cons_prefix_cons.2 ⟨rfl, between.along⟩,
        fun same => between.before (List.cons.inj same).2⟩

/-- The folder below which a walk reads. -/
def folderOf? (t : Tree) (start : Path) : Option Location :=
  match Tree.found (t.spot false (Tree.endsWithSlash start.text) start) with
  | .ok (l, .folder) => some l
  | .ok (_, .link _) =>
    match Tree.found (t.spot true (Tree.endsWithSlash start.text) start) with
    | .ok (l, .folder) => some l
    | _ => none
  | _ => none

/-- Whether names lead from a start through folders to a file. -/
inductive Stands (t : Tree) (start : Path) : List String → Prop
  | itself {l : Location} {mode : Nat} {bytes : ByteArray}
      (file : Tree.found (t.spot false (Tree.endsWithSlash start.text) start) =
        .ok (l, .file mode bytes)) : Stands t start []
  | below {place : Location} {names : List String} {mode : Nat} {bytes : ByteArray}
      (folder : folderOf? t start = some place) (begun : names ≠ [])
      (file : (place ++ names, .file mode bytes) ∈ t.objects)
      (folders : ∀ ns, Between ns names → t.get? (place ++ ns) = some .folder) :
      Stands t start names

/-- Whether exclusions hold of nothing on a way. They do not count at its
start. -/
structure Excludes.Lets (e : Excludes) (root start : Path) (names : List String) : Prop where
  folders : ∀ ns, Between ns names → e.holds (seenFrom root (start.down ns)) true = false
  file : names ≠ [] → e.holds (seenFrom root (start.down names)) false = false

/-! ### One root -/

theorem pathsDown_last (hne : names ≠ []) : ∀ (start : Path) (place : Location),
    (pathsDown start place names).getLast? = some (start.down names, place ++ names) := by
  induction names with
  | nil => exact absurd rfl hne
  | cons n names ih =>
    intro start place
    by_cases h : names = []
    · subst h
      rfl
    · rw [pathsDown, List.getLast?_cons, ih h, Option.getD_some, List.append_assoc]
      rfl

theorem isReached_cons {rest : List (Path × Location)} (hne : rest ≠ []) :
    isReached t root e ((p, l) :: rest) = true ↔ t.get? l = some .folder ∧
      e.holds (seenFrom root p) true = false ∧ isReached t root e rest = true := by
  obtain ⟨q, rest, rfl⟩ := List.exists_cons_of_ne_nil hne
  rw [isReached, Bool.and_eq_true, Bool.and_eq_true, Bool.not_eq_true', and_assoc]
  refine and_congr_left' ?_
  cases t.get? l with
  | none => simp
  | some o => cases o <;> simp

theorem pathsDown_ne_nil (hne : names ≠ []) : pathsDown start place names ≠ [] := by
  cases names with
  | nil => exact absurd rfl hne
  | cons n names => simp [pathsDown]

theorem Excludes.lets_cons {n m : String} : e.Lets root start (n :: m :: names) ↔
    e.holds (seenFrom root (start.join ⟨n⟩)) true = false ∧
      e.Lets root (start.join ⟨n⟩) (m :: names) := by
  constructor
  · rintro ⟨folders, file⟩
    refine ⟨folders [n] (between_cons.2 (.inl rfl)), fun ks b => ?_, fun _ => ?_⟩
    · rw [← Path.down_cons]
      exact folders _ (between_cons.2 (.inr ⟨ks, rfl, b⟩))
    · rw [← Path.down_cons]
      exact file (by simp)
  · rintro ⟨first, folders, file⟩
    refine ⟨fun ns b => ?_, fun _ => ?_⟩
    · obtain rfl | ⟨ks, rfl, later⟩ := between_cons.1 b
      · exact first
      · rw [Path.down_cons]
        exact folders ks later
    · rw [Path.down_cons]
      exact file (by simp)

/-- A way is gone to its end if it leads through folders and nothing on it is
left out. -/
theorem isReached_iff : ∀ {names : List String} (start : Path) (place : Location), names ≠ [] →
    (isReached t root e (pathsDown start place names) = true ↔
      (∀ ns, Between ns names → t.get? (place ++ ns) = some .folder) ∧ e.Lets root start names)
  | [], _, _, hne => absurd rfl hne
  | [n], start, place, _ => by
    have alone : isReached t root e (pathsDown start place [n]) =
        !e.holds (seenFrom root (start.down [n])) false := rfl
    rw [alone, Bool.not_eq_true']
    refine ⟨fun h => ⟨fun ns b => absurd b not_between_single, ?_⟩, fun h => h.2.file (by simp)⟩
    exact ⟨fun ns b => absurd b not_between_single, fun _ => h⟩
  | n :: m :: names, start, place, _ => by
    rw [pathsDown, isReached_cons (pathsDown_ne_nil (by simp)), isReached_iff _ _ (by simp),
      Excludes.lets_cons]
    constructor
    · rintro ⟨folder, kept, folders, lets⟩
      refine ⟨fun ns b => ?_, kept, lets⟩
      obtain rfl | ⟨ks, rfl, later⟩ := between_cons.1 b
      · exact folder
      · simpa using folders ks later
    · rintro ⟨folders, kept, lets⟩
      refine ⟨folders [n] (between_cons.2 (.inl rfl)), kept, fun ks b => ?_, lets⟩
      simpa using folders _ (between_cons.2 (.inr ⟨ks, rfl, b⟩))

theorem mem_filesBelow (start : Path) (place : Location) : f ∈ filesBelow t root e start place ↔
    ∃ names mode bytes, names ≠ [] ∧ (place ++ names, .file mode bytes) ∈ t.objects ∧
      (∀ ns, Between ns names → t.get? (place ++ ns) = some .folder) ∧
      e.Lets root start names ∧ f = seenFrom root (start.down names) := by
  unfold filesBelow
  rw [List.mem_filterMap]
  constructor
  · rintro ⟨⟨l, o⟩, inside, h⟩
    cases o with
    | folder => simp at h
    | link target => simp at h
    | file mode bytes =>
      simp only at h
      split at h
      · next below =>
        simp only [Bool.and_eq_true, List.isPrefixOf_iff_prefix, decide_eq_true_eq] at below
        obtain ⟨⟨names, rfl⟩, more⟩ := below
        have hne : names ≠ [] := by
          rintro rfl
          simp at more
        rw [List.drop_left] at h
        split at h
        · next reached =>
          rw [pathsDown_last hne] at h
          obtain ⟨folders, lets⟩ := (isReached_iff start place hne).1 reached
          exact ⟨names, mode, bytes, hne, inside, folders, lets, (Option.some.inj h).symm⟩
        · simp at h
      · simp at h
  · rintro ⟨names, mode, bytes, hne, inside, folders, lets, rfl⟩
    refine ⟨_, inside, ?_⟩
    have below : (place.isPrefixOf (place ++ names) && place ++ names ≠ place) = true := by
      simpa using hne
    have reached := (isReached_iff start place hne).2 ⟨folders, lets⟩
    simp only [below, if_true, List.drop_left, reached, pathsDown_last hne, Option.map_some]

theorem walkRoot_of_folder (folder : folderOf? t start = some place) (root : Path)
    (e : Excludes) : walkRoot t root e start = .ok (filesBelow t root e start place) := by
  unfold folderOf? at folder
  unfold walkRoot
  split at folder
  · next there =>
    obtain rfl := Option.some.inj folder
    rw [there]
  · next link =>
    rw [link]
    split at folder
    · next there =>
      obtain rfl := Option.some.inj folder
      simp only [there]
    · simp at folder
  · simp at folder

/-- A start that is no folder is read itself, or nothing is, whatever is left out. -/
theorem walkRoot_of_no_folder (none : folderOf? t start = none) (root : Path) (e : Excludes) :
    (∃ l mode bytes, Tree.found (t.spot false (Tree.endsWithSlash start.text) start) =
        .ok (l, .file mode bytes) ∧ walkRoot t root e start = .ok [seenFrom root start]) ∨
      walkRoot t root e start = .ok [] ∨
      ∃ fault, ∀ e', walkRoot t root e' start = .error fault := by
  unfold walkRoot
  cases plain : Tree.found (t.spot false (Tree.endsWithSlash start.text) start) with
  | error fault => exact .inr (.inr ⟨fault, fun _ => rfl⟩)
  | ok there =>
    obtain ⟨l, o⟩ := there
    cases o with
    | file mode bytes => exact .inl ⟨l, mode, bytes, rfl, rfl⟩
    | folder => simp [folderOf?, plain] at none
    | link target =>
      cases through : Tree.found (t.spot true (Tree.endsWithSlash start.text) start) with
      | error fault => exact .inr (.inr ⟨fault, fun _ => rfl⟩)
      | ok there =>
        obtain ⟨l', o⟩ := there
        cases o with
        | file mode bytes => exact .inr (.inl rfl)
        | folder => simp [folderOf?, plain, through] at none
        | link target => exact .inr (.inl rfl)

/-- What the walk of one root reads. -/
def walked (t : Tree) (root : Path) (e : Excludes) (start : Path) : List Path :=
  match walkRoot t root e start with
  | .ok files => files
  | .error _ => []

/-- **A walk comes to the files to which a way leads on which nothing is left
out.** -/
theorem mem_walked : f ∈ walked t root e start ↔
    ∃ names, Stands t start names ∧ e.Lets root start names ∧
      f = seenFrom root (start.down names) := by
  cases folder : folderOf? t start with
  | some place =>
    rw [walked, walkRoot_of_folder folder]
    simp only [mem_filesBelow]
    constructor
    · rintro ⟨names, mode, bytes, begun, file, folders, lets, rfl⟩
      exact ⟨names, .below folder begun file folders, lets, rfl⟩
    · rintro ⟨names, stands, lets, rfl⟩
      cases stands with
      | itself file => simp [folderOf?, file] at folder
      | @below place' _ mode bytes folder' begun file folders =>
        obtain rfl := Option.some.inj (folder'.symm.trans folder)
        exact ⟨names, mode, bytes, begun, file, folders, lets, rfl⟩
  | none =>
    constructor
    · intro inside
      rw [walked] at inside
      obtain ⟨l, mode, bytes, file, read⟩ | read | ⟨fault, read⟩ :=
        walkRoot_of_no_folder folder root e
      · rw [read] at inside
        obtain rfl := List.mem_singleton.1 inside
        have lets : e.Lets root start [] :=
          ⟨fun ns b => absurd b.along (by simpa using b.begun), by simp⟩
        exact ⟨[], .itself file, lets, rfl⟩
      · simp [read] at inside
      · simp [read] at inside
    · rintro ⟨names, stands, -, rfl⟩
      cases stands with
      | itself file => simp [walked, walkRoot, file, Path.down]
      | below folder' => simp [folder] at folder'

/-- Whether a root can be walked does not depend on what is left out. -/
theorem walkRoot_fault (e e' : Excludes) {fault : Tree.Fault}
    (h : walkRoot t root e start = .error fault) : walkRoot t root e' start = .error fault := by
  cases folder : folderOf? t start with
  | some place => simp [walkRoot_of_folder folder] at h
  | none =>
    obtain ⟨l, mode, bytes, -, read⟩ | read | ⟨fault', read⟩ := walkRoot_of_no_folder folder root e
    · simp [read] at h
    · simp [read] at h
    · rw [read e', ← read e, h]

/-- A walk looks at exclusions only to ask whether they hold. -/
theorem walkRoot_congr {e e' : Excludes}
    (same : ∀ p isFolder, e.holds p isFolder = e'.holds p isFolder) :
    walkRoot t root e start = walkRoot t root e' start := by
  have reached : ∀ way, isReached t root e way = isReached t root e' way := by
    intro way
    induction way with
    | nil => rfl
    | cons q rest ih =>
      cases rest with
      | nil => rw [isReached, isReached, same]
      | cons q' rest => rw [isReached, isReached, same, ih]
  have below (l : Location) : filesBelow t root e start l = filesBelow t root e' start l := by
    unfold filesBelow
    simp only [reached]
  unfold walkRoot
  simp only [below]

/-! ### One more exclusion -/

/-- Whether an exclusion leaves a folder out, by its name or by its place. -/
def leavesOut (dir p : Path) : Bool :=
  let d := dir.normalize?.getD dir
  if d.components.length = 1 then p.fileName?.any fun name => d.same ⟨name⟩ else d.same p

theorem Excludes.holds_eq (e : Excludes) (p : Path) (isFolder : Bool) : e.holds p isFolder =
    (isFolder && ((e.names.any fun d => p.fileName?.any fun name => d.same ⟨name⟩) ||
      e.places.any fun d => d.same p) || e.globs.any fun g => g.accepts p.chars) := by
  unfold holds
  cases p.fileName? with
  | some name => rfl
  | none =>
    have unnamed : (e.names.any fun _ => false) = false := List.any_eq_false.2 (by simp)
    simp only [Option.any_none, unnamed]

theorem Excludes.holds_of (dirs : List Path) (globs : List Glob.Pattern) (p : Path)
    (isFolder : Bool) : (Excludes.of dirs globs).holds p isFolder =
      (isFolder && dirs.any (fun d => leavesOut d p) || globs.any fun g => g.accepts p.chars) := by
  have byDir : (((Excludes.of dirs globs).names.any fun d => p.fileName?.any fun name =>
        d.same ⟨name⟩) || (Excludes.of dirs globs).places.any fun d => d.same p) =
      dirs.any fun d => leavesOut d p := by
    rw [Bool.eq_iff_iff]
    simp only [of, Bool.or_eq_true, List.any_eq_true, List.mem_filter, List.mem_map,
      decide_eq_true_eq]
    constructor
    · rintro (⟨_, ⟨⟨d, hd, rfl⟩, one⟩, named⟩ | ⟨_, ⟨⟨d, hd, rfl⟩, more⟩, same⟩)
      · exact ⟨d, hd, by rw [leavesOut, if_pos one, named]⟩
      · exact ⟨d, hd, by rw [leavesOut, if_neg more, same]⟩
    · rintro ⟨d, hd, out⟩
      unfold leavesOut at out
      dsimp only at out
      split at out
      · next one => exact .inl ⟨_, ⟨⟨d, hd, rfl⟩, one⟩, out⟩
      · next more => exact .inr ⟨_, ⟨⟨d, hd, rfl⟩, more⟩, out⟩
  rw [holds_eq, byDir]
  rfl

/-- Whether a way leads through no folder that an exclusion leaves out. -/
def Avoids (dir root start : Path) (names : List String) : Prop :=
  ∀ ns, Between ns names → leavesOut dir (seenFrom root (start.down ns)) = false

/-- One more exclusion takes the files behind the folders that it leaves out. -/
theorem Excludes.lets_concat (dirs : List Path) (dir : Path) (globs : List Glob.Pattern) :
    (Excludes.of (dirs ++ [dir]) globs).Lets root start names ↔
      (Excludes.of dirs globs).Lets root start names ∧ Avoids dir root start names := by
  have folder (p : Path) : (Excludes.of (dirs ++ [dir]) globs).holds p true = false ↔
      (Excludes.of dirs globs).holds p true = false ∧ leavesOut dir p = false := by
    simp only [holds_of, List.any_append, List.any_cons, List.any_nil, Bool.or_false,
      Bool.true_and, Bool.or_eq_false_iff]
    exact and_right_comm
  have file (p : Path) : (Excludes.of (dirs ++ [dir]) globs).holds p false =
      (Excludes.of dirs globs).holds p false := by
    simp only [holds_of, Bool.false_and]
  constructor
  · rintro ⟨folders, last⟩
    refine ⟨⟨fun ns b => ((folder _).1 (folders ns b)).1, fun hne => ?_⟩,
      fun ns b => ((folder _).1 (folders ns b)).2⟩
    rw [← file]
    exact last hne
  · rintro ⟨⟨folders, last⟩, kept⟩
    refine ⟨fun ns b => (folder _).2 ⟨folders ns b, kept ns b⟩, fun hne => ?_⟩
    rw [file]
    exact last hne

/-- An exclusion that is there already takes nothing more. -/
theorem Excludes.Lets.avoids {dir : Path} (lets : (Excludes.of dirs globs).Lets root start names)
    (inside : dir ∈ dirs) : Avoids dir root start names := by
  intro ns b
  have kept := lets.folders ns b
  rw [holds_of, Bool.true_and, Bool.or_eq_false_iff, List.any_eq_false] at kept
  simpa using kept.1 dir inside

/-! ### All roots -/

/-- What a scan reads of one root, and how it is come to. -/
structure Scanner.ComesTo (s : Scanner) (t : Tree) (dirs : List Path) (start : Path)
    (names : List String) (f : Path) : Prop where
  stands : Stands t start names
  lets : (Excludes.of dirs s.globs).Lets s.root start names
  seen : (seenFrom s.root (start.down names)).same f = true

/-- Whether a scan comes to a file from one of its roots. -/
def Scanner.Finds (s : Scanner) (t : Tree) (roots dirs : List Path) (f : Path) : Prop :=
  ∃ r ∈ roots, ∃ names, s.ComesTo t dirs (Settings.resolve s.root r) names f

/-- Whether a scan comes to a file on a way through no folder that one more
exclusion leaves out. -/
def Scanner.FindsApart (s : Scanner) (t : Tree) (roots dirs : List Path) (dir f : Path) : Prop :=
  ∃ r ∈ roots, ∃ names, s.ComesTo t dirs (Settings.resolve s.root r) names f ∧
    Avoids dir s.root (Settings.resolve s.root r) names

theorem Scanner.files_eq (s : Scanner) (t : Tree) (roots dirs : List Path) :
    (s.files t roots dirs).1 = Order.sortDistinct Path.before (roots.flatMap fun r =>
      walked t s.root (Excludes.of dirs s.globs) (Settings.resolve s.root r)) := by
  simp only [files, List.flatMap_map]
  rfl

/-- The files of a scan sort up, each once. -/
theorem Scanner.files_ascends (s : Scanner) (t : Tree) (roots dirs : List Path) :
    Order.Ascends Path.key (s.files t roots dirs).1 := by
  rw [files_eq]
  exact Order.ascends_sortDistinct Path.before_byKey _

/-- A scan of one root reads what is walked of it. -/
theorem Scanner.files_single {s : Scanner} {r : Path} {files : List Path}
    (walk : walkRoot t s.root (Excludes.of dirs s.globs) (Settings.resolve s.root r) = .ok files)
    (up : Order.Ascends Path.key files) : s.files t [r] dirs = (files, []) := by
  have read : walked t s.root (Excludes.of dirs s.globs) (Settings.resolve s.root r) = files := by
    rw [walked, walk]
  refine Prod.ext ?_ ?_
  · rw [files_eq, List.flatMap_singleton, read]
    exact Order.sortDistinct_of_ascends Path.before_byKey up
  · unfold Settings.resolve at walk
    simp only [Scanner.files, List.map_cons, List.map_nil, List.filterMap_cons, walk,
      List.filterMap_nil]

/-- **A scan reads the files that it comes to from one of its roots.** -/
theorem Scanner.mem_files (s : Scanner) (t : Tree) (roots dirs : List Path) (f : Path) :
    (∃ g ∈ (s.files t roots dirs).1, g.same f = true) ↔ s.Finds t roots dirs f := by
  rw [files_eq]
  constructor
  · rintro ⟨g, hg, same⟩
    have read := List.mem_mergeSort.1 (Order.mem_of_mem_dropRepeats hg)
    obtain ⟨r, hr, came⟩ := List.mem_flatMap.1 read
    obtain ⟨names, stands, lets, rfl⟩ := mem_walked.1 came
    exact ⟨r, hr, names, stands, lets, same⟩
  · rintro ⟨r, hr, names, stands, lets, seen⟩
    have came := mem_walked.2 ⟨names, stands, lets, rfl⟩
    have read : seenFrom s.root ((Settings.resolve s.root r).down names) ∈ roots.flatMap fun r =>
        walked t s.root (Excludes.of dirs s.globs) (Settings.resolve s.root r) :=
      List.mem_flatMap.2 ⟨r, hr, came⟩
    obtain ⟨g, hg, key⟩ := Order.exists_mem_sortDistinct Path.before_byKey read
    exact ⟨g, hg, Path.same_trans (Path.same_of_key key) seen⟩

/-- With one more exclusion a scan reads the files to which a way is left. -/
theorem Scanner.mem_files_concat (s : Scanner) (t : Tree) (roots dirs : List Path) (dir f : Path) :
    (∃ g ∈ (s.files t roots (dirs ++ [dir])).1, g.same f = true) ↔
      s.FindsApart t roots dirs dir f := by
  rw [mem_files]
  refine exists_congr fun r => and_congr_right fun _ => exists_congr fun names => ?_
  constructor
  · rintro ⟨stands, lets, seen⟩
    obtain ⟨kept, avoids⟩ := (Excludes.lets_concat _ _ _).1 lets
    exact ⟨⟨stands, kept, seen⟩, avoids⟩
  · rintro ⟨⟨stands, kept, seen⟩, avoids⟩
    exact ⟨stands, (Excludes.lets_concat _ _ _).2 ⟨kept, avoids⟩, seen⟩

/-- An exclusion that is given twice counts once. -/
theorem Scanner.files_concat_of_mem {s : Scanner} {dir : Path} (inside : dir ∈ dirs) :
    s.files t roots (dirs ++ [dir]) = s.files t roots dirs := by
  have same (p : Path) (isFolder : Bool) : (Excludes.of (dirs ++ [dir]) s.globs).holds p isFolder =
      (Excludes.of dirs s.globs).holds p isFolder := by
    have twice : (dirs ++ [dir]).any (fun d => leavesOut d p) =
        dirs.any fun d => leavesOut d p := by
      rw [Bool.eq_iff_iff, List.any_append, Bool.or_eq_true, List.any_eq_true]
      refine ⟨fun out => out.elim id fun out => ⟨dir, inside, by simpa using out⟩, .inl⟩
    rw [Excludes.holds_of, Excludes.holds_of, twice]
  unfold files
  simp only [walkRoot_congr same]

/-- What could not be walked does not depend on what is left out. -/
theorem Scanner.files_warnings (s : Scanner) (t : Tree) (roots dirs dirs' : List Path) :
    (s.files t roots dirs).2 = (s.files t roots dirs').2 := by
  unfold files
  simp only [List.filterMap_map]
  refine List.filterMap_congr fun r _ => ?_
  simp only [Function.comp_apply]
  generalize (if r.isAbsolute then r else s.root.join r) = start
  cases h : walkRoot t s.root (Excludes.of dirs s.globs) start with
  | error fault => rw [walkRoot_fault _ (Excludes.of dirs' s.globs) h]
  | ok files =>
    cases h' : walkRoot t s.root (Excludes.of dirs' s.globs) start with
    | ok files' => rfl
    | error fault => simp [walkRoot_fault _ (Excludes.of dirs s.globs) h'] at h

end Scan
end Attic
