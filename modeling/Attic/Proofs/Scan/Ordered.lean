import Attic.Proofs.Reference.Merging
import Attic.Proofs.Scan.Walk
import Attic.Proofs.Tree.Staying
import Mathlib

/-!
# The order of what a scan reports

Findings go up by script, file, line, kind and text, whatever was scanned. Warnings
are sorted where something is archived that has a normal form, as then files are read
and their warnings come with those of the walk. Where nothing is, no file is read and
the warnings of the walk stay as they are: one for each root that names nothing, in the
order in which the roots are given.

Key theorems: `Scan.walkRoot_fault_iff`, `Scan.Scanner.warned_eq`,
`Scan.Scanner.scan_ordered_iff`.
-/

namespace Attic

/-! ### Paths that name something -/

namespace Tree

variable {t : Tree} {p : Path} {into must : Bool} {l : Location} {o : Object}

theorem found_eq_ok_iff {s : Except Fault Spot} : found s = .ok (l, o) ↔ s = .ok (.found l o) := by
  rcases s with f | s
  · simp [found]
  · cases s <;> simp [found]

theorem has_iff : t.has p = true ↔
    ∃ l o, found (t.spot true (endsWithSlash p.text) p) = .ok (l, o) := by
  unfold has look
  cases found (t.spot true (endsWithSlash p.text) p) with
  | error f => simp [Except.map]
  | ok there => simp [Except.map, Prod.ext_iff]

/-- What a path names is there also when a link at its end is not followed. -/
theorem found_plain (h : found (t.spot true must p) = .ok (l, o)) :
    ∃ l o, found (t.spot false must p) = .ok (l, o) := by
  obtain ⟨fault, way⟩ := spot_eq_ok (found_eq_ok_iff.1 h)
  obtain ⟨l', o', way'⟩ := (walk_eq_ok.1 way).plain id
  exact ⟨l', o', found_eq_ok_iff.2 (spot_of_walk fault (walk_eq_ok.2 way'))⟩

/-- What is found at the end of a path, unless it is a link, is also found when links
are followed. -/
theorem found_into (other : ∀ target, o ≠ .link target)
    (h : found (t.spot false must p) = .ok (l, o)) : found (t.spot true must p) = .ok (l, o) := by
  obtain ⟨fault, way⟩ := spot_eq_ok (found_eq_ok_iff.1 h)
  exact found_eq_ok_iff.2 (spot_of_walk fault (walk_into other way))

end Tree

namespace Scan

open Attic.Order (Ascends ByKey)
open Reference (Finding normalForms)

variable {t : Tree} {root start : Path} {e : Excludes}

/-! ### Roots -/

/-- **A root can be walked unless it names nothing.** -/
theorem walkRoot_fault_iff : (∃ f, walkRoot t root e start = .error f) ↔ t.has start = false := by
  unfold walkRoot
  rw [← Bool.not_eq_true, Tree.has_iff]
  cases plain : Tree.found (t.spot false (Tree.endsWithSlash start.text) start) with
  | error f =>
    simp only [Except.error.injEq, exists_eq', true_iff, not_exists]
    intro l o there
    obtain ⟨l', o', there'⟩ := Tree.found_plain there
    rw [plain] at there'
    simp at there'
  | ok there =>
    obtain ⟨l, o⟩ := there
    cases o with
    | file mode bytes => simp [Tree.found_into (by simp) plain]
    | folder => simp [Tree.found_into (by simp) plain]
    | link target =>
      cases Tree.found (t.spot true (Tree.endsWithSlash start.text) start) with
      | error f => simp
      | ok there =>
        obtain ⟨l', o'⟩ := there
        cases o' <;> simp

/-- The warnings of a walk are of the roots that name nothing, in their order. -/
theorem Scanner.warned_eq (s : Scanner) (t : Tree) (roots dirs : List Path) :
    (s.files t roots dirs).2.map Warning.path =
      (roots.filter fun r => !t.has (Settings.resolve s.root r)).map fun r =>
        seenFrom s.root (Settings.resolve s.root r) := by
  unfold files
  simp only [List.filterMap_map, List.map_filterMap]
  induction roots with
  | nil => rfl
  | cons r roots ih =>
    have walk : (∃ f, walkRoot t s.root (Excludes.of dirs s.globs) (Settings.resolve s.root r) =
        .error f) ↔ t.has (Settings.resolve s.root r) = false := walkRoot_fault_iff
    rw [List.filterMap_cons, List.filter_cons, ih]
    simp only [Function.comp_apply]
    rw [show (if r.isAbsolute = true then r else s.root.join r) =
      Settings.resolve s.root r from rfl]
    cases read : walkRoot t s.root (Excludes.of dirs s.globs) (Settings.resolve s.root r) with
    | error f =>
      rw [walk.1 ⟨f, read⟩]
      rfl
    | ok files =>
      have there : t.has (Settings.resolve s.root r) = true := by
        rw [← Bool.not_eq_false, ← walk, read]
        simp
      rw [there]
      rfl

/-! ### Warnings -/

theorem WarningKind.rank_injective : Function.Injective rank := by
  intro a b h
  cases a <;> cases b <;> simp_all [rank]

/-- Warnings sort by path, kind and message. -/
theorem Warning.before_byKey : ByKey before fun w : Warning =>
    toLex (w.path.key, toLex (w.kind.rank, w.message)) := by
  intro a b
  simp only [before, Prod.Lex.toLex_lt_toLex]
  rw [Order.lex_iff (Path.before_byKey _ _) (Path.before_byKey _ _)]
  by_cases kind : a.kind = b.kind
  · simp [kind]
  · have rank : a.kind.rank ≠ b.kind.rank := fun h => kind (WarningKind.rank_injective h)
    simp [kind, rank]

theorem isEmpty_ofPaths_iff {archived : List Path} :
    (Reference.Index.ofPaths archived).isEmpty = true ↔ normalForms archived = [] := by
  rw [Reference.Index.isEmpty, List.isEmpty_iff, List.eq_nil_iff_forall_not_mem,
    List.eq_nil_iff_forall_not_mem]
  simp only [Reference.mem_ofPaths, Reference.mem_normalForms]

/-- **Findings are always in order, warnings where something is archived.** Findings go
up by script, file, line, kind and text. Warnings are sorted by path if something is
archived that has a normal form, and otherwise if and only if the roots that name
nothing are given in order. -/
theorem Scanner.scan_ordered_iff (s : Scanner) (t : Tree) (archived roots dirs : List Path) :
    Ascends Finding.key (s.scan t archived roots dirs).findings ∧
    (Path.Ascending ((s.scan t archived roots dirs).warnings.map Warning.path) ↔
      normalForms archived ≠ [] ∨
        Path.Ascending ((roots.filter fun r => !t.has (Settings.resolve s.root r)).map fun r =>
          seenFrom s.root (Settings.resolve s.root r))) := by
  constructor
  · rw [scan_findings]
    split
    · exact .nil
    · exact Order.ascends_sortDistinct Finding.before_byKey _
  · unfold scan
    dsimp only
    by_cases nothing : normalForms archived = []
    · rw [if_pos (isEmpty_ofPaths_iff.2 nothing), s.warned_eq]
      simp [nothing]
    · rw [if_neg (mt isEmpty_ofPaths_iff.1 nothing)]
      exact iff_of_true (Path.ascending_sortBy Warning.before_byKey _) (.inl nothing)

/-- Two roots that name nothing, given in another order than that of their paths, when
nothing is archived. -/
theorem scan_ordered_iff_missing :
    ((Scanner.standard ⟨"/r"⟩).scan ⟨[(["r"], .folder)]⟩ [] [⟨"zz"⟩, ⟨"aa"⟩] []).warnings.map
      Warning.path = [⟨"zz"⟩, ⟨"aa"⟩] ∧
    ¬ Path.Ascending (((Scanner.standard ⟨"/r"⟩).scan ⟨[(["r"], .folder)]⟩ []
      [⟨"zz"⟩, ⟨"aa"⟩] []).warnings.map Warning.path) := by
  have unsorted := (Scanner.scan_ordered_iff (.standard ⟨"/r"⟩) ⟨[(["r"], .folder)]⟩ []
    [⟨"zz"⟩, ⟨"aa"⟩] []).2
  refine ⟨by decide +kernel, fun sorted => ?_⟩
  rcases unsorted.1 sorted with some | sorted
  · exact absurd some (by decide +kernel)
  · unfold Path.Ascending at sorted
    exact absurd sorted (by decide +kernel)

end Scan
end Attic
