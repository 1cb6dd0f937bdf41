import Attic.Catalog.Check
import Attic.Proofs.Order.Distinct
import Attic.Proofs.Path.Names
import Mathlib

/-!
# What checking a catalog looks at

Commands are checked by whether their files are there, by what the checker says
of their shell entries, and by the archived paths. Two trees that agree on these
give the same validation. A shell entry is checked under one spelling, however many
commands write it in their own way, so that the issues of a pipeline with it are all
alike; of these the first is reported.

Key definition: `Catalog.Steady`.
Key theorems: `Catalog.validate_congr`, `Catalog.steady_shellVerdict?`,
`Catalog.exists_issue`, `Catalog.mem_issues`, `Catalog.isArchived_iff`.
-/

namespace Attic

theorem Path.same_congr {p q : Path} (same : p.same q = true) (r : Path) :
    r.same p = r.same q := by
  rw [Path.same, Path.same, Path.same_iff.1 same]

namespace Catalog

variable {check : Checker} {t t' : Tree} {root p q : Path} {cs : List Command} {c d : Command}
variable {paths archived : List Path} {i j : Issue} {is : List Issue} {x : Problem}
variable {verdict : Path → Option Verdict}

/-! ### Spellings -/

/-- A shell entry is checked as one of the commands spells it. -/
theorem exists_spelling (hc : c ∈ cs) :
    ∃ d ∈ cs, shellSpelling cs c.shell = d.shell ∧ d.shell.same c.shell = true := by
  unfold shellSpelling
  split
  · next d found =>
    have same := List.find?_some found
    exact ⟨d, List.mem_reverse.1 (List.mem_of_find?_eq_some found), rfl, same⟩
  · exact ⟨c, hc, rfl, Path.same_refl _⟩

theorem shellSpelling_congr (hd : d ∈ cs) (same : c.shell.same d.shell = true) :
    shellSpelling cs c.shell = shellSpelling cs d.shell := by
  have found : (cs.reverse.find? fun e => e.shell.same c.shell) =
      cs.reverse.find? fun e => e.shell.same d.shell := by
    simp only [Path.same_congr same]
  unfold shellSpelling
  rw [found]
  split
  · rfl
  · next none =>
    have other := List.find?_eq_none.1 none d (List.mem_reverse.2 hd)
    exact absurd (Path.same_refl d.shell) other

theorem shellSpelling_eq (normal : ∀ c ∈ cs, c.shell.IsNormal) (hc : c ∈ cs) :
    shellSpelling cs c.shell = c.shell := by
  obtain ⟨d, hd, spelled, same⟩ := exists_spelling hc
  rw [spelled, (normal d hd).eq_of_same (normal c hc) same]

/-! ### Trees that agree -/

/-- **Trees that agree on the files of a catalog give the same validation.** -/
theorem validate_congr
    (shells : ∀ c ∈ cs, shellVerdict? check t root c.shell = shellVerdict? check t' root c.shell)
    (implementations : ∀ c ∈ cs, ∀ p, c.implementation = some p →
      t.isFile (root.join p) = t'.isFile (root.join p)) :
    validate check t root cs paths = validate check t' root cs paths := by
  have verdicts : ∀ c ∈ cs, shellVerdict? check t root (shellSpelling cs c.shell) =
      shellVerdict? check t' root (shellSpelling cs c.shell) := by
    intro c hc
    obtain ⟨d, hd, spelled, -⟩ := exists_spelling hc
    rw [spelled, shells d hd]
  have results {archived : List Path} {problem : Option Problem} {c : Command} (hc : c ∈ cs) :
      checkCommand t root archived problem c = checkCommand t' root archived problem c := by
    unfold checkCommand
    cases h : c.implementation with
    | none => rfl
    | some p => simp only [implementations c hc p h]
  unfold validate
  refine congr (congr (congrArg Validation.mk ?_) ?_) ?_
  · refine List.map_congr_left fun c hc => ?_
    simp only [verdicts c hc, results hc]
  · refine congrArg (fun is => Order.sortBy Issue.before (firstIssues is))
      (List.filterMap_congr fun c hc => ?_)
    simp only [verdicts c hc]
  · refine congrArg (fun ws : List String => ws.head?.toList) (List.filterMap_congr fun c hc => ?_)
    simp only [verdicts c hc]

/-! ### Issues -/

/-- The problems of the shell entries as the commands come, repeats included. -/
def told (archived : List Path) (verdict : Path → Option Verdict) (cs : List Command) :
    List Issue :=
  cs.filterMap fun c =>
    (shellProblem? archived c.shell (verdict c.shell)).map fun problem =>
      ⟨c.pipeline, c.shell, problem⟩

theorem issues_eq : issues archived verdict cs =
    Order.sortBy Issue.before (firstIssues (told archived verdict cs)) := rfl

theorem mem_told : i ∈ told archived verdict cs ↔ ∃ c ∈ cs, c.pipeline = i.pipeline ∧
    c.shell = i.shell ∧ shellProblem? archived c.shell (verdict c.shell) = some i.problem := by
  rw [told, List.mem_filterMap]
  refine exists_congr fun c => and_congr_right fun _ => ?_
  rw [Option.map_eq_some_iff]
  constructor
  · rintro ⟨x, problem, rfl⟩
    exact ⟨rfl, rfl, problem⟩
  · rintro ⟨pipeline, shell, problem⟩
    exact ⟨i.problem, problem, by rw [pipeline, shell]⟩

theorem mem_of_mem_firstIssues : ∀ {is : List Issue}, j ∈ firstIssues is → j ∈ is
  | [], h => h
  | k :: is, h => by
    rcases List.mem_cons.1 h with rfl | h
    · exact List.mem_cons_self
    · exact List.mem_cons_of_mem _ (mem_of_mem_firstIssues (List.mem_filter.1 h).1)

theorem told_of_mem_issues (h : i ∈ issues archived verdict cs) : i ∈ told archived verdict cs :=
  mem_of_mem_firstIssues ((Order.mem_sortBy _ _).1 h)

/-- For every issue one of its pipeline with its shell entry is kept. -/
theorem exists_firstIssue : ∀ {is : List Issue}, i ∈ is →
    ∃ j ∈ firstIssues is, j.pipeline = i.pipeline ∧ j.shell.same i.shell = true
  | k :: is, h => by
    rcases List.mem_cons.1 h with rfl | h
    · exact ⟨i, List.mem_cons_self, rfl, Path.same_refl _⟩
    obtain ⟨j, hj, pipeline, shell⟩ := exists_firstIssue h
    by_cases first : j.pipeline = k.pipeline ∧ j.shell.same k.shell = true
    · exact ⟨k, List.mem_cons_self, first.1.symm.trans pipeline,
        Path.same_trans (Path.same_symm first.2) shell⟩
    · refine ⟨j, List.mem_cons_of_mem _ (List.mem_filter.2 ⟨hj, ?_⟩), pipeline, shell⟩
      simpa [imp_iff_not_or] using first

/-- Verdicts that do not depend on the spelling of a shell entry. -/
def Steady (verdict : Path → Option Verdict) (cs : List Command) : Prop :=
  ∀ c ∈ cs, ∀ d ∈ cs, c.shell.same d.shell = true → verdict c.shell = verdict d.shell

/-- A shell entry is checked under one spelling. -/
theorem steady_shellVerdict? :
    Steady (fun shell => shellVerdict? check t root (shellSpelling cs shell)) cs := by
  intro c _ d hd same
  exact congrArg (shellVerdict? check t root) (shellSpelling_congr hd same)

theorem isArchived_congr (same : p.same q = true) :
    isArchived archived p = isArchived archived q := by
  rw [isArchived, isArchived, Path.normalize?_congr same]

theorem shellProblem?_congr (steady : Steady verdict cs) (hc : c ∈ cs) (hd : d ∈ cs)
    (same : c.shell.same d.shell = true) :
    shellProblem? archived c.shell (verdict c.shell) =
      shellProblem? archived d.shell (verdict d.shell) := by
  rw [steady c hc d hd same]
  cases verdict d.shell with
  | none => rw [shellProblem?, shellProblem?, isArchived_congr same]
  | some v => cases v <;> rfl

/-- An issue tells the problem of its shell entry, however a command writes it. -/
theorem problem_of_mem_issues (steady : Steady verdict cs) (hi : i ∈ issues archived verdict cs)
    (hc : c ∈ cs) (same : i.shell.same c.shell = true) :
    shellProblem? archived c.shell (verdict c.shell) = some i.problem := by
  obtain ⟨d, hd, -, shell, problem⟩ := mem_told.1 (told_of_mem_issues hi)
  rw [← shellProblem?_congr steady hd hc (shell ▸ same), problem]

/-- The problem of a shell entry is told by an issue of each of its pipelines. -/
theorem exists_issue (steady : Steady verdict cs) (hc : c ∈ cs)
    (problem : shellProblem? archived c.shell (verdict c.shell) = some x) :
    ∃ i ∈ issues archived verdict cs,
      i.pipeline = c.pipeline ∧ i.shell.same c.shell = true ∧ i.problem = x := by
  have listed : ⟨c.pipeline, c.shell, x⟩ ∈ told archived verdict cs :=
    mem_told.2 ⟨c, hc, rfl, rfl, problem⟩
  obtain ⟨i, hi, pipeline, shell⟩ := exists_firstIssue listed
  have hi' : i ∈ issues archived verdict cs := (Order.mem_sortBy _ _).2 hi
  refine ⟨i, hi', pipeline, shell, ?_⟩
  have told := problem_of_mem_issues steady hi' hc shell
  exact Option.some.inj (told.symm.trans problem)

/-- **The problem of a shell entry is an issue of its pipeline.** -/
theorem mem_issues (verdict : Path → Option Verdict) (normal : ∀ c ∈ cs, c.shell.IsNormal)
    (hc : c ∈ cs)
    (problem : shellProblem? archived c.shell (verdict c.shell) = some x) :
    ⟨c.pipeline, c.shell, x⟩ ∈ issues archived verdict cs := by
  have steady : Steady verdict cs := fun c hc d hd same => by
    rw [(normal c hc).eq_of_same (normal d hd) same]
  obtain ⟨i, hi, pipeline, same, told⟩ := exists_issue steady hc problem
  obtain ⟨d, hd, -, spelled, -⟩ := mem_told.1 (told_of_mem_issues hi)
  have shell : i.shell = c.shell := by
    rw [← spelled] at same ⊢
    exact (normal d hd).eq_of_same (normal c hc) same
  rw [← pipeline, ← shell, ← told]
  exact hi

/-! ### Files that are gone -/

/-- Paths are known to be archived by their normal forms. -/
theorem isArchived_iff : isArchived (paths.filterMap Path.normalize?) p = true ↔
    ∃ a ∈ paths, ∃ q, p.normalize? = some q ∧ a.normalize? = some q := by
  rw [isArchived]
  constructor
  · intro h
    split at h
    · next q normal =>
      obtain ⟨b, hb, same⟩ := List.any_eq_true.1 h
      obtain ⟨a, ha, normal'⟩ := List.mem_filterMap.1 hb
      have eq : b = q := (Path.isNormal_of_normalize? normal').eq_of_same
        (Path.isNormal_of_normalize? normal) same
      exact ⟨a, ha, q, normal, eq ▸ normal'⟩
    · exact absurd h Bool.false_ne_true
  · rintro ⟨a, ha, q, normal, normal'⟩
    rw [normal]
    exact List.any_eq_true.2 ⟨q, List.mem_filterMap.2 ⟨a, ha, normal'⟩, Path.same_refl q⟩

/-- A shell entry that is gone was archived if an issue of its pipeline says so. -/
theorem issue_archived_iff (archived : List Path) (steady : Steady verdict cs) (hc : c ∈ cs)
    (gone : verdict c.shell = none) :
    (∃ i ∈ issues archived verdict cs,
      i.pipeline = c.pipeline ∧ i.shell.same c.shell = true ∧ i.problem = .missing true) ↔
      isArchived archived c.shell = true := by
  have problem : shellProblem? archived c.shell (verdict c.shell) =
      some (.missing (isArchived archived c.shell)) := by
    rw [gone, shellProblem?]
  constructor
  · rintro ⟨i, hi, -, shell, missing⟩
    have told := problem_of_mem_issues steady hi hc shell
    rw [problem, missing] at told
    exact Problem.missing.inj (Option.some.inj told)
  · intro h
    rw [h] at problem
    exact exists_issue steady hc problem

theorem isArchived_of_mem (normal : p.IsNormal) (h : p ∈ paths) :
    isArchived (paths.filterMap Path.normalize?) p = true := by
  have normalized : p.normalize? = some p := normal
  exact isArchived_iff.2 ⟨p, h, p, normalized, normalized⟩

variable (normal : ∀ c ∈ cs, c.shell.IsNormal) {n : Nat} (hc : cs[n]? = some c)

include hc

theorem commands_getElem? : (validate check t root cs paths).commands[n]? =
    some { c with result := some (checkCommand t root (paths.filterMap Path.normalize?)
      (shellProblem? (paths.filterMap Path.normalize?) c.shell
        (shellVerdict? check t root (shellSpelling cs c.shell))) c) } := by
  unfold validate checkedCommands
  rw [List.getElem?_map, hc]
  rfl

/-- A command whose implementation was archived. -/
theorem commands_archived (implementation : c.implementation = some p) (hp : p.IsNormal)
    (archived : p ∈ paths) (gone : t.isFile (root.join p) = false) :
    (validate check t root cs paths).commands[n]? =
      some { c with result := some .archivedImplementation } := by
  rw [commands_getElem? hc]
  simp only [checkCommand, implementation, gone, Bool.false_eq_true, if_false,
    isArchived_of_mem hp archived, if_true]

include normal

theorem shellProblem?_archived (archived : c.shell ∈ paths)
    (gone : t.isFile (root.join c.shell) = false) :
    shellProblem? (paths.filterMap Path.normalize?) c.shell
      (shellVerdict? check t root (shellSpelling cs c.shell)) = some (.missing true) := by
  have mem := List.mem_of_getElem? hc
  rw [shellSpelling_eq normal mem, shellVerdict?]
  simp only [gone, Bool.false_eq_true, if_false, shellProblem?,
    isArchived_of_mem (normal c mem) archived]

/-- A pipeline whose shell entry was archived. -/
theorem issues_archived (archived : c.shell ∈ paths)
    (gone : t.isFile (root.join c.shell) = false) :
    ⟨c.pipeline, c.shell, .missing true⟩ ∈ (validate check t root cs paths).issues :=
  mem_issues (fun shell => shellVerdict? check t root (shellSpelling cs shell)) normal
    (List.mem_of_getElem? hc) (shellProblem?_archived normal hc archived gone)

/-- A command whose shell entry was archived and whose implementation, if it has
one, is there. -/
theorem commands_missing (archived : c.shell ∈ paths)
    (gone : t.isFile (root.join c.shell) = false)
    (present : ∀ p, c.implementation = some p → t.isFile (root.join p) = true) :
    (validate check t root cs paths).commands[n]? =
      some { c with result := some .missingShell } := by
  rw [commands_getElem? hc, shellProblem?_archived normal hc archived gone]
  cases h : c.implementation with
  | none => simp only [checkCommand, h]
  | some p => simp only [checkCommand, h, present p h, if_true]

end Catalog
end Attic
