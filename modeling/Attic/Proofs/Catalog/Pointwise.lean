import Attic.Proofs.Catalog.Checking
import Attic.Proofs.Catalog.Declared
import Attic.Proofs.Order.Merged
import Attic.Proofs.Tree.Spelling
import Mathlib

/-!
# Commands checked one by one

What checking says of a command would be known from the command alone, were it not
that a shell entry is checked under one spelling for all commands that name it. With
a checker that goes by the file that it is given, spellings of one path get the same
answer unless one of them leads to a file and another does not, as where one ends with
a slash. Short of that, commands are checked as each would be alone, and the parts of a
catalog give what the whole gives.

Key definitions: `Catalog.Checker.OfFile`, `Catalog.ownProblem?`, `Catalog.ownResult`,
`Catalog.Issue.place`, `Catalog.Pointwise`.
Key theorems: `Catalog.ascends_issues`, `Catalog.issues_append`,
`Catalog.pointwise_of_steady`, `Catalog.pointwise_of_load`,
`Catalog.validate_pointwise_iff`.
-/

namespace Attic
namespace Catalog

open Attic.Order (Ascends pick sortDistinct)

variable {check : Checker} {t : Tree} {root p q : Path} {cs as bs : List Command} {c d : Command}
variable {paths archived : List Path} {i j : Issue} {is : List Issue} {x : Problem}
variable {verdict : Path → Option Verdict}

/-! ### What a command comes to alone -/

/-- A checker whose answer depends only on the file that it is given. -/
def Checker.OfFile (check : Checker) : Prop :=
  ∀ ⦃t t' : Tree⦄ ⦃p q : Path⦄ ⦃o : Object⦄, p.same q = true →
    t.look p = .ok o → t'.look q = .ok o → check t p = check t' q

/-- Whether one of some paths has the normal form of a path. -/
def Recorded (paths : List Path) (p : Path) : Prop :=
  ∃ a ∈ paths, ∃ q, p.normalize? = some q ∧ a.normalize? = some q

instance : Decidable (Recorded paths p) := decidable_of_iff _ isArchived_iff

theorem isArchived_eq :
    isArchived (paths.filterMap Path.normalize?) p = decide (Recorded paths p) := by
  rw [Bool.eq_iff_iff, isArchived_iff, decide_eq_true_iff, Recorded]

/-- The problem of the shell entry of a command, by its own spelling. -/
def ownProblem? (check : Checker) (t : Tree) (root : Path) (paths : List Path) (c : Command) :
    Option Problem :=
  if t.isFile (root.join c.shell) then
    match check t (root.join c.shell) with
    | .invalid message => some (.broken message)
    | .valid | .unavailable _ => none
  else some (.missing (decide (Recorded paths c.shell)))

/-- The result of a command alone: an implementation that is gone counts before a shell
entry that is gone, and that before one that does not parse. -/
def ownResult (check : Checker) (t : Tree) (root : Path) (paths : List Path) (c : Command) :
    Result :=
  match c.implementation.filter fun p => !t.isFile (root.join p) with
  | some p => if Recorded paths p then .archivedImplementation else .missingImplementation
  | none =>
    match ownProblem? check t root paths c with
    | some (.missing _) => .missingShell
    | some (.broken _) => .brokenShell
    | none => .ok

theorem shellProblem?_own : shellProblem? (paths.filterMap Path.normalize?) c.shell
    (shellVerdict? check t root c.shell) = ownProblem? check t root paths c := by
  rw [shellVerdict?, ownProblem?]
  split_ifs
  · cases check t (root.join c.shell) <;> rfl
  · rw [shellProblem?, isArchived_eq]

theorem checkCommand_own : checkCommand t root (paths.filterMap Path.normalize?)
    (ownProblem? check t root paths c) c = ownResult check t root paths c := by
  unfold checkCommand ownResult
  cases c.implementation with
  | none => rfl
  | some p =>
    cases gone : t.isFile (root.join p) with
    | false => simp [Option.filter, gone, isArchived_eq]
    | true =>
      rcases ownProblem? check t root paths c with _ | _ | _ <;> simp [Option.filter, gone]

/-! ### The order of issues -/

/-- What problems sort by. -/
def Problem.key : Problem → Bool ⊕ₗ String
  | .missing archived => Sum.inlₗ archived
  | .broken message => Sum.inrₗ message

theorem Problem.before_byKey : Order.ByKey before key := by
  intro a b
  cases a with
  | missing a =>
    cases b with
    | missing b => cases a <;> cases b <;> simp [before, key]
    | broken b => simp [before, key]
  | broken a =>
    cases b with
    | missing b => simp [before, key]
    | broken b => simp [before, key]

namespace Issue

/-- The pipeline of an issue and its shell entry, however it is spelled. -/
def place (i : Issue) : String ×ₗ List String := toLex (i.pipeline, i.shell.key)

/-- What issues sort by. -/
def key (i : Issue) : (String ×ₗ List String) ×ₗ (Bool ⊕ₗ String) :=
  toLex (i.place, i.problem.key)

theorem place_eq_iff :
    i.place = j.place ↔ i.pipeline = j.pipeline ∧ i.shell.same j.shell = true := by
  simp [place, Path.key_eq_iff]

theorem key_eq_iff : i.key = j.key ↔ i.place = j.place ∧ i.problem.key = j.problem.key := by
  simp [key]

theorem before_byKey : Order.ByKey before key := by
  intro a b
  simp only [before, key, place, Prod.Lex.toLex_lt_toLex, EmbeddingLike.apply_eq_iff_eq,
    Prod.mk.injEq]
  by_cases same : a.pipeline = b.pipeline
  · rw [if_neg (not_not.2 same),
      Order.lex_iff (Path.before_byKey _ _) (Path.before_byKey _ _), Problem.before_byKey _ _]
    simp [same]
  · simp [same]

end Issue

/-- Of the issues of one place the first is kept. -/
theorem pick_firstIssues {k : String ×ₗ List String} : ∀ {is : List Issue},
    pick Issue.place k (firstIssues is) = pick Issue.place k is
  | [] => rfl
  | i :: is => by
    rw [firstIssues]
    by_cases hk : i.place = k
    · rw [Order.pick_cons_same hk, Order.pick_cons_same hk]
    · have rest : pick Issue.place k (firstIssues is) = pick Issue.place k is := pick_firstIssues
      rw [Order.pick_cons_other hk, Order.pick_cons_other hk, ← rest, pick, pick,
        List.find?_filter]
      refine congrArg (List.find? · _) (funext fun j => ?_)
      -- what the first issue removes has its place
      by_cases hj : j.place = k
      · have other : ¬ (j.pipeline = i.pipeline ∧ j.shell.same i.shell = true) :=
          fun same => hk ((Issue.place_eq_iff.2 same).symm.trans hj)
        simpa [hj, imp_iff_not_or] using other
      · simp [hj]

theorem pairwise_firstIssues : ∀ {is : List Issue},
    (firstIssues is).Pairwise fun i j => i.place ≠ j.place
  | [] => .nil
  | i :: is => by
    refine List.pairwise_cons.2 ⟨fun j hj same => ?_, pairwise_firstIssues.filter _⟩
    obtain ⟨pipeline, shell⟩ := Issue.place_eq_iff.1 same.symm
    simpa [pipeline, shell] using (List.mem_filter.1 hj).2

/-- **The issues are in order, one for each pipeline with each of its shell entries.** -/
theorem ascends_issues : Ascends Issue.place (issues archived verdict cs) := by
  have distinct : (issues archived verdict cs).Pairwise fun i j => i.place ≠ j.place :=
    (Order.sortBy_perm _ _).symm.pairwise pairwise_firstIssues fun h => h.symm
  refine (Issue.before_byKey.sorted _).imp₂ (fun i j le apart => ?_) distinct
  exact ((Prod.Lex.toLex_le_toLex.1 le).resolve_right fun same => apart same.1)

theorem ascends_issues_key : Ascends Issue.key (issues archived verdict cs) :=
  List.Pairwise.imp (fun lt => Prod.Lex.toLex_lt_toLex.2 (.inl lt)) ascends_issues

/-- The issue of a place is the first that is told. -/
theorem pick_issues {k : String ×ₗ List String} :
    pick Issue.place k (issues archived verdict cs) =
      pick Issue.place k (told archived verdict cs) := by
  have one : ∀ i ∈ firstIssues (told archived verdict cs),
      ∀ j ∈ firstIssues (told archived verdict cs), i.place = j.place → i = j := by
    intro i hi j hj same
    exact ascends_issues.one i ((Order.mem_sortBy _ _).2 hi) j ((Order.mem_sortBy _ _).2 hj) same
  have first : pick Issue.place k (firstIssues (told archived verdict cs)) =
      pick Issue.place k (told archived verdict cs) := pick_firstIssues
  rw [← first]
  ext i
  rw [Order.pick_eq_some ascends_issues.one, Order.pick_eq_some one, issues_eq, Order.mem_sortBy]

/-! ### Parts of a catalog -/

theorem Steady.mono (steady : Steady verdict cs) (sub : as ⊆ cs) : Steady verdict as :=
  fun c hc d hd => steady c (sub hc) d (sub hd)

/-- Told of one place is one problem. -/
theorem key_of_place (steady : Steady verdict cs) (hi : i ∈ told archived verdict cs)
    (hj : j ∈ told archived verdict cs) (same : i.place = j.place) : i.key = j.key := by
  obtain ⟨c, hc, -, shell, problem⟩ := mem_told.1 hi
  obtain ⟨d, hd, -, shell', problem'⟩ := mem_told.1 hj
  have spelled : c.shell.same d.shell = true := by
    rw [shell, shell']
    exact (Issue.place_eq_iff.1 same).2
  rw [shellProblem?_congr steady hc hd spelled, problem'] at problem
  rw [Issue.key_eq_iff, Option.some.inj problem]
  exact ⟨same, rfl⟩

/-- **The issues of a catalog are those of its parts together.** -/
theorem issues_append (steady : Steady verdict (as ++ bs)) :
    issues archived verdict (as ++ bs) =
      sortDistinct Issue.before (issues archived verdict as ++ issues archived verdict bs) := by
  set parts := issues archived verdict as ++ issues archived verdict bs
  have parts_told : ∀ i ∈ parts, i ∈ told archived verdict (as ++ bs) := by
    intro i hi
    rw [told, List.filterMap_append]
    exact List.mem_append.2 ((List.mem_append.1 hi).imp told_of_mem_issues told_of_mem_issues)
  have alike : ∀ i ∈ parts, pick Issue.key i.key parts = pick Issue.place i.place parts := by
    intro i hi
    refine List.find?_congr fun j hj => decide_eq_decide.2 ⟨fun key => ?_, fun place => ?_⟩
    · exact (Issue.key_eq_iff.1 key).1
    · exact key_of_place steady (parts_told j hj) (parts_told i hi) place
  have together (k : String ×ₗ List String) :
      pick Issue.place k (issues archived verdict (as ++ bs)) = pick Issue.place k parts := by
    rw [pick_issues, told, List.filterMap_append, Order.pick_append, Order.pick_append,
      pick_issues, pick_issues]
    rfl
  refine ascends_issues_key.eq_of_mem_iff (Order.ascends_sortDistinct Issue.before_byKey _) ?_
  intro i
  rw [ascends_issues.mem_iff, together, (Order.ascends_sortDistinct Issue.before_byKey _).mem_iff,
    Order.pick_sortDistinct Issue.before_byKey]
  constructor
  · intro h
    rwa [alike i (Order.mem_of_pick h)]
  · intro h
    rwa [← alike i (Order.mem_of_pick h)]

/-! ### Validation -/

/-- A catalog of which each command is checked as it would be alone, each problem of a
shell entry is reported for its pipeline, the first checker that could not run gives the
warning, and the parts give what the whole gives. -/
structure Pointwise (check : Checker) (t : Tree) (root : Path) (paths : List Path)
    (cs : List Command) : Prop where
  commands : (validate check t root cs paths).commands =
    cs.map fun c => { c with result := some (ownResult check t root paths c) }
  issues : ∀ c ∈ cs, ∀ x, ownProblem? check t root paths c = some x ↔
    ∃ i ∈ (validate check t root cs paths).issues,
      i.pipeline = c.pipeline ∧ i.shell.same c.shell = true ∧ i.problem = x
  warnings : (validate check t root cs paths).warnings =
    (cs.filterMap fun c => warning? (shellVerdict? check t root c.shell)).head?.toList
  parts : ∀ as bs, as ++ bs = cs →
    (validate check t root cs paths).commands =
      (validate check t root as paths).commands ++ (validate check t root bs paths).commands ∧
    (validate check t root cs paths).issues = sortDistinct Issue.before
      ((validate check t root as paths).issues ++ (validate check t root bs paths).issues)

theorem issues_of_validate : (validate check t root cs paths).issues =
    issues (paths.filterMap Path.normalize?)
      (fun shell => shellVerdict? check t root (shellSpelling cs shell)) cs := rfl

/-- A spelling gets the verdict of the one that is checked. -/
theorem verdict_spelling (steady : Steady (shellVerdict? check t root) cs) (hc : c ∈ cs) :
    shellVerdict? check t root (shellSpelling cs c.shell) = shellVerdict? check t root c.shell := by
  obtain ⟨d, hd, spelled, same⟩ := exists_spelling hc
  rw [spelled, steady d hd c hc same]

/-- What checking comes to where each spelling has the verdict of its shell entry. -/
theorem validate_eq (steady : Steady (shellVerdict? check t root) cs) :
    validate check t root cs paths =
      ⟨cs.map fun c => { c with result := some (ownResult check t root paths c) },
        issues (paths.filterMap Path.normalize?) (shellVerdict? check t root) cs,
        (cs.filterMap fun c => warning? (shellVerdict? check t root c.shell)).head?.toList⟩ := by
  unfold validate
  refine congr (congr (congrArg Validation.mk ?_) ?_) ?_
  · refine List.map_congr_left fun c hc => ?_
    simp only [verdict_spelling steady hc, shellProblem?_own, checkCommand_own]
  · refine congrArg (fun is => Order.sortBy Issue.before (firstIssues is))
      (List.filterMap_congr fun c hc => ?_)
    simp only [verdict_spelling steady hc]
  · refine congrArg (fun ws : List String => ws.head?.toList)
      (List.filterMap_congr fun c hc => ?_)
    simp only [verdict_spelling steady hc]

/-- Commands whose shell entries have one verdict each are checked one by one. -/
theorem pointwise_of_steady (steady : Steady (shellVerdict? check t root) cs) :
    Pointwise check t root paths cs where
  commands := by rw [validate_eq steady]
  issues c hc x := by
    rw [validate_eq steady, ← shellProblem?_own]
    constructor
    · exact exists_issue steady hc
    · rintro ⟨i, hi, -, shell, rfl⟩
      exact problem_of_mem_issues steady hi hc shell
  warnings := by rw [validate_eq steady]
  parts as bs := by
    rintro rfl
    have left := steady.mono (List.subset_append_left as bs)
    have right := steady.mono (List.subset_append_right as bs)
    rw [validate_eq steady, validate_eq left, validate_eq right]
    exact ⟨List.map_append, issues_append steady⟩

/-- Whatever the checker, a catalog of normal paths is checked command by command. -/
theorem pointwise_of_normal (normal : ∀ c ∈ cs, c.shell.IsNormal) :
    Pointwise check t root paths cs :=
  pointwise_of_steady fun c hc d hd same => by rw [(normal c hc).eq_of_same (normal d hd) same]

/-- A catalog that is loaded is checked command by command. -/
theorem pointwise_of_load {file : Path} {t' : Tree} (loaded : load t' file = .ok cs) :
    Pointwise check t root paths cs :=
  pointwise_of_normal fun c hc => ((load_isNormal loaded).2 c hc).1

theorem steady_of_files (ofFile : check.OfFile)
    (files : ∀ c ∈ cs, ∀ d ∈ cs, c.shell.same d.shell = true →
      t.isFile (root.join c.shell) = t.isFile (root.join d.shell)) :
    Steady (shellVerdict? check t root) cs := by
  intro c hc d hd same
  have alike := files c hc d hd same
  have same' := Path.same_join root same
  rw [shellVerdict?, shellVerdict?]
  cases file : t.isFile (root.join d.shell) with
  | false => simp [alike, file]
  | true =>
    have file' : t.isFile (root.join c.shell) = true := alike.trans file
    obtain ⟨mode, bytes, read⟩ := Tree.isFile_iff.1 file'
    have look := Tree.readFile_eq_ok.1 read
    rw [if_pos file', if_pos rfl,
      ofFile same' look ((Tree.look_congr same' file' file).symm.trans look)]

/-- A problem that is reported is that of each spelling. -/
theorem Pointwise.files (h : Pointwise check t root paths cs) (hc : c ∈ cs) (hd : d ∈ cs)
    (same : c.shell.same d.shell = true) (there : t.isFile (root.join c.shell) = true) :
    t.isFile (root.join d.shell) = true := by
  by_contra gone
  have missing {e : Command} (gone : ¬ t.isFile (root.join e.shell) = true) :
      ownProblem? check t root paths e = some (.missing (decide (Recorded paths e.shell))) := by
    rw [ownProblem?, if_neg gone]
  have steady : Steady (fun shell => shellVerdict? check t root (shellSpelling cs shell)) cs :=
    steady_shellVerdict?
  -- the one verdict for both spellings is that the entry is gone, as `d` has it
  obtain ⟨i, hi, -, spelled, problem⟩ := (h.issues d hd _).1 (missing gone)
  have told := problem_of_mem_issues steady hi hc (Path.same_trans spelled (Path.same_symm same))
  obtain ⟨j, hj, pipeline, spelled', problem'⟩ := exists_issue steady hc told
  have own := (h.issues c hc _).2 ⟨j, hj, pipeline, spelled', problem'⟩
  rw [problem, ownProblem?, if_pos there] at own
  split at own <;> simp at own

/-- **Commands are checked one by one unless spellings of one shell entry differ in
whether they lead to a file.** For a checker that goes by the file that it is given. In
any case the commands keep their order and all but their results; the issues are of
commands, in order and not two for a pipeline with a shell entry; and there is at most
one warning. -/
theorem validate_pointwise_iff (check : Checker) (ofFile : check.OfFile) (t : Tree) (root : Path)
    (paths : List Path) (cs : List Command) :
    ((validate check t root cs paths).commands.map fun c => { c with result := none }) =
      cs.map (fun c => { c with result := none }) ∧
    Ascends Issue.place (validate check t root cs paths).issues ∧
    (∀ i ∈ (validate check t root cs paths).issues,
      ∃ c ∈ cs, c.pipeline = i.pipeline ∧ c.shell = i.shell) ∧
    (validate check t root cs paths).warnings.length ≤ 1 ∧
    (Pointwise check t root paths cs ↔ ∀ c ∈ cs, ∀ d ∈ cs, c.shell.same d.shell = true →
      t.isFile (root.join c.shell) = t.isFile (root.join d.shell)) := by
  rw [issues_of_validate]
  refine ⟨?_, ascends_issues, fun i hi => ?_, Option.length_toList_le, ?_, ?_⟩
  · rw [validate, checkedCommands, List.map_map]
    rfl
  · obtain ⟨c, hc, pipeline, shell, -⟩ := mem_told.1 (told_of_mem_issues hi)
    exact ⟨c, hc, pipeline, shell⟩
  · intro h c hc d hd same
    rw [Bool.eq_iff_iff]
    exact ⟨h.files hc hd same, h.files hd hc (Path.same_symm same)⟩
  · exact fun files => pointwise_of_steady (steady_of_files ofFile files)

/-- A shell entry that is there, and another command that spells it with a slash at its end. -/
theorem validate_pointwise_iff_slash :
    Checker.OfFile (fun _ _ => .valid) ∧
    ¬ Pointwise (fun _ _ => .valid) ⟨[(["r"], .folder), (["r", "a.sh"], .file 420 ⟨#[]⟩)]⟩ ⟨"/r"⟩ []
      [⟨"p", "x", ⟨"a.sh"⟩, none, none⟩, ⟨"q", "y", ⟨"a.sh/"⟩, none, none⟩] := by
  have ofFile : Checker.OfFile (fun _ _ => .valid) := fun _ _ _ _ _ _ _ _ => rfl
  refine ⟨ofFile, fun pointwise => ?_⟩
  have files := (validate_pointwise_iff _ ofFile _ _ _ _).2.2.2.2.1 pointwise
  exact absurd (files _ List.mem_cons_self _ (List.mem_cons_of_mem _ List.mem_cons_self)
    (by decide +kernel)) (by decide +kernel)

end Catalog
end Attic
