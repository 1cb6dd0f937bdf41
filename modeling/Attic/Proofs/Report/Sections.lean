import Attic.Inspection
import Attic.Proofs.Order.Counting
import Attic.Proofs.Reference.Merging
import Mathlib

/-!
# The sections of a report

A report goes on where the ledger or the catalog cannot be read. Whatever fails, it has
the findings and the results that looking at each section alone gives, it lists the
sections that failed and no others, and what it counts is what it lists. It is clean if
and only if both sections were read and nothing in them is broken.

Key definitions: `Report.IsCounted`, `Inspection.Covers`.
Key theorem: `Inspection.report_covers`.
-/

namespace Attic

namespace Catalog

variable {c : Command} {v : Validation}

/-- A command with a result is broken unless the result is `ok`. -/
theorem Command.isBroken_eq (checked : c.result.isSome = true) :
    c.isBroken = decide (c.result ≠ some .ok) := by
  obtain ⟨x, result⟩ := Option.isSome_iff_exists.1 checked
  rw [isBroken, result]
  cases x <;> rfl

/-- Every command that is checked has a result. -/
theorem result_isSome (check : Checker) (t : Tree) (root : Path) (cs : List Command)
    (paths : List Path) : ∀ c ∈ (validate check t root cs paths).commands,
      c.result.isSome = true := by
  intro c hc
  obtain ⟨d, -, rfl⟩ := List.mem_map.1 hc
  rfl

theorem broken_eq (checked : ∀ c ∈ v.commands, c.result.isSome = true) :
    v.broken = v.commands.filter fun c => c.result ≠ some .ok :=
  List.filter_congr fun c hc => c.isBroken_eq (checked c hc)

end Catalog

namespace Report

variable {p : Report}

/-- A report whose counts are those of what it lists: of its findings, of its commands
with a result other than `ok`, and of the pipelines of these. -/
structure IsCounted (p : Report) : Prop where
  imports : p.summary.brokenImports = p.findings.length
  checked : ∀ c ∈ p.commands, c.result.isSome = true
  commands : p.summary.brokenCommands = p.commands.countP fun c => c.result ≠ some .ok
  byPipeline : p.summary.brokenCommands = p.summary.commandsByPipeline.total
  each : ∀ name, (p.summary.commandsByPipeline.get? name).getD 0 =
    p.commands.countP fun c => c.result ≠ some .ok ∧ c.pipeline = name
  pipelines : p.summary.brokenPipelines = ((p.commands.filter fun c =>
    c.result ≠ some .ok).map Catalog.Command.pipeline).toFinset.card

/-- What a summary counts is what was found and checked. -/
theorem isCounted_of {i : Imports} {v : Catalog.Validation} (summary : p.summary = .of i v)
    (findings : p.findings = i.outcome.findings) (commands : p.commands = v.commands)
    (checked : ∀ c ∈ v.commands, c.result.isSome = true) : p.IsCounted := by
  have broken := Catalog.broken_eq checked
  rw [← commands] at broken checked
  refine ⟨?_, checked, ?_, ?_, fun name => ?_, ?_⟩
  · rw [summary, findings, Summary.of]
  · rw [summary, Summary.of, broken, ← List.countP_eq_length_filter]
  · rw [summary, Summary.of, total_countEach, List.length_map]
  · rw [summary, Summary.of, get?_countEach, broken, List.count_eq_countP, List.countP_map,
      List.countP_filter]
    refine List.countP_congr fun c _ => ?_
    simp [and_comm]
  · rw [summary, Summary.of, length_countEach, broken]

/-- A report is clean if nothing failed, nothing was found and no command is broken. -/
theorem IsCounted.isClean_iff (h : p.IsCounted) : p.isClean = true ↔
    p.failures = [] ∧ p.findings = [] ∧ ∀ c ∈ p.commands, c.result = some .ok := by
  have whole : p.summary.brokenCommands = 0 ↔ ∀ c ∈ p.commands, c.result = some .ok := by
    rw [h.commands, List.countP_eq_zero]
    simp
  rw [isClean, Bool.and_eq_true, Bool.and_eq_true, beq_iff_eq, beq_iff_eq, whole, h.imports,
    List.length_eq_zero_iff, List.isEmpty_iff]
  tauto

end Report

namespace Inspection

variable {i : Inspection} {r : Repository} {p : Report}

/-- A report that has of each section that can be read what looking at it alone gives,
nothing of one that cannot, and the failures of just these, the ledger's first. -/
structure Covers (i : Inspection) (r : Repository) (p : Report) : Prop where
  imports : ∀ entries, i.store.active r = .ok entries → ∃ v, i.imports r = .ok v ∧
    p.findings = v.outcome.findings ∧ p.scanWarnings = v.outcome.warnings
  commands : ∀ entries commands, i.store.active r = .ok entries →
    i.catalog r.tree = .ok commands → ∃ v, i.commands r = .ok v ∧
      p.commands = v.commands ∧ p.issues = v.issues ∧ p.warnings = v.warnings
  unscanned : ∀ f, i.store.active r = .error f → p.findings = []
  unchecked : ∀ f, i.catalog r.tree = .error f →
    p.commands = [] ∧ p.issues = [] ∧ p.warnings = []
  failures : ∀ x, x ∈ p.failures ↔
    (∃ f, i.store.active r = .error f ∧ x = ⟨.ledger, f.message⟩) ∨
      ∃ f, i.catalog r.tree = .error f ∧ x = ⟨.catalog, f.message⟩
  ordered : p.failures.Pairwise fun x y => x.part = .ledger ∧ y.part = .catalog

/-- A scan for no scripts finds nothing. -/
theorem scanFor_nil (i : Inspection) (t : Tree) : (i.scanFor t []).outcome.findings = [] := by
  have none : (Reference.Index.ofPaths []).isEmpty = true := by decide +kernel
  calc
    (i.scanFor t []).outcome.findings =
        (i.scanner.scan t [] i.searchRoots i.excludeDirs).findings := rfl
    _ = [] := by rw [Scan.scan_findings, if_pos none]

theorem isCounted_report (i : Inspection) (now : Timestamp) (r : Repository) :
    (i.report now r).IsCounted := by
  refine Report.isCounted_of rfl rfl rfl ?_
  cases i.catalog r.tree with
  | error f => exact fun c hc => absurd hc List.not_mem_nil
  | ok commands => exact Catalog.result_isSome _ _ _ _ _

/-- The failures of a report are those of the ledger and of the catalog. -/
theorem mem_failures (i : Inspection) (now : Timestamp) (r : Repository) (x : Report.Failure) :
    x ∈ (i.report now r).failures ↔
      (∃ f, i.store.active r = .error f ∧ x = ⟨.ledger, f.message⟩) ∨
        ∃ f, i.catalog r.tree = .error f ∧ x = ⟨.catalog, f.message⟩ := by
  rw [report, List.mem_append]
  refine or_congr ?_ ?_
  · cases i.store.active r <;> simp
  · cases i.catalog r.tree <;> simp [Except.map]

theorem failures_ordered (i : Inspection) (now : Timestamp) (r : Repository) :
    (i.report now r).failures.Pairwise fun x y => x.part = .ledger ∧ y.part = .catalog := by
  unfold report
  cases i.store.active r <;> cases i.catalog r.tree <;> simp [Except.map]

theorem failures_eq_nil_iff (i : Inspection) (now : Timestamp) (r : Repository) :
    (i.report now r).failures = [] ↔
      (∃ entries, i.store.active r = .ok entries) ∧
        ∃ commands, i.catalog r.tree = .ok commands := by
  unfold report
  cases i.store.active r <;> cases i.catalog r.tree <;> simp [Except.map]

/-- Each section is in the report as it is on its own. -/
theorem covers_report (i : Inspection) (now : Timestamp) (r : Repository) :
    i.Covers r (i.report now r) where
  imports entries active := by
    unfold report
    rw [active]
    refine ⟨i.scanFor r.tree entries, ?_, rfl, rfl⟩
    rw [Inspection.imports, active, Except.map]
  commands entries commands active loaded := by
    unfold report
    rw [active, loaded]
    refine ⟨i.check r.tree entries commands, ?_, rfl, rfl, List.append_nil _⟩
    rw [Inspection.commands, active, loaded]
  unscanned f failed := by
    unfold report
    rw [failed]
    exact scanFor_nil i r.tree
  unchecked f failed := by
    unfold report
    rw [failed]
    refine ⟨rfl, rfl, ?_⟩
    -- nothing is checked, so no result is in doubt without the ledger
    cases i.store.active r <;> rfl
  failures := mem_failures i now r
  ordered := failures_ordered i now r

/-- **A report is complete and counts what it lists, whatever fails**: of each section it
has what looking at it alone gives, it lists exactly the sections that could not be read,
its counts are those of its lists, and it is clean if and only if both sections were read,
nothing was found and every command is `ok`. -/
theorem report_covers (i : Inspection) (now : Timestamp) (r : Repository) :
    i.Covers r (i.report now r) ∧ (i.report now r).IsCounted ∧
    ((i.report now r).isClean = true ↔
      (∃ entries, i.store.active r = .ok entries) ∧
      (∃ commands, i.catalog r.tree = .ok commands) ∧
      (i.report now r).findings = [] ∧
      ∀ c ∈ (i.report now r).commands, c.result = some .ok) := by
  have counted := isCounted_report i now r
  refine ⟨covers_report i now r, counted, ?_⟩
  rw [counted.isClean_iff, failures_eq_nil_iff, and_assoc]

/-- A catalog that is lost leaves what the scan for an archived script found. -/
example :
    let i := Inspection.standard ⟨"/r"⟩ .memory (fun _ => .error (.shape .noShell))
      fun _ _ => .valid
    let report := i.report ⟨⟨2025, 6, 2⟩, 0, 0⟩
      ⟨⟨[(["r"], .folder), (["r", "app"], .folder),
          (["r", "app", "main.sh"], .file 0o644 "./scripts/a.sh\n".toByteArray)]⟩,
        [.fresh ⟨"scripts/a.sh"⟩ ⟨"z/a.sh"⟩ "b" ⟨⟨2025, 6, 1⟩, 0, 0⟩ ""]⟩
    report.findings.length = 1 ∧ report.failures.map Report.Failure.part = [.catalog] ∧
      report.isClean = false := by
  decide +kernel

end Inspection
end Attic
