import Attic.Inspection
import Attic.Proofs.Catalog.Checking
import Attic.Proofs.Order.Counting
import Attic.Proofs.Reference.Merging
import Mathlib

/-!
# What counts for a batch

A finding counts for a batch where an entry is written as its script, and a broken
command where an entry is written as the path that it lost. Findings and checks go
by normal forms, so an entry that is written otherwise gives findings and archived
commands that count for no batch; and a lost path that has no normal form can count
for a batch though nothing tells that it was archived. Where all paths are written
as their normal forms, everything counts.

Key definitions: `Report.records`, `Report.tellsArchived`, `Path.IsDirect`.
Key theorems: `Report.tellsArchived_iff`, `Inspection.report_attributes`.
-/

namespace Attic

/-! ### Spellings -/

namespace Path

variable {p q : Path}

/-- A path that says the same as its normal form. -/
def IsDirect (p : Path) : Prop := ∃ q, p.normalize? = some q ∧ p.same q = true

end Path

namespace Catalog

variable {t : Tree} {root p : Path} {c : Command} {archived : List Path}
variable {problem : Option Problem}

/-! ### Results -/

theorem checkCommand_archived
    (h : checkCommand t root archived problem c = .archivedImplementation) :
    ∃ p, c.implementation = some p ∧ isArchived archived p = true := by
  unfold checkCommand at h
  dsimp only at h
  split at h
  · rcases problem with _ | _ | _ <;> simp at h
  · next p given =>
    refine ⟨p, given, ?_⟩
    split_ifs at h with file gone
    · rcases problem with _ | _ | _ <;> simp at h
    · exact gone

theorem checkCommand_missing (h : checkCommand t root archived problem c = .missingShell) :
    ∃ told, problem = some (.missing told) := by
  unfold checkCommand at h
  dsimp only at h
  rcases problem with _ | told | message
  · split at h
    · simp at h
    · split_ifs at h
  · exact ⟨told, rfl⟩
  · split at h
    · simp at h
    · split_ifs at h

theorem gone_of_problem {told : Bool} {v : Option Verdict}
    (h : shellProblem? archived p v = some (.missing told)) : v = none := by
  cases v with
  | none => rfl
  | some v => cases v <;> simp [shellProblem?] at h

end Catalog

/-! ### Counts -/

namespace Report

variable {entries : List Ledger.Entry} {p : Path} {c : Catalog.Command}

/-- Whether one of the entries is for a path, as the path is written. -/
def records (entries : List Ledger.Entry) (p : Path) : Bool :=
  entries.any fun e => e.original.same p

/-- Whether a report tells that archiving took what a command lost: by the result of
the command, or by an issue of its pipeline with its shell entry. -/
def tellsArchived (r : Report) (c : Catalog.Command) : Bool :=
  match c.result with
  | some .archivedImplementation => true
  | some .missingShell => r.issues.any fun x =>
      x.pipeline = c.pipeline && x.shell.same c.shell && x.problem = .missing true
  | _ => false

theorem records_iff : records entries p = true ↔ ∃ e ∈ entries, e.original.same p = true := by
  rw [records, List.any_eq_true]

theorem batchOf?_isSome (entries : List Ledger.Entry) (p : Path) :
    (batchOf? entries p).isSome = records entries p := by
  rw [Bool.eq_iff_iff, batchOf?, Option.isSome_map, List.find?_isSome, records_iff]
  simp only [List.mem_reverse]

/-- How many findings count for some batch. -/
theorem total_byBatch (i : Imports) :
    i.byBatch.total = i.outcome.findings.countP fun f => records i.entries f.script := by
  rw [Imports.byBatch, total_countEach, List.length_filterMap_eq_countP]
  simp only [batchOf?_isSome]

theorem blamedBatch?_isSome (entries : List Ledger.Entry) (c : Catalog.Command) :
    (blamedBatch? entries c).isSome = (lostPath? c).any (records entries) := by
  rw [blamedBatch?]
  cases lostPath? c with
  | none => rfl
  | some p => exact batchOf?_isSome entries p

/-- Only a broken command counts for a batch. -/
theorem blamed_broken (entries : List Ledger.Entry) (v : Catalog.Validation) :
    v.broken.filterMap (blamedBatch? entries) = v.commands.filterMap (blamedBatch? entries) := by
  rw [Catalog.Validation.broken, List.filterMap_filter]
  refine List.filterMap_congr fun c _ => ?_
  split
  · rfl
  · next whole =>
    have lost : lostPath? c = none := by
      unfold Catalog.Command.isBroken at whole
      unfold lostPath?
      cases result : c.result with
      | none => rfl
      | some x => cases x <;> simp_all
    rw [blamedBatch?, lost, Option.bind_none]

/-- How many commands count for some batch. -/
theorem total_commandsByBatch (i : Imports) (v : Catalog.Validation) :
    (Summary.of i v).commandsByBatch.total =
      v.commands.countP fun c => (lostPath? c).any (records i.entries) := by
  rw [Summary.of, total_countEach, blamed_broken, List.length_filterMap_eq_countP]
  simp only [blamedBatch?_isSome]

/-- Of what two properties tell apart there is as much more as there is more of the
one property. -/
theorem countP_exchange {α : Type} (p q : α → Bool) (l : List α) :
    l.countP p + l.countP (fun a => q a && !p a) = l.countP q + l.countP fun a => p a && !q a := by
  have first := l.countP_eq_countP_filter_add p q
  have second := l.countP_eq_countP_filter_add q p
  simp only [List.countP_filter] at first second
  have both : l.countP (fun a => p a && q a) = l.countP fun a => q a && p a := by
    simp only [Bool.and_comm]
  omega

end Report

namespace Inspection

open Report (records lostPath? batchOf? blamedBatch?)

variable {i : Inspection} {r : Repository} {now : Timestamp} {entries : List Ledger.Entry}
variable {commands : List Catalog.Command} {c : Catalog.Command} {p : Path}

/-! ### A report with both sections -/

/-- What a report is made of where the ledger and the catalog are read. -/
theorem report_of_ok (now : Timestamp) (active : i.store.active r = .ok entries)
    (loaded : i.catalog r.tree = .ok commands) :
    (i.report now r).findings = (i.scanFor r.tree entries).outcome.findings ∧
      (i.report now r).commands = (i.check r.tree entries commands).commands ∧
      (i.report now r).issues = (i.check r.tree entries commands).issues ∧
      (i.report now r).summary =
        .of (i.scanFor r.tree entries) (i.check r.tree entries commands) := by
  unfold report
  rw [active, loaded]
  exact ⟨rfl, rfl, rfl, rfl⟩

/-- What a report tells of a command that lost a path goes by normal forms. -/
theorem tellsArchived_iff (active : i.store.active r = .ok entries)
    (loaded : i.catalog r.tree = .ok commands) (hc : c ∈ (i.report now r).commands) :
    (i.report now r).tellsArchived c = (lostPath? c).any
      (Catalog.isArchived ((archivedPaths entries).filterMap Path.normalize?)) := by
  obtain ⟨-, results, issues, -⟩ := report_of_ok now active loaded
  rw [results] at hc
  obtain ⟨d, hd, rfl⟩ := List.mem_map.1 hc
  unfold Report.tellsArchived lostPath?
  rw [issues]
  dsimp only
  cases result : Catalog.checkCommand r.tree i.root _ _ d with
  | archivedImplementation =>
    obtain ⟨p, given, gone⟩ := Catalog.checkCommand_archived result
    simp only [given, Option.any_some, gone]
  | missingShell =>
    obtain ⟨told, problem⟩ := Catalog.checkCommand_missing result
    have iff := Catalog.issue_archived_iff ((archivedPaths entries).filterMap Path.normalize?)
      Catalog.steady_shellVerdict? hd (Catalog.gone_of_problem problem)
    rw [Option.any_some, Bool.eq_iff_iff, List.any_eq_true, ← iff]
    simp only [Bool.and_eq_true, decide_eq_true_eq, and_assoc]
    rfl
  | ok => rfl
  | missingImplementation => rfl
  | brokenShell => rfl

/-- What is found is the normal form of an entry's path. -/
theorem exists_entry_of_finding {f : Reference.Finding}
    (hf : f ∈ (i.scanFor r.tree entries).outcome.findings) :
    ∃ e ∈ entries, ∃ q, e.original.normalize? = some q ∧ q.same f.script = true := by
  have scanned : f ∈ (i.scanner.scan r.tree (archivedPaths entries) i.searchRoots
      i.excludeDirs).findings := hf
  have up := Reference.ofPaths_ascends (archivedPaths entries)
  rw [Scan.scan_findings] at scanned
  split at scanned
  · simp at scanned
  have found := (Order.ascends_sortDistinct Reference.Finding.before_byKey _).mem_iff.1 scanned
  have separable : Reference.Separable Reference.Finding.key Reference.scriptKey fun j =>
      Order.sortDistinct Reference.Finding.before
        ((i.scanner.files r.tree i.searchRoots i.excludeDirs).1.flatMap
          (i.scanner.found r.tree j)) :=
    .sortDistinct Reference.Finding.before_byKey
      (.flatMap fun file _ => Scan.separable_found _ _ file)
  rw [separable _ up] at found
  obtain ⟨q, picked, -⟩ := Option.bind_eq_some_iff.1 found
  obtain ⟨-, p, hp, normal⟩ := Reference.mem_ofPaths.1 (Order.mem_of_pick picked)
  obtain ⟨e, he, rfl⟩ := List.mem_map.1 hp
  exact ⟨e, he, q, normal, Path.same_of_key (Order.key_of_pick picked)⟩

theorem mem_archivedPaths {a : Path} :
    a ∈ archivedPaths entries ↔ ∃ e ∈ entries, e.original = a := List.mem_map

/-- Of recorded paths those with a normal form are known to be archived. -/
theorem isArchived_of_records (recorded : records entries p = true) :
    Catalog.isArchived ((archivedPaths entries).filterMap Path.normalize?) p =
      p.normalize?.isSome := by
  obtain ⟨e, he, same⟩ := Report.records_iff.1 recorded
  rw [Bool.eq_iff_iff, Catalog.isArchived_iff, Option.isSome_iff_exists]
  constructor
  · rintro ⟨-, -, q, normal, -⟩
    exact ⟨q, normal⟩
  · rintro ⟨q, normal⟩
    exact ⟨e.original, mem_archivedPaths.2 ⟨e, he, rfl⟩, q, normal,
      (Path.normalize?_congr same).trans normal⟩

/-- What is known to be archived is recorded where it is written directly. -/
theorem records_of_isArchived (direct : ∀ e ∈ entries, e.original.IsDirect) (here : p.IsDirect)
    (h : Catalog.isArchived ((archivedPaths entries).filterMap Path.normalize?) p = true) :
    records entries p = true := by
  obtain ⟨a, ha, q, normal, normal'⟩ := Catalog.isArchived_iff.1 h
  obtain ⟨e, he, rfl⟩ := mem_archivedPaths.1 ha
  obtain ⟨q₁, normal₁, same₁⟩ := direct e he
  obtain ⟨q₂, normal₂, same₂⟩ := here
  obtain rfl : q₁ = q := Option.some.inj (normal₁.symm.trans normal')
  obtain rfl : q₂ = q₁ := Option.some.inj (normal₂.symm.trans normal)
  exact Report.records_iff.2 ⟨e, he, Path.same_trans same₁ (Path.same_symm same₂)⟩

/-- How many commands count for some batch, beside how many are told to be lost to
archiving: the one number lacks those whose path is recorded in another spelling, the
other those whose path is recorded and has no normal form. -/
theorem total_commands (now : Timestamp) (active : i.store.active r = .ok entries)
    (loaded : i.catalog r.tree = .ok commands) :
    (i.report now r).summary.commandsByBatch.total +
        (i.report now r).commands.countP (fun c =>
          (i.report now r).tellsArchived c && !(lostPath? c).any (records entries)) =
      (i.report now r).commands.countP (i.report now r).tellsArchived +
        (i.report now r).commands.countP fun c =>
          (lostPath? c).any fun p => records entries p && p.normalize?.isNone := by
  obtain ⟨-, results, -, summary⟩ := report_of_ok now active loaded
  have total : (i.report now r).summary.commandsByBatch.total =
      (i.report now r).commands.countP fun c => (lostPath? c).any (records entries) := by
    rw [summary, results, Report.total_commandsByBatch]
    rfl
  rw [total, Report.countP_exchange]
  refine congrArg _ (List.countP_congr fun c hc => ?_)
  rw [tellsArchived_iff active loaded hc]
  cases lostPath? c with
  | none => simp
  | some p =>
    rw [Option.any_some, Option.any_some, Option.any_some, Bool.and_eq_true, Bool.and_eq_true]
    refine and_congr_right fun recorded => ?_
    rw [isArchived_of_records recorded, Option.not_isSome]

/-- The paths of a command are those of the catalog. -/
theorem direct_of_lost (active : i.store.active r = .ok entries)
    (loaded : i.catalog r.tree = .ok commands)
    (direct : ∀ c ∈ commands, c.shell.IsDirect ∧ ∀ p, c.implementation = some p → p.IsDirect)
    (hc : c ∈ (i.report now r).commands) (lost : lostPath? c = some p) : p.IsDirect := by
  obtain ⟨-, results, -, -⟩ := report_of_ok now active loaded
  rw [results] at hc
  obtain ⟨d, hd, rfl⟩ := List.mem_map.1 hc
  unfold Report.lostPath? at lost
  split at lost
  · exact (direct d hd).2 p lost
  · exact Option.some.inj lost ▸ (direct d hd).1
  · exact absurd lost (by simp)

/-- **What counts for a batch.** In a report whose ledger and catalog are read, the
tables have for each batch the findings and the broken commands of its entries. The
findings of all batches are all findings if and only if each of them has a script that
some entry writes so. The commands of all batches are those that are told to be lost
to archiving, without those whose path no entry writes so, and with those whose path
has no normal form and is recorded. Where the ledger and the catalog write all paths
as their normal forms, nothing is left out and nothing added. -/
theorem report_attributes (now : Timestamp) (active : i.store.active r = .ok entries)
    (loaded : i.catalog r.tree = .ok commands) :
    (∀ b, ((i.report now r).summary.importsByBatch.get? b).getD 0 =
        (i.report now r).findings.countP (fun f => batchOf? entries f.script == some b) ∧
      ((i.report now r).summary.commandsByBatch.get? b).getD 0 =
        (i.report now r).commands.countP fun c => blamedBatch? entries c == some b) ∧
    ((i.report now r).summary.importsByBatch.total = (i.report now r).summary.brokenImports ↔
      ∀ f ∈ (i.report now r).findings, ∃ e ∈ entries, e.original.same f.script = true) ∧
    (i.report now r).summary.commandsByBatch.total +
        (i.report now r).commands.countP (fun c =>
          (i.report now r).tellsArchived c && !(lostPath? c).any (records entries)) =
      (i.report now r).commands.countP (i.report now r).tellsArchived +
        (i.report now r).commands.countP (fun c =>
          (lostPath? c).any fun p => records entries p && p.normalize?.isNone) ∧
    ((∀ e ∈ entries, e.original.IsDirect) →
      (∀ c ∈ commands, c.shell.IsDirect ∧ ∀ p, c.implementation = some p → p.IsDirect) →
      (i.report now r).summary.importsByBatch.total = (i.report now r).summary.brokenImports ∧
        (i.report now r).summary.commandsByBatch.total =
          (i.report now r).commands.countP (i.report now r).tellsArchived) := by
  obtain ⟨findings, results, -, summary⟩ := report_of_ok now active loaded
  have imports : (i.report now r).summary.importsByBatch.total =
      (i.report now r).summary.brokenImports ↔
      ∀ f ∈ (i.report now r).findings, ∃ e ∈ entries, e.original.same f.script = true := by
    have total : (i.report now r).summary.importsByBatch.total =
        (i.report now r).findings.countP fun f => records entries f.script := by
      rw [summary, findings]
      exact Report.total_byBatch _
    have all : (i.report now r).summary.brokenImports = (i.report now r).findings.length := by
      rw [summary, findings]
      rfl
    rw [total, all, List.countP_eq_length]
    simp only [Report.records_iff]
  have commands_total := total_commands now active loaded
  refine ⟨fun b => ⟨?_, ?_⟩, imports, commands_total, fun direct directly => ⟨?_, ?_⟩⟩
  · rw [summary, findings]
    exact (Report.get?_countEach _ b).trans (List.count_filterMap ..)
  · rw [summary, results, Report.Summary.of, Report.blamed_broken]
    exact (Report.get?_countEach _ b).trans (List.count_filterMap ..)
  · refine imports.2 fun f hf => ?_
    rw [findings] at hf
    obtain ⟨e, he, q, normal, same⟩ := exists_entry_of_finding hf
    obtain ⟨q', normal', same'⟩ := direct e he
    obtain rfl : q' = q := Option.some.inj (normal'.symm.trans normal)
    exact ⟨e, he, Path.same_trans same' same⟩
  · have missed : (i.report now r).commands.countP (fun c =>
        (i.report now r).tellsArchived c && !(lostPath? c).any (records entries)) = 0 := by
      refine List.countP_eq_zero.2 fun c hc => ?_
      rw [tellsArchived_iff active loaded hc]
      cases lost : lostPath? c with
      | none => simp
      | some p =>
        have here := direct_of_lost active loaded directly hc lost
        simpa using records_of_isArchived direct here
    have strayed : (i.report now r).commands.countP (fun c =>
        (lostPath? c).any fun p => records entries p && p.normalize?.isNone) = 0 := by
      refine List.countP_eq_zero.2 fun c hc => ?_
      cases lost : lostPath? c with
      | none => simp
      | some p =>
        obtain ⟨q, normal, -⟩ := direct_of_lost active loaded directly hc lost
        simp [normal]
    omega

def dottedText : String := "./scripts/a.sh\n"

def dottedEntry : Ledger.Entry := .fresh ⟨"./scripts/a.sh"⟩ ⟨"z/a.sh"⟩ "b1" ⟨⟨2025, 6, 1⟩, 0, 0⟩ ""

def dottedRepository : Repository where
  tree := ⟨[(["r"], .folder), (["r", "app"], .folder),
    (["r", "app", "main.sh"], .file 0o644 dottedText.toByteArray)]⟩
  entries := [dottedEntry]

def dottedCommand : Catalog.Command := ⟨"m", "x", ⟨"m.sh"⟩, some ⟨"scripts/a.sh"⟩, none⟩

def dottedInspection : Inspection :=
  ⟨⟨"/r"⟩, .memory, fun _ => .ok [dottedCommand], fun _ _ => .valid, .standard ⟨"/r"⟩,
    [⟨"."⟩], []⟩

def dottedReport : Report :=
  dottedInspection.report ⟨⟨2025, 6, 2⟩, 0, 0⟩ dottedRepository

/-- An entry whose path starts with a dot: its script is found and its command is told
to be archived, and neither counts for a batch. -/
theorem report_attributes_dotted :
    dottedInspection.store.active dottedRepository = .ok [dottedEntry] ∧
    dottedInspection.catalog dottedRepository.tree = .ok [dottedCommand] ∧
    (∃ f ∈ dottedReport.findings, f.script = ⟨"scripts/a.sh"⟩) ∧
    dottedReport.summary.importsByBatch.total ≠ dottedReport.summary.brokenImports ∧
    dottedReport.summary.commandsByBatch.total <
      dottedReport.commands.countP dottedReport.tellsArchived := by
  have active : dottedInspection.store.active dottedRepository = .ok [dottedEntry] := rfl
  have loaded : dottedInspection.catalog dottedRepository.tree = .ok [dottedCommand] := rfl
  have found : ∃ f ∈ dottedReport.findings, f.script = ⟨"scripts/a.sh"⟩ := by decide +kernel
  have missed : dottedReport.commands.countP (fun c =>
      dottedReport.tellsArchived c && !(lostPath? c).any (records [dottedEntry])) = 1 := by
    decide +kernel
  have strayed : dottedReport.commands.countP (fun c =>
      (lostPath? c).any fun p => records [dottedEntry] p && p.normalize?.isNone) = 0 := by
    decide +kernel
  obtain ⟨-, imports, commands, -⟩ :=
    report_attributes ⟨⟨2025, 6, 2⟩, 0, 0⟩ active loaded
  rw [← dottedReport] at imports commands
  refine ⟨active, loaded, found, fun all => ?_, by omega⟩
  obtain ⟨f, hf, script⟩ := found
  obtain ⟨e, he, same⟩ := imports.1 all f hf
  rw [List.mem_singleton.1 he, script] at same
  exact absurd same (by decide +kernel)

end Inspection
end Attic
