import Attic.Cli.Run
import Attic.Proofs.Scan.Walk
import Mathlib

/-!
# Listing the files of a scan

A command lists the files that would be scanned. It leaves out what the settings
leave out, and a scan leaves out the folder of the archived copies as well. So
a file is listed and not scanned if every way to it leads through such a folder,
and the two agree if the settings leave that folder out themselves.

Key definition: `Cli.Listing`.
Key theorems: `Path.map_key_eq_iff`, `Cli.listing`, `Cli.run_scan`.
-/

namespace Attic

namespace Path

/-- Sorted lists of paths have the same paths if each of them is in both. -/
theorem map_key_eq_iff {l l' : List Path} (h : Order.Ascends key l) (h' : Order.Ascends key l') :
    l.map key = l'.map key ↔
      ∀ f, (∃ g ∈ l, g.same f = true) ↔ ∃ g ∈ l', g.same f = true := by
  have inside (l : List Path) (f : Path) : (∃ g ∈ l, g.same f = true) ↔ f.key ∈ l.map key := by
    simp only [List.mem_map, key_eq_iff]
  have up {l : List Path} (h : Order.Ascends key l) : (l.map key).Pairwise (· < ·) :=
    List.pairwise_map.2 h
  simp only [inside]
  constructor
  · intro e f
    rw [e]
  · intro same
    refine (up h).eq_of_mem_iff (up h') fun k => ⟨fun hk => ?_, fun hk => ?_⟩
    · obtain ⟨f, -, rfl⟩ := List.mem_map.1 hk
      exact (same f).1 hk
    · obtain ⟨f, -, rfl⟩ := List.mem_map.1 hk
      exact (same f).2 hk

end Path

namespace Cli

variable {h : Host} {t : Tree} {w : Workspace} {i : Invocation}

namespace Workspace

theorem load_eq_ok : load h i t = .ok w ↔ t.canonical (h.directory.join i.root) = .ok w.root ∧
    settingsOf h i t w.root = .ok w.settings ∧ h = w.host := by
  unfold load
  cases t.canonical (h.directory.join i.root) with
  | error f => simp
  | ok root =>
    constructor
    · intro loaded
      cases given : settingsOf h i t root with
      | error f => simp [given, Except.map] at loaded
      | ok settings =>
        obtain rfl : Workspace.mk h root settings = w := by simpa [given, Except.map] using loaded
        exact ⟨rfl, given, rfl⟩
    · rintro ⟨same, given, rfl⟩
      obtain rfl := Except.ok.inj same
      simp [given, Except.map]

/-- The patterns of a workspace can be read. -/
theorem patterns_of_load (loaded : load h i t = .ok w) :
    ∃ globs, w.settings.patterns = .ok globs := by
  obtain ⟨-, given, -⟩ := load_eq_ok.1 loaded
  unfold settingsOf at given
  dsimp only at given
  split at given
  · simp at given
  split at given
  · simp at given
  next globs read =>
  rw [Except.ok.inj given] at read
  exact ⟨globs, read⟩

end Workspace

/-- How the files that are listed compare with those that are scanned. -/
structure Listing (s : Scan.Scanner) (t : Tree) (settings : Settings)
    (listed scanned : List Path) : Prop where
  listed_iff : ∀ f, (∃ g ∈ listed, g.same f = true) ↔
    s.Finds t settings.searchRoots settings.excludeDirs f
  scanned_iff : ∀ f, (∃ g ∈ scanned, g.same f = true) ↔
    s.FindsApart t settings.searchRoots settings.excludeDirs ⟨settings.archiveDir⟩ f
  same_iff : listed.map Path.key = scanned.map Path.key ↔ ∀ f ∈ listed,
    s.FindsApart t settings.searchRoots settings.excludeDirs ⟨settings.archiveDir⟩ f
  same_of_mem : ⟨settings.archiveDir⟩ ∈ settings.excludeDirs → listed = scanned

theorem listing (s : Scan.Scanner) (t : Tree) (settings : Settings) :
    Listing s t settings (s.files t settings.searchRoots settings.excludeDirs).1
      (s.files t settings.searchRoots (settings.excludeDirs ++ [⟨settings.archiveDir⟩])).1 := by
  have listed_iff := s.mem_files t settings.searchRoots settings.excludeDirs
  have scanned_iff := s.mem_files_concat t settings.searchRoots settings.excludeDirs
    ⟨settings.archiveDir⟩
  refine ⟨listed_iff, scanned_iff, ?_, fun inside => ?_⟩
  · rw [Path.map_key_eq_iff (s.files_ascends ..) (s.files_ascends ..)]
    simp only [listed_iff, scanned_iff]
    constructor
    · intro same f hf
      exact (same f).1 ((listed_iff f).1 ⟨f, hf, Path.same_refl f⟩)
    · intro apart f
      refine ⟨fun finds => ?_, fun ⟨r, hr, names, comes, _⟩ => ⟨r, hr, names, comes⟩⟩
      obtain ⟨g, hg, same⟩ := (listed_iff f).2 finds
      obtain ⟨r, hr, names, comes, avoids⟩ := apart g hg
      exact ⟨r, hr, names, ⟨comes.stands, comes.lets, Path.same_trans comes.seen same⟩, avoids⟩
  · rw [Scan.Scanner.files_concat_of_mem inside]

/-- **Listing the files of a scan.** Of the files that are listed those are scanned
to which a way leads through no folder of archived copies. What cannot be walked
is the same for both. -/
theorem run_scan {args : List String} (catalog : Option Path)
    (read : Invocation.read args = .ok i) (asked : i.command = .scan none)
    (loaded : Workspace.load h i t = .ok w) :
    ∃ inspection listed scanned warnings, w.inspection catalog = .ok inspection ∧
      inspection.scanner.files t w.settings.searchRoots w.settings.excludeDirs =
        (listed, warnings) ∧
      inspection.scanner.files t inspection.searchRoots inspection.excludeDirs =
        (scanned, warnings) ∧
      (∀ entries, (inspection.scanFor t entries).outcome.filesScanned = scanned.length) ∧
      run h args t = (⟨0, textOf (scanLines listed),
        (if i.verbose then textOf ["info: Repository root " ++ w.root.text] else "") ++
          textOf (warnings.map warningLine)⟩, t) ∧
      Listing inspection.scanner t w.settings listed scanned := by
  obtain ⟨globs, patterns⟩ := Workspace.patterns_of_load loaded
  let scanner : Scan.Scanner := ⟨w.root, globs, w.settings.maxFileBytes, w.settings.threads⟩
  have made : Scan.Scanner.ofSettings w.root w.settings = .ok scanner := by
    rw [Scan.Scanner.ofSettings, patterns]
    rfl
  let inspection : Inspection := ⟨w.root, w.store, fun t => Catalog.load t (w.catalogPath catalog),
    w.host.checker, scanner, w.settings.searchRoots,
    w.settings.excludeDirs ++ [⟨w.settings.archiveDir⟩]⟩
  have inspects : w.inspection catalog = .ok inspection := by
    simp only [Workspace.inspection, Inspection.ofSettings, made, Except.map]
    rfl
  have warnings := scanner.files_warnings t w.settings.searchRoots w.settings.excludeDirs
    (w.settings.excludeDirs ++ [⟨w.settings.archiveDir⟩])
  refine ⟨inspection, _, _, _, inspects, rfl, Prod.ext rfl warnings.symm, fun entries => ?_, ?_,
    listing scanner t w.settings⟩
  · simp only [Inspection.scanFor, Scan.Scanner.scan]
    split <;> rfl
  · have lists : w.listFiles none t = .ok (.of true
        (scanLines (scanner.files t w.settings.searchRoots w.settings.excludeDirs).1)
        ((scanner.files t w.settings.searchRoots w.settings.excludeDirs).2.map warningLine)) := by
      simp only [Workspace.listFiles, made, Option.getD_none]
    simp only [run, read, loaded, asked, Workspace.perform, lists, Workspace.resultOf, Result.of]
    rfl

/-- A repository whose settings give the archived copies a folder and leave the
exclusions as they are. -/
def atticTree : Tree := ⟨[(["r"], .folder),
  (["r", ".script-archive.json"],
    .file 0o644 "\x7b\"archive_dir_name\":\"attic\"\x7d".toByteArray),
  (["r", "app"], .folder), (["r", "app", "attic"], .folder),
  (["r", "app", "attic", "old.sh"], .file 0o644 "echo old\n".toByteArray),
  (["r", "app", "main.sh"], .file 0o644 "echo main\n".toByteArray)]⟩

def atticHost : Host := ⟨⟨"/r"⟩, ⟨⟨2025, 6, 1⟩, 0, 0⟩, fun _ _ => .valid⟩

def atticSettings : Settings := { Settings.standard with archiveDir := "attic" }

def atticWorkspace : Workspace := ⟨atticHost, ⟨"/r"⟩, atticSettings⟩

def atticInspection : Inspection := ⟨⟨"/r"⟩, atticWorkspace.store,
  fun t => Catalog.load t (atticWorkspace.catalogPath none), atticHost.checker,
  .standard ⟨"/r"⟩, [⟨"."⟩], Settings.standard.excludeDirs ++ [⟨"attic"⟩]⟩

/-- A copy is listed that is not scanned. -/
theorem run_scan_attic : atticWorkspace.inspection none = .ok atticInspection ∧
    (run atticHost ["scan"] atticTree).1.output = textOf (scanLines
      [⟨".script-archive.json"⟩, ⟨"app/attic/old.sh"⟩, ⟨"app/main.sh"⟩]) ∧
    atticInspection.scanner.files atticTree atticInspection.searchRoots
      atticInspection.excludeDirs = ([⟨".script-archive.json"⟩, ⟨"app/main.sh"⟩], []) ∧
    Listing atticInspection.scanner atticTree atticSettings
      [⟨".script-archive.json"⟩, ⟨"app/attic/old.sh"⟩, ⟨"app/main.sh"⟩]
      [⟨".script-archive.json"⟩, ⟨"app/main.sh"⟩] := by
  have read : Invocation.read ["scan"] =
      .ok ⟨⟨"."⟩, none, [], none, false, .scan none⟩ := by decide +kernel
  have loaded : Workspace.load atticHost ⟨⟨"."⟩, none, [], none, false, .scan none⟩ atticTree =
      .ok atticWorkspace :=
    Workspace.load_eq_ok.2 ⟨by decide +kernel, by decide +kernel, rfl⟩
  have made : atticWorkspace.inspection none = .ok atticInspection := rfl
  obtain ⟨inspection, listed, scanned, warnings, inspects, lists, scans, -, ran, compare⟩ :=
    run_scan none read rfl loaded
  obtain rfl := Except.ok.inj (made.symm.trans inspects)
  have lists' : atticInspection.scanner.files atticTree [⟨"."⟩] Settings.standard.excludeDirs =
      ([⟨".script-archive.json"⟩, ⟨"app/attic/old.sh"⟩, ⟨"app/main.sh"⟩], []) :=
    Scan.Scanner.files_single (by decide +kernel) (by decide +kernel)
  have scans' : atticInspection.scanner.files atticTree atticInspection.searchRoots
      atticInspection.excludeDirs = ([⟨".script-archive.json"⟩, ⟨"app/main.sh"⟩], []) :=
    Scan.Scanner.files_single (by decide +kernel) (by decide +kernel)
  obtain ⟨rfl, rfl⟩ := Prod.mk.inj (lists.symm.trans lists')
  obtain ⟨rfl, -⟩ := Prod.mk.inj (scans.symm.trans scans')
  exact ⟨made, by rw [ran], scans', compare⟩

end Cli
end Attic
