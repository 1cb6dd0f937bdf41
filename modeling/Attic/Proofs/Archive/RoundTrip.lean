import Attic.Proofs.Archive.Commits
import Attic.Proofs.Restore.Planning
import Attic.Proofs.Restore.Progress
import Mathlib

/-!
# Archiving and restoring

What has been archived as a batch can be restored as one: each script comes back
to its place with its bytes, every other file is as it was, and the ledger says
of each entry that it is restored.

Key definitions: `Archive.itemOf`, `Archive.Stowed`, `Archive.Ready`, `Archive.LeadsTo`.
Key theorem: `Archive.archive_restore`.
-/

namespace Attic
namespace Archive

open Ledger (Entry Keeper Store)
open Restore (Item Plan Reading Restorer)

variable {q : Request} {paths : List Path} {out : Outcome} {r r₁ r₂ : Repository}
variable {t t' : Tree} {p root : Path} {base : Location} {active es : List Entry} {e : Entry}
variable {mode : Nat} {bytes : ByteArray}

/-- The item that restores a script archived from a tree. -/
def itemOf (t : Tree) (root : Path) (e : Entry) : Item :=
  ⟨e, .restore, Restore.isExecutable t (root.join e.original)⟩

/-! ### Executable scripts -/

theorem isExecutable_of_readFile (h : t.readFile p = .ok (mode, bytes)) :
    Restore.isExecutable t p = (mode &&& 0o111 != 0 ||
      p.extension?.any Restore.shellExtensions.contains ||
      (bytes.extract 0 2).toList == [0x23, 0x21]) := by
  rw [Restore.isExecutable, h]
  cases p.extension? <;> rfl

/-- A copy counts as executable if its script does. -/
theorem Planned.isExecutable (h : Planned q t active e) (hd : Path.IsName q.dirName)
    (script : t.readFile (q.root.join e.original) = .ok (mode, bytes))
    (copy : t'.readFile (q.root.join e.archive) = .ok (mode, bytes)) :
    Restore.isExecutable t' (q.root.join e.archive) =
      Restore.isExecutable t (q.root.join e.original) := by
  obtain ⟨ns, n, k, hns, hn, original, archive⟩ := h.names
  have shell := isShell_candidateName hns hn q.now.date k q.root q.root
    (Path.isName_concat hns hd)
  rw [isExecutable_of_readFile copy, isExecutable_of_readFile script, archive, original,
    candidate_ofNames hns hn hd, ← shell, List.append_assoc]
  rfl

/-! ### What archiving leaves -/

/-- The state after a batch has been archived from a repository. -/
structure Stowed (q : Request) (base : Location) (es : List Entry) (r r₁ : Repository) : Prop where
  plain : r.tree.Plain
  rooted : r.tree.reach [] (Tree.steps q.root.text) = some base
  planned : ∀ e ∈ es, Planned q r.tree (r.entries.filter Entry.isActive) e
  sited : ∀ e ∈ es, Sited q.root q.dirName e
  apart : es.Pairwise Entry.Apart
  entries : r₁.entries = r.entries ++ es
  plain₁ : r₁.tree.Plain
  committed : Committed q.root base q.dirName es r.tree r₁.tree

theorem archive_ok (archived : archive q .memory paths false r = (.ok out, r₁)) :
    planScripts q r.tree (r.entries.filter Entry.isActive) [] paths = .ok out.entries ∧
      commit q.root .memory out.entries r = (.ok (), r₁) := by
  obtain ⟨active, read, planned, done⟩ := archive_done archived
  obtain rfl : r.entries.filter Entry.isActive = active := Except.ok.inj read
  exact ⟨planned, done⟩

theorem has_of_isFile (h : t.isFile p = true) : t.has p = true := by
  obtain ⟨mode, bytes, h⟩ := Tree.isFile_iff.1 h
  rw [Tree.has, Tree.readFile_eq_ok.1 h]

/-- A batch that has been planned and can be committed: a script is a file, and
nothing is where a copy goes. -/
structure Ready (q : Request) (base : Location) (active es : List Entry) (t : Tree) : Prop where
  rooted : t.reach [] (Tree.steps q.root.text) = some base
  planned : ∀ e ∈ es, Planned q t active e
  sited : ∀ e ∈ es, Sited q.root q.dirName e
  apart : es.Pairwise Entry.Apart
  files : ∀ e ∈ es, ∃ mode bytes,
    t.get? (Tree.placeBelow base e.original) = some (.file mode bytes)

/-- **A planned batch can be committed.** -/
theorem planScripts_ready (plain : t.Plain) (hd : Path.IsName q.dirName) (hne : paths ≠ [])
    (scripts : planScripts q t active [] paths = .ok es) :
    es.map (fun e => some e.original) = paths.map Path.normalize? ∧
      ∃ base, Ready q base active es t := by
  obtain ⟨es, rfl, normals, planned, unlike⟩ := planScripts_planned scripts
  refine ⟨normals, ?_⟩
  have sited : ∀ e ∈ es, Sited q.root q.dirName e := fun e he => (planned e he).sited plain hd
  obtain ⟨base, rooted⟩ : ∃ base, t.reach [] (Tree.steps q.root.text) = some base := by
    cases es with
    | nil => simp [hne] at normals
    | cons e es =>
      exact Tree.reach_root plain (sited e (by simp)).nameable.normal (planned e (by simp)).file
  have across {e j : Entry} (he : e ∈ es) (hj : j ∈ es) : e.original ≠ j.archive := by
    intro same
    have free := (planned j hj).free
    rw [← same, has_of_isFile (planned e he).file] at free
    exact Bool.noConfusion free
  have apart : es.Pairwise Entry.Apart := by
    refine (unlike .nil).imp_of_mem fun he hj h => ?_
    exact ⟨h.1, h.2, across he hj, across hj he⟩
  have files : ∀ e ∈ es, ∃ mode bytes,
      t.get? (Tree.placeBelow base e.original) = some (.file mode bytes) := fun e he =>
    ((Tree.isFile_normal plain rooted (sited e he).nameable.normal).1 (planned e he).file).2
  exact ⟨base, rooted, planned, sited, apart, files⟩

/-- A batch that nobody has yet has no active entries. -/
theorem ofBatch_fresh {es : List Entry} (fresh : ∀ e ∈ es, e.isActive = true → e.batch ≠ q.batch) :
    ((es.filter Entry.isActive).filter fun e => e.batch = q.batch) = [] := by
  rw [List.filter_eq_nil_iff]
  intro e he
  obtain ⟨mem, active⟩ := List.mem_filter.1 he
  simpa using fresh e mem active

/-- **Archiving stows the scripts away.** -/
theorem archive_stowed (plain : r.tree.Plain) (hd : Path.IsName q.dirName) (hne : paths ≠ [])
    (archived : archive q .memory paths false r = (.ok out, r₁)) :
    out.entries.map (fun e => some e.original) = paths.map Path.normalize? ∧
      ∃ base, Stowed q base out.entries r r₁ := by
  obtain ⟨scripts, commits⟩ := archive_ok archived
  obtain ⟨normals, base, rooted, planned, sited, apart, files⟩ :=
    planScripts_ready plain hd hne scripts
  obtain ⟨entries, plain₁, committed⟩ := commit_committed plain rooted sited apart files commits
  exact ⟨normals, base, plain, rooted, planned, sited, apart, entries, plain₁, committed⟩

namespace Stowed

variable (h : Stowed q base es r r₁)

include h

theorem rooted₁ : r₁.tree.reach [] (Tree.steps q.root.text) = some base :=
  Tree.reach_kept h.committed.folders _ _ h.rooted

theorem lasting : Restore.Lasting q.root base r.tree r₁ :=
  ⟨h.plain, h.rooted, h.plain₁, h.committed.folders⟩

/-- The copy of a script is that script. -/
theorem exists_file (he : e ∈ es) : ∃ mode bytes,
    r.tree.readFile (q.root.join e.original) = .ok (mode, bytes) ∧
    r₁.tree.readFile (q.root.join e.archive) = .ok (mode, bytes) := by
  obtain ⟨mode, bytes, script, copy⟩ := h.committed.moved e he
  have original := (h.sited e he).nameable
  have archive := h.committed.nameable e he
  exact ⟨mode, bytes, (Tree.readFile_normal h.plain h.rooted original.normal).2 ⟨original, script⟩,
    (Tree.readFile_normal h.plain₁ h.rooted₁ archive.normal).2 ⟨archive, copy⟩⟩

theorem isActive (he : e ∈ es) : e.isActive = true := by
  rw [(h.planned e he).fresh]
  rfl

/-- Before the batch nothing was where a copy goes. -/
theorem free (he : e ∈ es) : r.tree.get? (Tree.placeBelow base e.archive) = none := by
  by_contra there
  obtain ⟨o, there⟩ := Option.ne_none_iff_exists'.1 there
  have free := (h.planned e he).free
  rw [Tree.has_normal h.plain h.rooted (h.committed.nameable e he) there] at free
  exact Bool.noConfusion free

/-! ### The plan of the batch -/

theorem planItem_eq (hd : Path.IsName q.dirName) (he : e ∈ es) :
    Restore.planItem r₁.tree q.root e = itemOf r.tree q.root e := by
  obtain ⟨mode, bytes, script, copy⟩ := h.exists_file he
  have file := Tree.isFile_iff.2 ⟨mode, bytes, copy⟩
  obtain ⟨f, free⟩ := Tree.lookPlain_of_none h.plain₁ h.rooted₁ (h.sited e he).nameable
    (h.committed.gone e he)
  have executable := (h.planned e he).isExecutable hd script copy
  simp only [Restore.planItem, file, Bool.not_true, Bool.false_eq_true, if_false, free, executable,
    itemOf]

/-- **The batch is planned as it was archived.** -/
theorem plan_eq (hd : Path.IsName q.dirName) (categories : Order.Table String)
    (fresh : ∀ e ∈ r.entries, e.isActive = true → e.batch ≠ q.batch) :
    ∃ p, Restorer.plan ⟨q.root, categories, .memory⟩ (.batch q.batch) r₁ = .ok p ∧
      p.items.Perm (es.map (itemOf r.tree q.root)) := by
  have old := ofBatch_fresh fresh
  have new : ((es.filter Entry.isActive).filter fun e => e.batch = q.batch) = es := by
    rw [List.filter_eq_self.2 fun e he => h.isActive he, List.filter_eq_self]
    intro e he
    rw [(h.planned e he).fresh]
    simp [Entry.fresh]
  have selected : Restorer.select ⟨q.root, categories, .memory⟩ (.batch q.batch) r₁ = .ok es := by
    simp only [Restorer.select, Store.ofBatch, Store.memory, Except.map, h.entries,
      List.filter_append, old, new, List.nil_append]
  refine ⟨_, by rw [Restorer.plan, selected], ?_⟩
  refine ((Order.sortBy_perm _ _).map _).trans ?_
  rw [List.map_congr_left fun e he => h.planItem_eq hd he]

/-! ### The batch restored -/

theorem waits (he : e ∈ es) : (itemOf r.tree q.root e).Waits q.root base r.tree r₁ where
  target := (h.sited e he).nameable
  archive := h.committed.nameable e he
  was := by
    obtain ⟨mode, bytes, script, -⟩ := h.exists_file he
    exact ⟨mode, bytes, script⟩
  copy := by
    obtain ⟨mode, bytes, -, copy⟩ := h.committed.moved e he
    exact ⟨mode, bytes, copy⟩
  free := h.committed.gone e he
  active := by
    refine ⟨e, ?_, Ledger.isActiveOf_original (h.isActive he)⟩
    rw [h.entries]
    exact List.mem_append_right _ he

/-- No other active entry has the path of a script of the batch. -/
theorem inactive (he : e ∈ es) {a : Entry} (ha : a ∈ r.entries) :
    a.isActiveOf e.original = false := by
  cases active : a.isActive with
  | false => simp [Entry.isActiveOf, active]
  | true =>
    have := (h.planned e he).new a (List.mem_filter.2 ⟨ha, active⟩)
    simp [Entry.isActiveOf, this]

/-- The entry of a script of the batch is where the batch has it. -/
theorem eq_of_isActiveOf {n m : Nat} {a : Entry} (he : es[n]? = some e)
    (ha : r₁.entries[m]? = some a) (active : a.isActiveOf e.original = true) :
    m = r.entries.length + n ∧ a = e := by
  have mem := List.mem_of_getElem? he
  rw [h.entries] at ha
  by_cases old : m < r.entries.length
  · rw [List.getElem?_append_left old] at ha
    rw [h.inactive mem (List.mem_of_getElem? ha)] at active
    exact Bool.noConfusion active
  · rw [List.getElem?_append_right (by omega)] at ha
    have same : a.original = e.original := by
      simp only [Entry.isActiveOf, Bool.and_eq_true] at active
      exact (h.sited a (List.mem_of_getElem? ha)).nameable.normal.eq_of_same
        (h.sited e mem).nameable.normal active.2
    obtain ⟨hn, rfl⟩ := List.getElem?_eq_some_iff.1 he
    obtain ⟨hm, rfl⟩ := List.getElem?_eq_some_iff.1 ha
    have pairs := List.pairwise_iff_getElem.1 h.apart
    rcases Nat.lt_trichotomy (m - r.entries.length) n with less | rfl | more
    · exact absurd same (pairs _ _ hm hn less).originals
    · exact ⟨by omega, rfl⟩
    · exact absurd same.symm (pairs _ _ hn hm more).originals

variable {categories : Order.Table String} {clock : Item → Reading} {is : List Item}

/-- The ledger after the batch has been restored. -/
theorem entries_restored (perm : is.Perm (es.map (itemOf r.tree q.root)))
    (backs : ∀ i ∈ is, i.Back q.root base (clock i).now r₁.tree r₂.tree r₁.entries r₂.entries)
    (frame : Restore.Framed (s := ⟨q.root, categories, .memory⟩) Keeper.memory base is r₁.tree
      r₂.tree r₁.entries r₂.entries) :
    r₂.entries = r.entries ++ es.map fun e => e.restore (clock (itemOf r.tree q.root e)).now := by
  refine List.ext_getElem? fun n => ?_
  by_cases old : n < r.entries.length
  · rw [List.getElem?_append_left old]
    obtain ⟨a, ha⟩ : ∃ a, r.entries[n]? = some a := ⟨_, List.getElem?_eq_getElem old⟩
    rw [ha]
    refine frame.entries n a ?_ fun i hi => ?_
    · rw [h.entries, List.getElem?_append_left old, ha]
    · obtain ⟨e, he, rfl⟩ := List.mem_map.1 (perm.mem_iff.1 hi)
      exact h.inactive he (List.mem_of_getElem? ha)
  · rw [List.getElem?_append_right (by omega), List.getElem?_map]
    cases he : es[n - r.entries.length]? with
    | none =>
      have more := List.getElem?_eq_none_iff.1 he
      have length := frame.length
      rw [h.entries, List.length_append] at length
      exact List.getElem?_eq_none (by omega)
    | some e =>
      have mem := List.mem_of_getElem? he
      have back := backs _ (perm.mem_iff.2 (List.mem_map_of_mem mem))
      obtain ⟨m, a, there, active, marked⟩ := back.entry
      obtain ⟨place, rfl⟩ := h.eq_of_isActiveOf he there active
      have same : n = m := by omega
      rw [same, marked]
      rfl

end Stowed

/-- Whether a path leads to a file at a place. -/
def LeadsTo (t : Tree) (p : Path) (l : Location) : Prop :=
  ∃ mode bytes, t.spot true false p = .ok (.found l (.file mode bytes))

/-- A batch of entries that is back: the report names its scripts and nothing else,
they have their bytes and permissions, their copies are gone, the other files are
as they were, and its entries are marked. -/
structure Returned (q : Request) (clock : Item → Reading) (es : List Entry) (r r₂ : Repository)
    (report : Restore.Report) : Prop where
  restored : report.restored.Perm (es.map Entry.original)
  skipped : report.skipped = []
  failed : report.failed = []
  warnings : report.warnings = []
  scripts : ∀ e ∈ es, ∃ mode bytes,
    r.tree.readFile (q.root.join e.original) = .ok (mode, bytes) ∧
    r₂.tree.readFile (q.root.join e.original) =
      .ok (Tree.copyMode (Restore.isExecutable r.tree (q.root.join e.original)) mode, bytes)
  copies : ∀ e ∈ es, r₂.tree.isFile (q.root.join e.archive) = false
  others : ∀ l, (∀ e ∈ es, ¬ LeadsTo r.tree (q.root.join e.original) l) → ∀ mode bytes,
    r₂.tree.get? l = some (.file mode bytes) ↔ r.tree.get? l = some (.file mode bytes)
  entries : r₂.entries =
    r.entries ++ es.map fun e => e.restore (clock (itemOf r.tree q.root e)).now

namespace Stowed

variable (h : Stowed q base es r r₁) {categories : Order.Table String} {is : List Item}
variable {clock : Item → Reading} (perm : is.Perm (es.map (itemOf r.tree q.root)))

include h perm

theorem item_waits : ∀ i ∈ is, i.Waits q.root base r.tree r₁ := by
  intro i hi
  obtain ⟨e, he, rfl⟩ := List.mem_map.1 (perm.mem_iff.1 hi)
  exact h.waits he

theorem item_apart : is.Pairwise Item.Apart := by
  refine (perm.pairwise_iff Item.Apart.symm).2 ?_
  rw [List.pairwise_map]
  exact h.apart

variable (plain₂ : r₂.tree.Plain)
variable (rooted₂ : r₂.tree.reach [] (Tree.steps q.root.text) = some base)
variable (backs : ∀ i ∈ is,
  i.Back q.root base (clock i).now r₁.tree r₂.tree r₁.entries r₂.entries)

include backs plain₂ rooted₂

/-- A script that is back has its bytes. -/
theorem script_back (he : e ∈ es) : ∃ mode bytes,
    r.tree.readFile (q.root.join e.original) = .ok (mode, bytes) ∧
    r₂.tree.readFile (q.root.join e.original) =
      .ok (Tree.copyMode (Restore.isExecutable r.tree (q.root.join e.original)) mode, bytes) := by
  obtain ⟨mode, bytes, copy, file⟩ := (backs _ (perm.mem_iff.2 (List.mem_map_of_mem he))).file
  obtain ⟨mode', bytes', script, copy'⟩ := h.exists_file he
  have archive := h.committed.nameable e he
  have there := ((Tree.readFile_normal h.plain₁ h.rooted₁ archive.normal).1 copy').2
  obtain ⟨rfl, rfl⟩ := Object.file.inj (Option.some.inj (copy.symm.trans there))
  have original := (h.sited e he).nameable
  exact ⟨mode, bytes, script,
    (Tree.readFile_normal plain₂ rooted₂ original.normal).2 ⟨original, file⟩⟩

/-- The copy of a script that is back is gone. -/
theorem copy_back (he : e ∈ es) : r₂.tree.isFile (q.root.join e.archive) = false := by
  refine Bool.eq_false_iff.2 fun file => ?_
  have archive := h.committed.nameable e he
  obtain ⟨-, mode, bytes, there⟩ := (Tree.isFile_normal plain₂ rooted₂ archive.normal).1 file
  exact (backs _ (perm.mem_iff.2 (List.mem_map_of_mem he))).removed mode bytes there

omit plain₂ rooted₂

/-- Where no script was the files are as they were. -/
theorem others_back
    (frame : Restore.Framed (s := ⟨q.root, categories, .memory⟩) Keeper.memory base is r₁.tree
      r₂.tree r₁.entries r₂.entries)
    {l : Location} (away : ∀ e ∈ es, l ≠ Tree.placeBelow base e.original) (mode : Nat)
    (bytes : ByteArray) :
    r₂.tree.get? l = some (.file mode bytes) ↔ r.tree.get? l = some (.file mode bytes) := by
  by_cases copy : ∃ e ∈ es, l = Tree.placeBelow base e.archive
  · obtain ⟨e, he, rfl⟩ := copy
    rw [h.free he]
    simp only [reduceCtorEq, iff_false]
    exact (backs _ (perm.mem_iff.2 (List.mem_map_of_mem he))).removed mode bytes
  · have beside : ∀ e ∈ es, l ≠ Tree.placeBelow base e.original ∧
        l ≠ Tree.placeBelow base e.archive := fun e he => ⟨away e he, fun e' => copy ⟨e, he, e'⟩⟩
    have first := h.committed.grows l beside
    have second : r₁.tree.GrowsAt r₂.tree l := by
      refine frame.tree l (fun i hi => ?_) id
      obtain ⟨e, he, rfl⟩ := List.mem_map.1 (perm.mem_iff.1 hi)
      exact beside e he
    exact ⟨(first.trans second).file, (first.trans second).keeps⟩

end Stowed

/-- A batch that is stowed away comes back. -/
theorem Stowed.returned (h : Stowed q base es r r₁) (categories : Order.Table String) {p : Plan}
    {is : List Item} {clock : Item → Reading} (items : p.items.Perm (es.map (itemOf r.tree q.root)))
    (perm : is.Perm (es.map (itemOf r.tree q.root))) (early : ∀ i, (clock i).late = false)
    (times : ∀ i, (clock i).now.isValid = true) :
    ∃ done r₂, Restore.runItems ⟨q.root, categories, .memory⟩ clock is r₁ = (done, r₂) ∧
      Returned q clock es r r₂ (.of p done) := by
  obtain ⟨r₂, run, last, backs, frame⟩ :=
    Restore.runItems_back early times h.lasting (h.item_waits perm) (h.item_apart perm)
  have all : ∀ i ∈ p.items, i.action = .restore := by
    intro i hi
    obtain ⟨e, -, rfl⟩ := List.mem_map.1 (items.mem_iff.1 hi)
    rfl
  obtain ⟨restored, skipped, failed, warnings⟩ := Restore.report_of_restored all rfl
  refine ⟨_, r₂, run, ⟨restored.trans ?_, skipped, failed, warnings,
    fun e => h.script_back perm last.plain last.rooted backs,
    fun e => h.copy_back perm last.plain last.rooted backs,
    fun l other => h.others_back perm backs frame ?_, h.entries_restored perm backs frame⟩⟩
  · have := perm.map Item.target
    rwa [List.map_map] at this
  · rintro e he rfl
    obtain ⟨mode, bytes, script, -⟩ := h.committed.moved e he
    exact other e he ⟨mode, bytes, Tree.spot_normal h.plain h.rooted (h.sited e he).nameable
      script true⟩

def sampleRequest : Request := ⟨⟨"/r"⟩, "z", "", "b1", ⟨⟨2025, 6, 1⟩, 0, 0⟩⟩

def sampleRepository : Repository where
  tree := ⟨[(["r"], .folder), (["r", "a.sh"], .file 0o644 "x".toByteArray), (["r", "m"], .folder),
    (["r", "m", "b"], .file 0o600 "y".toByteArray)]⟩
  entries := [.fresh ⟨"c"⟩ ⟨"z/c"⟩ "b0" ⟨⟨2025, 5, 1⟩, 0, 0⟩ ""]

def sampleOutcome : Outcome where
  batch := "b1"
  dryRun := false
  entries := [.fresh ⟨"a.sh"⟩ ⟨"z/a.2025-06-01.sh"⟩ "b1" ⟨⟨2025, 6, 1⟩, 0, 0⟩ "",
    .fresh ⟨"m/b"⟩ ⟨"m/z/b.2025-06-01"⟩ "b1" ⟨⟨2025, 6, 1⟩, 0, 0⟩ ""]

end Archive
end Attic
