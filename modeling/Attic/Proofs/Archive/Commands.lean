import Attic.Inspection
import Attic.Proofs.Archive.Prefix
import Attic.Proofs.Catalog.Checking
import Attic.Proofs.Restore.Forecast
import Mathlib

/-!
# What archiving does to the commands of a catalog

Commands whose files are archived are found to be so: one whose implementation is
gone counts as archived, and one whose shell entry is gone as missing it, with an
issue of its pipeline. When the batch has been restored in full the files are back
with their bytes and no entry of the batch is active, so that the catalog is found
as it was.

Key definition: `Tree.SameFile`.
Key theorems: `Archive.Stowed.backs`, `Archive.Stowed.sameFile`,
`Archive.archive_commands`.
-/

namespace Attic

/-! ### Files that are the same -/

/-- Whether a path leads to files of the same bytes in two trees, or to none in
both. -/
def Tree.SameFile (t t' : Tree) (p : Path) : Prop :=
  ∀ bytes, t.read p = .ok bytes ↔ t'.read p = .ok bytes

namespace Tree

variable {t t' : Tree} {p : Path} {bytes : ByteArray}

theorem read_eq_ok : t.read p = .ok bytes ↔ ∃ mode, t.readFile p = .ok (mode, bytes) := by
  unfold read
  cases t.readFile p with
  | error f => simp [Except.map]
  | ok file => simp [Except.map, Prod.ext_iff]

theorem isFile_iff_read : t.isFile p = true ↔ ∃ bytes, t.read p = .ok bytes := by
  simp only [isFile_iff, read_eq_ok]
  exact exists_comm

theorem SameFile.isFile (h : t.SameFile t' p) : t.isFile p = t'.isFile p := by
  rw [Bool.eq_iff_iff, isFile_iff_read, isFile_iff_read]
  exact exists_congr h

end Tree

/-- A checker that looks at nothing but the bytes of the script. -/
def Catalog.Checker.Reads (check : Catalog.Checker) : Prop :=
  ∀ t t' p bytes, t.read p = .ok bytes → t'.read p = .ok bytes → check t p = check t' p

theorem Catalog.Checker.Reads.shellVerdict? {check : Catalog.Checker} (reads : check.Reads)
    {t t' : Tree} {root shell : Path} (same : t.SameFile t' (root.join shell)) :
    Catalog.shellVerdict? check t root shell = Catalog.shellVerdict? check t' root shell := by
  unfold Catalog.shellVerdict?
  dsimp only
  rw [same.isFile]
  split
  · next file =>
    obtain ⟨bytes, there⟩ := Tree.isFile_iff_read.1 file
    rw [reads _ _ _ bytes ((same bytes).2 there) there]
  · rfl

namespace Archive

open Ledger (Entry Keeper Store)
open Restore (Item Plan Reading Restorer)

variable {q : Request} {paths : List Path} {out : Outcome} {r r₁ r₂ : Repository}
variable {base : Location} {es : List Entry} {e : Entry} {p : Path}

namespace Stowed

variable (h : Stowed q base es r r₁)

include h

/-- No script of a batch is where it was. -/
theorem gone (he : e ∈ es) : r₁.tree.isFile (q.root.join e.original) = false := by
  have nameable := (h.sited e he).nameable
  refine Bool.eq_false_iff.2 fun file => ?_
  obtain ⟨-, mode, bytes, there⟩ := (Tree.isFile_normal h.plain₁ h.rooted₁ nameable.normal).1 file
  simp [h.committed.gone e he] at there

/-- The paths of a batch are among those of the active entries. -/
theorem mem_archivedPaths (he : e ∈ es) :
    e.original ∈ Inspection.archivedPaths (r₁.entries.filter Entry.isActive) := by
  refine List.mem_map_of_mem (List.mem_filter.2 ⟨?_, h.isActive he⟩)
  rw [h.entries]
  exact List.mem_append_right _ he

variable {categories : Order.Table String} {is : List Item} {clock : Item → Reading}
variable (perm : is.Perm (es.map (itemOf r.tree q.root)))

include perm

/-- **A run that restores the whole batch brings each script back**, whatever the
clock shows. -/
theorem backs (times : ∀ i, (clock i).now.isValid = true) {done : List (Path × Restore.Done)}
    (run : Restore.runItems ⟨q.root, categories, .memory⟩ clock is r₁ = (done, r₂))
    (full : ∀ e ∈ es, ∃ x ∈ done, x.1 = e.original ∧ ∃ w, x.2 = .restored w) :
    r₂.tree.Plain ∧ r₂.tree.reach [] (Tree.steps q.root.text) = some base ∧
      (∀ i ∈ is, i.Back q.root base (clock i).now r₁.tree r₂.tree r₁.entries r₂.entries) ∧
      Restore.Framed (s := ⟨q.root, categories, .memory⟩) Keeper.memory base is r₁.tree
        r₂.tree r₁.entries r₂.entries := by
  have waits := h.item_waits perm
  have apart := h.item_apart perm
  have fits : ∀ i ∈ is, i.Fit (Keeper.own Keeper.memory) base := fun i hi => (waits i hi).fit
  obtain ⟨es', after, frame, outcomes⟩ := Restore.runItems_effect
    (s := ⟨q.root, categories, .memory⟩) (k := Keeper.memory) times fits apart
    ⟨h.plain₁, h.rooted₁, rfl⟩
  rw [run] at after frame outcomes
  obtain rfl : r₂.entries = es' := after.keeps
  refine ⟨after.plain, after.rooted, fun i hi => ?_, frame⟩
  obtain ⟨e, he, rfl⟩ := List.mem_map.1 (perm.mem_iff.1 hi)
  obtain ⟨x, hx, path, w, restored⟩ := full e he
  obtain ⟨j, hj, target, ⟨-, back⟩ | ⟨failed, -⟩⟩ := outcomes x hx
  · have same : itemOf r.tree q.root e = j := by
      by_contra differ
      exact (apart.forall hi hj differ).originals (path.symm.trans target)
    rw [same]
    exact back
  · exact absurd restored (failed w)

variable (plain₂ : r₂.tree.Plain)
variable (rooted₂ : r₂.tree.reach [] (Tree.steps q.root.text) = some base)
variable (backs : ∀ i ∈ is,
  i.Back q.root base (clock i).now r₁.tree r₂.tree r₁.entries r₂.entries)
variable (frame : Restore.Framed (s := ⟨q.root, categories, .memory⟩) Keeper.memory base is r₁.tree
  r₂.tree r₁.entries r₂.entries)

include backs frame

/-- No entry of a batch that is back is active. -/
theorem active_back :
    r₂.entries.filter Entry.isActive = r.entries.filter Entry.isActive := by
  rw [h.entries_restored perm backs frame, List.filter_append]
  simp [Entry.restore, Entry.isActive]

include plain₂ rooted₂

/-- **A normal path leads to what it led to** before the batch was archived. -/
theorem sameFile (normal : p.IsNormal) : r.tree.SameFile r₂.tree (q.root.join p) := by
  by_cases script : ∃ e ∈ es, e.original = p
  · obtain ⟨e, he, rfl⟩ := script
    obtain ⟨mode, bytes, before, after⟩ := h.script_back perm plain₂ rooted₂ backs he
    intro bytes'
    rw [Tree.read, Tree.read, before, after]
    exact Iff.rfl
  · have away : ∀ e ∈ es, Tree.placeBelow base p ≠ Tree.placeBelow base e.original :=
      fun e he => Tree.placeBelow_ne normal (h.sited e he).nameable.normal
        fun same => script ⟨e, he, same.symm⟩
    intro bytes
    simp only [Tree.read_eq_ok, Tree.readFile_normal h.plain h.rooted normal,
      Tree.readFile_normal plain₂ rooted₂ normal, h.others_back perm backs frame away]

end Stowed

/-! ### The commands of a catalog -/

/-- What a validation says of the commands whose files are in a batch: an
implementation is archived, and so is a shell entry, which its pipeline has as an
issue. -/
structure Tells (v : Catalog.Validation) (t : Tree) (root : Path) (cs : List Catalog.Command)
    (batch : List Path) : Prop where
  implementation : ∀ (n : Nat) (c : Catalog.Command) (p : Path), cs[n]? = some c →
    c.implementation = some p → p ∈ batch →
    v.commands[n]? = some { c with result := some .archivedImplementation }
  issue : ∀ c ∈ cs, c.shell ∈ batch → ⟨c.pipeline, c.shell, .missing true⟩ ∈ v.issues
  shell : ∀ (n : Nat) (c : Catalog.Command), cs[n]? = some c → c.shell ∈ batch →
    (∀ p, c.implementation = some p → t.isFile (root.join p) = true) →
    v.commands[n]? = some { c with result := some .missingShell }

/-- Whether all paths of a catalog are normal. -/
def NormalPaths (cs : List Catalog.Command) : Prop :=
  ∀ c ∈ cs, c.shell.IsNormal ∧ ∀ p, c.implementation = some p → p.IsNormal

variable {i : Inspection} {cs : List Catalog.Command}

theorem commands_eq (store : i.store = .memory) (catalog : ∀ t, i.catalog t = .ok cs)
    (r : Repository) : i.commands r = .ok (Catalog.validate i.checker r.tree i.root cs
      (Inspection.archivedPaths (r.entries.filter Entry.isActive))) := by
  rw [Inspection.commands, store]
  simp only [Store.memory, catalog]
  rfl

theorem Stowed.tells (h : Stowed q base es r r₁) (normal : NormalPaths cs)
    (check : Catalog.Checker) :
    Tells (Catalog.validate check r₁.tree q.root cs
        (Inspection.archivedPaths (r₁.entries.filter Entry.isActive)))
      r₁.tree q.root cs (es.map Entry.original) := by
  have shells : ∀ c ∈ cs, c.shell.IsNormal := fun c hc => (normal c hc).1
  have archived {p : Path} (hp : p ∈ es.map Entry.original) :
      p ∈ Inspection.archivedPaths (r₁.entries.filter Entry.isActive) ∧
        r₁.tree.isFile (q.root.join p) = false := by
    obtain ⟨e, he, rfl⟩ := List.mem_map.1 hp
    exact ⟨h.mem_archivedPaths he, h.gone he⟩
  refine ⟨fun n c p hc implementation hp => ?_, fun c hc hp => ?_, fun n c hc hp present => ?_⟩
  · obtain ⟨mem, gone⟩ := archived hp
    exact Catalog.commands_archived hc implementation
      ((normal c (List.mem_of_getElem? hc)).2 p implementation) mem gone
  · obtain ⟨n, there⟩ := List.getElem?_of_mem hc
    obtain ⟨mem, gone⟩ := archived hp
    exact Catalog.issues_archived shells there mem gone
  · obtain ⟨mem, gone⟩ := archived hp
    exact Catalog.commands_missing shells hc mem gone present

/-- A batch that nobody has yet is planned with no items. -/
theorem plan_fresh {categories : Order.Table String} {p : Plan}
    (fresh : ∀ e ∈ r.entries, e.isActive = true → e.batch ≠ q.batch)
    (planned : Restorer.plan ⟨q.root, categories, .memory⟩ (.batch q.batch) r = .ok p) :
    p.items = [] := by
  have none := ofBatch_fresh fresh
  have selected : Restorer.select ⟨q.root, categories, .memory⟩ (.batch q.batch) r = .ok [] := by
    simp only [Restorer.select, Store.ofBatch, Store.memory, Except.map, none]
  rw [Restorer.plan, selected] at planned
  rw [← Except.ok.inj planned, Order.sortBy_of_sorted .nil]
  rfl

/-- **Archiving shows in the commands of a catalog, and restoring takes it back.**
After a batch has been archived every command whose implementation is in it counts
as archived, every one whose shell entry is in it as missing that, with an issue of
its pipeline; and when the batch is restored in full, in any order of its groups,
the catalog is found exactly as it was before. -/
theorem archive_commands (plain : r.tree.Plain) (hd : Path.IsName q.dirName)
    (fresh : ∀ e ∈ r.entries, e.isActive = true → e.batch ≠ q.batch)
    (archived : archive q .memory paths false r = (.ok out, r₁)) (root : i.root = q.root)
    (store : i.store = .memory) (catalog : ∀ t, i.catalog t = .ok cs) (normal : NormalPaths cs)
    (reads : i.checker.Reads) :
    ∃ v v₁, i.commands r = .ok v ∧ i.commands r₁ = .ok v₁ ∧
      Tells v₁ r₁.tree q.root cs (out.entries.map Entry.original) ∧
      ∀ categories p order clock (o : Restore.Options) report r₂,
        Restorer.plan ⟨q.root, categories, .memory⟩ (.batch q.batch) r₁ = .ok p →
        order.Perm (Restore.groups p) → o.dryRun = false → o.force = true →
        (∀ i, (clock i).now.isValid = true) →
        Restorer.applyIn ⟨q.root, categories, .memory⟩ order clock p o r₁ = (.ok report, r₂) →
        (∀ e ∈ out.entries, e.original ∈ report.restored) → i.commands r₂ = .ok v := by
  refine ⟨_, _, commands_eq store catalog r, commands_eq store catalog r₁, ?_⟩
  rw [root]
  by_cases hne : paths = []
  · subst hne
    obtain ⟨scripts, commits⟩ := archive_ok archived
    have none : out.entries = [] := (Except.ok.inj scripts).symm
    rw [none] at commits ⊢
    obtain rfl : r = r₁ := (Prod.mk.inj commits).2
    refine ⟨⟨by simp, by simp, by simp⟩, ?_⟩
    intro categories p order clock o report r₂ planned perm real _ _ applied _
    exact absurd (plan_fresh fresh planned) (Restorer.applyIn_ok real applied).1
  obtain ⟨-, base, stowed⟩ := archive_stowed plain hd hne archived
  refine ⟨stowed.tells normal i.checker, ?_⟩
  intro categories p order clock o report r₂ planned perm real _ times applied full
  obtain ⟨p', planned', items⟩ := stowed.plan_eq hd categories fresh
  obtain rfl : p' = p := Except.ok.inj (planned'.symm.trans planned)
  have restoring : p'.restoring = p'.items := by
    refine List.filter_eq_self.2 fun i hi => ?_
    obtain ⟨e, -, rfl⟩ := List.mem_map.1 (items.mem_iff.1 hi)
    rfl
  have run : order.flatten.Perm (out.entries.map (itemOf r.tree q.root)) :=
    (perm.flatten.trans (Restore.groups_perm p')).trans (restoring ▸ items)
  obtain ⟨-, done, ran, rfl⟩ := Restorer.applyIn_ok real applied
  obtain ⟨plain₂, rooted₂, backs, frame⟩ :=
    stowed.backs run times ran fun e he => Restore.mem_restored (full e he)
  have same {p : Path} (normal : p.IsNormal) : r.tree.SameFile r₂.tree (q.root.join p) :=
    stowed.sameFile run plain₂ rooted₂ backs frame normal
  rw [commands_eq store catalog r₂, root, stowed.active_back run backs frame]
  refine congrArg Except.ok (Catalog.validate_congr (fun c hc => ?_) fun c hc p h => ?_).symm
  · exact reads.shellVerdict? (same (normal c hc).1)
  · exact (same ((normal c hc).2 p h)).isFile

/-- A checker for which an empty script does not parse. -/
def sampleChecker : Catalog.Checker := fun t p =>
  if t.read p = .ok .empty then .invalid "empty" else .valid

def sampleCommands : List Catalog.Command :=
  [⟨"p", "build", ⟨"a.sh"⟩, none, none⟩, ⟨"p", "test", ⟨"a.sh"⟩, some ⟨"m/b"⟩, none⟩]

def sampleInspection : Inspection :=
  .standard ⟨"/r"⟩ .memory (fun _ => .ok sampleCommands) sampleChecker

def sampleClock : Item → Reading := fun _ => ⟨⟨⟨2025, 6, 2⟩, 0, 0⟩, false⟩

/-- The shell entry of a pipeline and an implementation are archived and restored. -/
theorem archive_commands_sample : ∃ r₁ v v₁ p report r₂,
    archive sampleRequest .memory [⟨"a.sh"⟩, ⟨"m/./b"⟩] false sampleRepository =
      (.ok sampleOutcome, r₁) ∧
    sampleInspection.commands sampleRepository = .ok v ∧ sampleInspection.commands r₁ = .ok v₁ ∧
    v₁.commands[0]? = some ⟨"p", "build", ⟨"a.sh"⟩, none, some .missingShell⟩ ∧
    v₁.commands[1]? = some ⟨"p", "test", ⟨"a.sh"⟩, some ⟨"m/b"⟩, some .archivedImplementation⟩ ∧
    ⟨"p", ⟨"a.sh"⟩, .missing true⟩ ∈ v₁.issues ∧
    Restorer.plan ⟨sampleRequest.root, [], .memory⟩ (.batch "b1") r₁ = .ok p ∧
    Restorer.applyIn ⟨sampleRequest.root, [], .memory⟩ (Restore.groups p) sampleClock p
      ⟨false, true, none, false⟩ r₁ = (.ok report, r₂) ∧
    sampleInspection.commands r₂ = .ok v := by
  have fresh : ∀ e ∈ sampleRepository.entries, e.isActive = true → e.batch ≠ "b1" := by decide
  have normal : NormalPaths sampleCommands := by
    simp only [NormalPaths, sampleCommands, List.forall_mem_cons]
    refine ⟨⟨rfl, by simp⟩, ⟨rfl, fun p h => ?_⟩, by simp⟩
    rw [← Option.some.inj h]
    rfl
  have reads : sampleChecker.Reads := fun t t' p bytes there there' => by
    rw [sampleChecker, sampleChecker, there, there']
  have first : (archive sampleRequest .memory [⟨"a.sh"⟩, ⟨"m/./b"⟩] false sampleRepository).1 =
      .ok sampleOutcome := by decide +kernel
  obtain ⟨r₁, archived⟩ : ∃ r₁, archive sampleRequest .memory [⟨"a.sh"⟩, ⟨"m/./b"⟩] false
      sampleRepository = (.ok sampleOutcome, r₁) := by
    generalize archive sampleRequest .memory [⟨"a.sh"⟩, ⟨"m/./b"⟩] false sampleRepository = x
      at first
    exact ⟨x.2, by rw [← first]⟩
  obtain ⟨-, base, stowed⟩ :=
    archive_stowed sampleRepository_plain sampleRequest_isName (by simp) archived
  obtain ⟨p, planned, items⟩ := stowed.plan_eq sampleRequest_isName [] fresh
  have filled : p.items ≠ [] := by
    intro empty
    rw [empty] at items
    simpa [sampleOutcome] using items.length_eq
  have restoring : p.restoring = p.items := by
    refine List.filter_eq_self.2 fun i hi => ?_
    obtain ⟨e, -, rfl⟩ := List.mem_map.1 (items.mem_iff.1 hi)
    rfl
  have run := (Restore.groups_perm p).trans (restoring ▸ items)
  have early : ∀ i, (sampleClock i).late = false := fun _ => rfl
  have valid : (⟨⟨2025, 6, 2⟩, 0, 0⟩ : Timestamp).isValid = true := by decide
  have times : ∀ i, (sampleClock i).now.isValid = true := fun _ => valid
  obtain ⟨done, r₂, ran, returned⟩ := stowed.returned [] items run early times
  have applied : Restorer.applyIn ⟨sampleRequest.root, [], .memory⟩ (Restore.groups p) sampleClock p
      ⟨false, true, none, false⟩ r₁ = (.ok (.of p done), r₂) := by
    refine (Restorer.applyIn_forced (o := .standard) filled).trans ?_
    rw [ran]
  obtain ⟨v, v₁, before, after, tells, restores⟩ := archive_commands sampleRepository_plain
    sampleRequest_isName fresh archived (i := sampleInspection) rfl rfl (fun _ => rfl) normal reads
  refine ⟨r₁, v, v₁, p, .of p done, r₂, archived, before, after, tells.shell 0 _ rfl ?_ ?_,
    tells.implementation 1 _ ⟨"m/b"⟩ rfl rfl ?_, tells.issue _ List.mem_cons_self ?_, planned,
    applied, restores [] p _ _ _ _ r₂ planned .rfl rfl rfl times applied fun e he => ?_⟩
  · simp [sampleOutcome, Entry.fresh]
  · simp
  · simp [sampleOutcome, Entry.fresh]
  · simp [sampleOutcome, Entry.fresh]
  · exact returned.restored.mem_iff.2 (List.mem_map_of_mem he)

end Archive
end Attic
