import Attic.Proofs.Session.Steps
import Mathlib

/-!
# Sessions

In a session scripts are archived, plans are made and plans are carried out, those
made before as well as the last one, on a repository that nothing else changes and
with a ledger that is empty at first. Whatever is done, no two active entries have
one copy. The copies of the active entries are there with the bytes of their scripts
exactly as long as none of them is archived as if it were a script: the request takes
it away, and its entry goes on to say that it is there.

Key definitions: `Session`, `Session.Act`, `Session.runAll`, `Session.Act.Spares`.
Key theorems: `Session.Sound.run_iff`, `Session.Sound.restorable_iff`,
`Session.runAll_restorable_iff`.
-/

namespace Attic

open Archive (Request archive recorded)
open Ledger (Entry)
open Restore (Criteria Item Options Plan Reading Restorer)

/-- A repository, the plans that have been made, and for each entry of the ledger the
permissions and bytes that its script had when it was archived. -/
structure Session where
  repository : Repository
  plans : List Plan
  files : List (Except Tree.Fault (Nat × ByteArray))

namespace Session

variable {root : Path} {categories : Order.Table String} {s : Session}

/-- A session on a tree before anything has been archived. -/
def start (t : Tree) : Session := ⟨⟨t, []⟩, [], []⟩

/-- What is done in a session. -/
inductive Act where
  | archive (q : Request) (paths : List Path) (dryRun : Bool)
  | plan (c : Criteria)
  /-- One of the plans made so far is carried out, its groups in some order. -/
  | apply (n : Nat) (schedule : List (List Item) → List (List Item)) (clock : Item → Reading)
      (o : Options)

namespace Act

/-- What is done is done in the repository, at times that are times; the folder for
copies has a name, and the order of groups is one of them. -/
def Proper (root : Path) : Act → Prop
  | .archive q _ _ => q.root = root ∧ Path.IsName q.dirName ∧ q.now.isValid = true
  | .plan _ => True
  | .apply _ schedule clock _ =>
    (∀ gs, (schedule gs).Perm gs) ∧ ∀ i, (clock i).now.isValid = true

/-- The session afterwards. -/
def run (root : Path) (categories : Order.Table String) : Act → Session → Session
  | .archive q paths dryRun, s =>
    { s with
      repository := (Archive.archive q .memory paths dryRun s.repository).2
      files := s.files ++ (recorded q .memory paths dryRun s.repository).map fun e =>
        s.repository.tree.readFile (q.root.join e.original) }
  | .plan c, s =>
    match Restorer.plan ⟨root, categories, .memory⟩ c s.repository with
    | .error _ => s
    | .ok p => { s with plans := s.plans ++ [p] }
  | .apply n schedule clock o, s =>
    match s.plans[n]? with
    | none => s
    | some p =>
      { s with repository := (Restorer.applyIn ⟨root, categories, .memory⟩
          (schedule (Restore.groups p)) clock p o s.repository).2 }

/-- Whether no copy of an active entry is archived. -/
def Spares (s : Session) : Act → Prop
  | .archive q paths dryRun =>
    ∀ e ∈ recorded q .memory paths dryRun s.repository,
      ∀ a ∈ s.repository.entries, a.isActive = true → a.archive.same e.original = false
  | _ => True

end Act

/-- The session after acts. -/
def runAll (root : Path) (categories : Order.Table String) : List Act → Session → Session
  | [], s => s
  | a :: as, s => runAll root categories as (a.run root categories s)

/-- What holds of a session whatever is done in it. -/
structure Sound (root : Path) (s : Session) : Prop where
  orderly : ∃ base, Orderly root base s.repository
  length : s.files.length = s.repository.entries.length
  listed : ∀ p ∈ s.plans, ∀ i ∈ p.items, Listed s.repository.entries i

theorem sound_start {t : Tree} (plain : t.Plain) (root : Path) : Sound root (start t) where
  orderly := by
    refine ⟨[], plain, fun some => absurd rfl some, by simp [start], ?_⟩
    intro n m e d p there
    simp [start] at there
  length := rfl
  listed := by simp [start]

/-- The items of a plan that is carried out are among those of the plan. -/
theorem mem_schedule {p : Plan} {schedule : List (List Item) → List (List Item)}
    (perm : ∀ gs, (schedule gs).Perm gs) {i : Item}
    (hi : i ∈ (schedule (Restore.groups p)).flatten) : i ∈ p.items := by
  have inside := ((perm _).flatten.trans (Restore.groups_perm p)).mem_iff.1 hi
  exact (Restore.mem_restoring.1 inside).1

/-- Carrying out a plan carries out items or nothing. -/
theorem applyIn_passes {base : Location} {r : Repository} {p : Plan} {order : List (List Item)}
    {clock : Item → Reading} (h : Orderly root base r)
    (listed : ∀ i ∈ order.flatten, Listed r.entries i) (times : ∀ i, (clock i).now.isValid = true)
    (o : Options) :
    Passes root base r (Restorer.applyIn ⟨root, categories, .memory⟩ order clock p o r).2 := by
  unfold Restorer.applyIn
  split
  · exact .refl h
  split
  · exact .refl h
  split
  · exact .refl h
  · exact runItems_passes times h listed

namespace Sound

variable (h : Sound root s) {a : Act} (proper : a.Proper root)

include h proper

/-- **A session stays sound, and its active entries stay restorable unless one of their
copies is archived.** -/
theorem run_iff (categories : Order.Table String) :
    Sound root (a.run root categories s) ∧
      (Restorable root s.files s.repository →
        (Restorable root (a.run root categories s).files (a.run root categories s).repository ↔
          a.Spares s)) := by
  obtain ⟨base, orderly⟩ := h.orderly
  cases a with
  | archive q paths dryRun =>
    obtain ⟨rfl, hd, timed⟩ := proper
    obtain ⟨after, entries⟩ := archive_orderly orderly hd paths dryRun timed
    refine ⟨⟨after, ?_, fun p hp i hi => ?_⟩,
      archive_restorable_iff orderly hd paths dryRun timed h.length⟩
    · simp [Act.run, entries, h.length]
    · obtain ⟨e, he, paths⟩ := h.listed p hp i hi
      refine ⟨e, ?_, paths⟩
      simp only [Act.run, entries]
      exact List.mem_append_left _ he
  | plan c =>
    simp only [Act.run]
    cases planned : Restorer.plan ⟨root, categories, .memory⟩ c s.repository with
    | error f => exact ⟨h, fun all => ⟨fun _ => trivial, fun _ => all⟩⟩
    | ok p =>
      refine ⟨⟨⟨base, orderly⟩, h.length, fun p' hp i hi => ?_⟩,
        fun all => ⟨fun _ => trivial, fun _ => all⟩⟩
      rcases List.mem_append.1 hp with hp | hp
      · exact h.listed p' hp i hi
      · obtain rfl := List.mem_singleton.1 hp
        have active : Ledger.Store.memory.active s.repository =
            .ok (s.repository.entries.filter Entry.isActive) := rfl
        exact ⟨i.entry, (Restore.mem_items (s := ⟨root, categories, .memory⟩) active planned hi).1,
          rfl, rfl⟩
  | apply n schedule clock o =>
    obtain ⟨perm, times⟩ := proper
    simp only [Act.run]
    cases there : s.plans[n]? with
    | none => exact ⟨h, fun all => ⟨fun _ => trivial, fun _ => all⟩⟩
    | some p =>
      have listed := h.listed p (List.mem_of_getElem? there)
      have passes : Passes root base s.repository (Restorer.applyIn ⟨root, categories, .memory⟩
          (schedule (Restore.groups p)) clock p o s.repository).2 :=
        applyIn_passes orderly (fun i hi => listed i (mem_schedule perm hi)) times o
      exact ⟨⟨⟨base, passes.orderly⟩, h.length.trans passes.length.symm,
          fun p' hp i hi => passes.listed i (h.listed p' hp i hi)⟩,
        fun all => ⟨fun _ => trivial, fun _ => passes.restorable _ all⟩⟩

end Sound

/-- A session stays sound. -/
theorem Sound.runAll (categories : Order.Table String) : ∀ {as : List Act} {s : Session},
    Sound root s → (∀ a ∈ as, a.Proper root) → Sound root (runAll root categories as s)
  | [], _, h, _ => h
  | a :: _, _, h, proper =>
    ((h.run_iff (proper a List.mem_cons_self) categories).1).runAll categories
      fun b hb => proper b (List.mem_cons_of_mem _ hb)

theorem Sound.restorable_iff (categories : Order.Table String) : ∀ {acts : List Act}
    {s : Session}, Sound root s → (∀ a ∈ acts, a.Proper root) →
    Restorable root s.files s.repository →
    ((∀ n, Restorable root (Session.runAll root categories (acts.take n) s).files
        (Session.runAll root categories (acts.take n) s).repository) ↔
      ∀ (n : Nat) (a : Act), acts[n]? = some a →
        a.Spares (Session.runAll root categories (acts.take n) s))
  | [], s, _, _, here => by simpa [Session.runAll] using here
  | a :: acts, s, h, proper, here => by
    obtain ⟨sound, step⟩ := h.run_iff (proper a List.mem_cons_self) categories
    have rest := fun first => sound.restorable_iff categories
      (fun b hb => proper b (List.mem_cons_of_mem _ hb)) ((step here).2 first)
    constructor
    · intro all
      have first : a.Spares s := (step here).1 (all 1)
      intro n b there
      cases n with
      | zero =>
        obtain rfl : a = b := by simpa using there
        exact first
      | succ n => exact (rest first).1 (fun n => all (n + 1)) n b there
    · intro spares n
      have first : a.Spares s := spares 0 a rfl
      cases n with
      | zero => exact here
      | succ n => exact (rest first).2 (fun n b there => spares (n + 1) b there) n

/-- **Active entries of a session never share a copy, and their copies last exactly as
long as none of them is archived.** Scripts may be archived into any folder beside
them, at any times; plans may be carried out at any later time, in any order of their
groups, with or without their token. -/
theorem runAll_restorable_iff {t : Tree} (plain : t.Plain) (root : Path)
    (categories : Order.Table String) {acts : List Act} (proper : ∀ a ∈ acts, a.Proper root) :
    (∀ (n i j : Nat) (d e : Entry),
      (runAll root categories (acts.take n) (start t)).repository.entries[i]? = some d →
      (runAll root categories (acts.take n) (start t)).repository.entries[j]? = some e →
      d.isActive = true → e.isActive = true → d.archive.same e.archive = true → i = j) ∧
    ((∀ n, Restorable root (runAll root categories (acts.take n) (start t)).files
        (runAll root categories (acts.take n) (start t)).repository) ↔
      ∀ (n : Nat) (a : Act), acts[n]? = some a →
        a.Spares (runAll root categories (acts.take n) (start t))) := by
  have sound := sound_start plain root
  constructor
  · intro n i j d e there there' active active' same
    have here : Sound root (runAll root categories (acts.take n) (start t)) :=
      sound.runAll categories fun a ha => proper a (List.mem_of_mem_take ha)
    obtain ⟨base, orderly⟩ := here.orderly
    refine orderly.apart there there' active active' ?_
    exact (orderly.dated d (List.mem_of_getElem? there)).normal.archive.eq_of_same
      (orderly.dated e (List.mem_of_getElem? there')).normal.archive same
  · refine sound.restorable_iff categories proper ?_
    intro n e there
    simp [start] at there

/-- A tree with one script. -/
def sampleTree : Tree :=
  ⟨[(["r"], .folder), (["r", "a.sh"], .file 0o644 "x".toByteArray)]⟩

/-- One file of that tree is archived on a day of June. -/
def sampleAct (file batch : String) (day : Nat) : Act :=
  .archive ⟨⟨"/r"⟩, ".archived_scripts", "", batch, ⟨⟨2025, 6, day⟩, 43200, 0⟩⟩ [⟨file⟩] false

/-- The script is archived and put back; it is archived, and then its copy. -/
theorem runAll_restorable_iff_again :
    let undone := [sampleAct "a.sh" "b1" 1, .plan (.batch "b1"),
      .apply 0 id (fun _ => ⟨⟨⟨2025, 6, 3⟩, 0, 0⟩, false⟩) ⟨false, true, none, false⟩]
    let again := [sampleAct "a.sh" "b1" 1, sampleAct ".archived_scripts/a.2025-06-01.sh" "b2" 2]
    (∀ n, Restorable ⟨"/r"⟩ (runAll ⟨"/r"⟩ [] (undone.take n) (start sampleTree)).files
      (runAll ⟨"/r"⟩ [] (undone.take n) (start sampleTree)).repository) ∧
    ¬ ∀ n, Restorable ⟨"/r"⟩ (runAll ⟨"/r"⟩ [] (again.take n) (start sampleTree)).files
      (runAll ⟨"/r"⟩ [] (again.take n) (start sampleTree)).repository := by
  intro undone again
  have plain : sampleTree.Plain := by
    refine Tree.plain_of_objects ?_ (by decide +kernel)
    simp [sampleTree]
  have name : Path.IsName ".archived_scripts" := ⟨by decide, by decide, by decide, by decide⟩
  constructor
  · refine ((runAll_restorable_iff plain ⟨"/r"⟩ [] ?_).2).2 ?_
    · simp only [undone, List.forall_mem_cons, List.not_mem_nil, false_imp_iff, implies_true,
        and_true]
      exact ⟨⟨rfl, name, by decide⟩, trivial, fun _ => .refl _, fun _ => rfl⟩
    · intro n a there
      match n, there with
      | 0, there =>
        obtain rfl := Option.some.inj there
        simp [sampleAct, Act.Spares, runAll, start]
      | 1, there =>
        obtain rfl := Option.some.inj there
        trivial
      | 2, there =>
        obtain rfl := Option.some.inj there
        trivial
  · rw [(runAll_restorable_iff plain ⟨"/r"⟩ [] ?_).2]
    · intro spares
      have second := spares 1 (sampleAct ".archived_scripts/a.2025-06-01.sh" "b2" 2) rfl
      revert second
      simp only [Act.Spares, sampleAct]
      decide +kernel
    · simp only [again, List.forall_mem_cons, List.not_mem_nil, false_imp_iff, implies_true,
        and_true]
      exact ⟨⟨rfl, name, by decide⟩, rfl, name, by decide⟩

end Session
end Attic
