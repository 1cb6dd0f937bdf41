import Attic.Archive
import Attic.Ledger.Unreliable
import Attic.Proofs.Calendar.ReadBack
import Attic.Restore.Apply
import Mathlib

/-!
# What is done to a repository

Whatever is done, be it that a script is recorded or marked, that scripts are
archived or a plan is carried out, it comes to calls of the ledger with changes
of files between them. What the calls keep is therefore lost only by a change of
files, as it would be by one that writes over the file of a journal.

Key definitions: `Deed`, `Deed.run`, `Deed.changes`, `Ledger.Store.Preserves`,
`Ledger.Course`.
Key theorems: `Ledger.Course.keeps`, `Deed.course`, `Deed.runAll_course`.
-/

namespace Attic

open Ledger (Entry Store)
open Restore (Item Options Plan Reading Restorer)

/-- The tree before a change of files and the tree after it. -/
abbrev Change := Tree × Tree

/-! ### Changes of files -/

namespace Archive

/-- The files that change while a script is moved and recorded. -/
def commitChanges (root : Path) (s : Store) (e : Entry) (r : Repository) : List Change :=
  let (result, t) := r.tree.moveFile (root.join e.original) (root.join e.archive)
  (r.tree, t) ::
    match result with
    | .error _ => []
    | .ok () =>
      match s.record e { r with tree := t } with
      | (.ok (), _) => []
      | (.error _, r) =>
        [(r.tree, (r.tree.moveFile (root.join e.archive) (root.join e.original)).2)]

/-- The files that change while a step is taken for each entry. -/
def eachChanges (step : Entry → Repository → Except RequestFault Unit × Repository)
    (changes : Entry → Repository → List Change) : List Entry → Repository → List Change
  | [], _ => []
  | e :: es, r =>
    changes e r ++
      match step e r with
      | (.error _, _) => []
      | (.ok (), r) => eachChanges step changes es r

/-- The files that a request changes. -/
def changes (q : Request) (s : Store) (paths : List Path) (dryRun : Bool) (r : Repository) :
    List Change :=
  match s.active r with
  | .error _ => []
  | .ok active =>
    match planScripts q r.tree active [] paths with
    | .error _ => []
    | .ok planned =>
      if dryRun then []
      else eachChanges (commitEntry q.root s) (commitChanges q.root s) planned r

end Archive

namespace Restore

/-- The files that change while an entry is marked. -/
def settleChanges (s : Restorer) (now : Timestamp) (i : Item) (r : Repository) : List Change :=
  match s.store.markRestored i.target now r with
  | (.error _, r) => [(r.tree, (r.tree.removeFile (s.root.join i.target)).2)]
  | (.ok (), r) => [(r.tree, (r.tree.removeFile (s.root.join i.entry.archive)).2)]

/-- The files that change while an item is carried out. -/
def itemChanges (s : Restorer) (now : Timestamp) (late : Bool) (i : Item) (r : Repository) :
    List Change :=
  if late then []
  else
    let archive := s.root.join i.entry.archive
    if !r.tree.isFile archive then []
    else
      let (result, t) := r.tree.placeCopy archive (s.root.join i.target) i.executable
      (r.tree, t) ::
        match result with
        | .error _ => []
        | .ok () => settleChanges s now i { r with tree := t }

def itemsChanges (s : Restorer) (clock : Item → Reading) : List Item → Repository → List Change
  | [], _ => []
  | i :: is, r =>
    itemChanges s (clock i).now (clock i).late i r ++
      itemsChanges s clock is (runItem s (clock i).now (clock i).late i r).2

/-- The files that change while a plan is carried out. -/
def Restorer.changesIn (s : Restorer) (order : List (List Item)) (clock : Item → Reading)
    (p : Plan) (o : Options) (r : Repository) : List Change :=
  if o.dryRun then []
  else if p.isEmpty then []
  else if !o.force && !(groups p).isEmpty && o.token ≠ some p.token then []
  else itemsChanges s clock order.flatten r

end Restore

/-- What is done to a repository. -/
inductive Deed where
  | record (e : Entry)
  | mark (original : Path) (moment : Timestamp)
  | archive (q : Archive.Request) (paths : List Path) (dryRun : Bool)
  /-- A plan, which may have been made at any time, is carried out in some order. -/
  | apply (root : Path) (categories : Order.Table String) (order : List (List Item))
      (clock : Item → Reading) (p : Plan) (o : Options)

namespace Deed

/-- The times of a deed are times. -/
def Timed : Deed → Prop
  | .record e => e.archivedAt.isValid = true
  | .mark _ moment => moment.isValid = true
  | .archive q _ _ => q.now.isValid = true
  | .apply _ _ _ clock _ _ => ∀ i, (clock i).now.isValid = true

/-- The repository after a deed. -/
def run (s : Store) : Deed → Repository → Repository
  | .record e, r => (s.record e r).2
  | .mark original moment, r => (s.markRestored original moment r).2
  | .archive q paths dryRun, r => (Archive.archive q s paths dryRun r).2
  | .apply root categories order clock p o, r =>
    (Restorer.applyIn ⟨root, categories, s⟩ order clock p o r).2

/-- The files that a deed changes, in their order. -/
def changes (s : Store) : Deed → Repository → List Change
  | .record _, _ => []
  | .mark _ _, _ => []
  | .archive q paths dryRun, r => Archive.changes q s paths dryRun r
  | .apply root categories order clock p o, r =>
    Restorer.changesIn ⟨root, categories, s⟩ order clock p o r

/-- The repository after deeds, in each of which the store refuses some paths. -/
def runAll (s : Store) : List (Deed × (Path → Bool)) → Repository → Repository
  | [], r => r
  | (d, refused) :: ds, r => runAll s ds (d.run (s.refusing refused) r)

/-- The files that deeds change, in their order. -/
def changesAll (s : Store) : List (Deed × (Path → Bool)) → Repository → List Change
  | [], _ => []
  | (d, refused) :: ds, r =>
    d.changes (.refusing refused s) r ++ changesAll s ds (d.run (.refusing refused s) r)

end Deed

/-! ### Courses -/

namespace Ledger

/-- A property of repositories that a store keeps whatever it is asked. -/
structure Store.Preserves (s : Store) (inv : Repository → Prop) : Prop where
  record : ∀ {e r}, e.archivedAt.isValid = true → inv r → inv (s.record e r).2
  mark : ∀ {path moment r}, moment.isValid = true → inv r → inv (s.markRestored path moment r).2

/-- Calls of a store and changes of files lead from one repository to another. -/
inductive Course (s : Store) : Repository → List Change → Repository → Prop
  | stay (r : Repository) : Course s r [] r
  | record {e : Entry} {r r' : Repository} {cs : List Change} :
      e.archivedAt.isValid = true → Course s (s.record e r).2 cs r' → Course s r cs r'
  | mark {path : Path} {moment : Timestamp} {r r' : Repository} {cs : List Change} :
      moment.isValid = true → Course s (s.markRestored path moment r).2 cs r' → Course s r cs r'
  | change {t : Tree} {r r' : Repository} {cs : List Change} :
      Course s { r with tree := t } cs r' → Course s r ((r.tree, t) :: cs) r'

variable {s : Store} {inv : Repository → Prop} {r r' r'' : Repository} {cs cs' : List Change}
variable {refused : Path → Bool}

namespace Course

theorem trans (h : Course s r cs r') (h' : Course s r' cs' r'') : Course s r (cs ++ cs') r'' := by
  induction h with
  | stay r => exact h'
  | record valid _ ih => exact .record valid (ih h')
  | mark valid _ ih => exact .mark valid (ih h')
  | change _ ih => exact .change (ih h')

/-- What a store refuses leaves a repository where it is. -/
theorem of_refusing (h : Course (.refusing refused s) r cs r') : Course s r cs r' := by
  induction h with
  | stay r => exact .stay r
  | @record e r r' cs valid _ ih =>
    simp only [Store.refusing] at ih
    split at ih
    · exact ih
    · exact .record valid ih
  | @mark path moment r r' cs valid _ ih =>
    simp only [Store.refusing] at ih
    split at ih
    · exact ih
    · exact .mark valid ih
  | change _ ih => exact .change ih

/-- **What a store keeps stays along a course** whose changes of files keep it. -/
theorem keeps (preserves : s.Preserves inv) (h : Course s r cs r') :
    (∀ c ∈ cs, ∀ es, inv ⟨c.1, es⟩ → inv ⟨c.2, es⟩) → inv r →
      inv r' ∧ ∀ c ∈ cs, ∃ es, inv ⟨c.1, es⟩ := by
  induction h with
  | stay r => exact fun _ here => ⟨here, by simp⟩
  | record valid _ ih => exact fun kept here => ih kept (preserves.record valid here)
  | mark valid _ ih => exact fun kept here => ih kept (preserves.mark valid here)
  | @change t r r' cs _ ih =>
    intro kept here
    obtain ⟨last, inside⟩ := ih (fun c hc => kept c (List.mem_cons_of_mem _ hc))
      (kept _ List.mem_cons_self r.entries here)
    exact ⟨last, List.forall_mem_cons.2 ⟨⟨r.entries, here⟩, inside⟩⟩

end Course
end Ledger

open Ledger (Course)

/-! ### Archiving -/

namespace Archive

variable {root : Path} {s : Store} {e : Entry} {q : Request} {t : Tree}

/-- An entry that has been planned is a new one of its request. -/
theorem planScript_fresh {active planned : List Entry} {p : Path}
    (h : planScript q t active planned p = .ok e) :
    e = .fresh e.original e.archive q.batch q.now q.reason := by
  obtain ⟨script, -, -, -, -, rfl⟩ := planScript_ok h
  rfl

theorem planScripts_fresh {active planned es : List Entry} {paths : List Path}
    (h : planScripts q t active planned paths = .ok es)
    (before : ∀ e ∈ planned, e = .fresh e.original e.archive q.batch q.now q.reason) :
    ∀ e ∈ es, e = .fresh e.original e.archive q.batch q.now q.reason := by
  intro e he
  rcases (planScripts_each h).2.1 e he with hp | ⟨p, -, planned, made⟩
  · exact before e hp
  · exact planScript_fresh made

theorem commitEntry_course (valid : e.archivedAt.isValid = true) (r : Repository) :
    Course s r (commitChanges root s e r) (commitEntry root s e r).2 := by
  dsimp only [commitEntry, commitChanges]
  rcases r.tree.moveFile (root.join e.original) (root.join e.archive) with ⟨moved, t⟩
  cases moved with
  | error f => exact .change (.stay _)
  | ok =>
  have recorded {cs : List Change} {r' : Repository}
      (rest : Course s (s.record e { r with tree := t }).2 cs r') :
      Course s r ((r.tree, t) :: cs) r' := .change (.record valid rest)
  dsimp only
  cases h : s.record e { r with tree := t } with
  | mk result r₁ =>
  rw [h] at recorded
  cases result with
  | error f => exact recorded (.change (.stay _))
  | ok => exact recorded (.stay _)

theorem stepEach_course {step : Entry → Repository → Except RequestFault Unit × Repository}
    {changes : Entry → Repository → List Change} : ∀ {es : List Entry} (r : Repository),
    (∀ e ∈ es, ∀ r, Course s r (changes e r) (step e r).2) →
      Course s r (eachChanges step changes es r) (stepEach step es r).2
  | [], r, _ => .stay r
  | e :: es, r, each => by
    have first := each e List.mem_cons_self r
    have rest (r : Repository) := stepEach_course r fun d hd => each d (List.mem_cons_of_mem _ hd)
    rw [stepEach, eachChanges]
    cases h : step e r with
    | mk result r₁ =>
    rw [h] at first
    cases result with
    | error f => simpa only [List.append_nil] using first
    | ok => exact first.trans (rest r₁)

theorem archive_course (valid : q.now.isValid = true) (paths : List Path) (dryRun : Bool)
    (r : Repository) : Course s r (changes q s paths dryRun r) (archive q s paths dryRun r).2 := by
  unfold archive changes
  cases s.active r with
  | error f => exact .stay r
  | ok active =>
  dsimp only
  cases planned : planScripts q r.tree active [] paths with
  | error f => exact .stay r
  | ok es =>
  have times : ∀ e ∈ es, e.archivedAt.isValid = true := fun e he => by
    rw [planScripts_fresh planned (by simp) e he]
    exact valid
  have batch := stepEach_course r fun e he (r : Repository) =>
    (commitEntry_course (times e he) r : Course s r (commitChanges q.root s e r) _)
  dsimp only
  cases dryRun with
  | true => exact .stay r
  | false =>
    simp only [Bool.false_eq_true, if_false]
    rw [commit]
    cases h : stepEach (commitEntry q.root s) es r with
    | mk result r₁ =>
    rw [h] at batch
    cases result <;> exact batch

end Archive

/-! ### Carrying out plans -/

namespace Restore

variable {s : Restorer} {now : Timestamp} {i : Item} {clock : Item → Reading}

theorem settle_course (valid : now.isValid = true) (r : Repository) :
    Course s.store r (settleChanges s now i r) (settle s now i r).2 := by
  refine .mark valid (?_ : Course s.store (s.store.markRestored i.target now r).2 _ _)
  unfold settle settleChanges
  cases s.store.markRestored i.target now r with
  | mk result r₁ =>
  cases result with
  | error f =>
    dsimp only
    split
    · next removed =>
      rw [removed]
      exact .change (.stay _)
    · next removed =>
      rw [removed]
      exact .change (.stay _)
  | ok =>
    dsimp only
    split
    · next removed =>
      rw [removed]
      exact .change (.stay _)
    · next removed =>
      rw [removed]
      exact .change (.stay _)

theorem runItem_course (valid : now.isValid = true) (late : Bool) (r : Repository) :
    Course s.store r (itemChanges s now late i r) (runItem s now late i r).2 := by
  unfold runItem itemChanges
  split
  · exact .stay r
  dsimp only
  split
  · exact .stay r
  cases r.tree.placeCopy (s.root.join i.entry.archive) (s.root.join i.target) i.executable with
  | mk placed t =>
  cases placed with
  | error f =>
    refine .change ?_
    dsimp only
    split
    · next h =>
      obtain ⟨-, rfl⟩ := Prod.mk.inj h
      exact .stay _
    · next h =>
      obtain ⟨-, rfl⟩ := Prod.mk.inj h
      exact .stay _
    · next h => exact absurd (Prod.mk.inj h).1 (by simp)
  | ok => exact .change (settle_course valid _)

theorem runItems_course (times : ∀ i, (clock i).now.isValid = true) : ∀ (is : List Item)
    (r : Repository), Course s.store r (itemsChanges s clock is r) (runItems s clock is r).2
  | [], r => .stay r
  | i :: is, _ => (runItem_course (times i) (clock i).late _).trans (runItems_course times is _)

theorem Restorer.applyIn_course (times : ∀ i, (clock i).now.isValid = true)
    (order : List (List Item)) (p : Plan) (o : Options) (r : Repository) :
    Course s.store r (s.changesIn order clock p o r) (s.applyIn order clock p o r).2 := by
  unfold Restorer.applyIn Restorer.changesIn
  split
  · exact .stay r
  split
  · exact .stay r
  split
  · exact .stay r
  · exact runItems_course times order.flatten r

end Restore

/-! ### Deeds -/

namespace Deed

variable {s : Store} {d : Deed}

/-- **A deed is calls of the ledger and its changes of files.** -/
theorem course (timed : d.Timed) (r : Repository) : Course s r (d.changes s r) (d.run s r) := by
  cases d with
  | record e => exact .record timed (.stay _)
  | mark original moment => exact .mark timed (.stay _)
  | archive q paths dryRun => exact Archive.archive_course timed paths dryRun r
  | apply root categories order clock p o =>
    exact Restore.Restorer.applyIn_course (s := ⟨root, categories, s⟩) timed order p o r

theorem runAll_course : ∀ {ds : List (Deed × (Path → Bool))} (r : Repository),
    (∀ d ∈ ds, d.1.Timed) → Course s r (changesAll s ds r) (runAll s ds r)
  | [], r, _ => .stay r
  | (d, refused) :: ds, r, timed => by
    have first := (course (s := .refusing refused s) (timed _ List.mem_cons_self) r).of_refusing
    exact first.trans (runAll_course _ fun d hd => timed d (List.mem_cons_of_mem _ hd))

/-- The changes of the first deeds are those that come first. -/
theorem changesAll_take : ∀ (ds : List (Deed × (Path → Bool))) (n : Nat) (r : Repository),
    changesAll s (ds.take n) r <+: changesAll s ds r
  | [], n, r => by simp [changesAll]
  | d :: ds, 0, r => List.nil_prefix
  | d :: ds, n + 1, r => (List.prefix_append_right_inj _).2 (changesAll_take ds n _)

end Deed
end Attic
