import Attic.Proofs.Archive.Prefix
import Attic.Proofs.Ledger.Appended
import Mathlib

/-!
# What a request records in a journal

A journal is a file of the tree in which scripts are moved. As long as no move
changes its text, a request puts the lines of the scripts that it archives behind
it, whether all of them can be archived or not.

Key definitions: `Archive.recorded`, `Ledger.Journal.Keeps`.
Key theorems: `Archive.commitEntry_cases`, `Archive.archive_cases`, `Archive.archive_holds`.
-/

namespace Attic

namespace Ledger

variable {path : Path} {t t' : Tree} {mode : Nat} {bytes : ByteArray}

/-- A change of files leaves the text of a journal. -/
def Journal.Keeps (path : Path) (t t' : Tree) : Prop :=
  ∀ text, Journal.Holds path t text → Journal.Holds path t' text

theorem Journal.Keeps.of_readFile (before : t.readFile path = .ok (mode, bytes))
    (after : t'.readFile path = .ok (mode, bytes)) : Journal.Keeps path t t' := by
  intro text h
  have there : t.has path = true := by rw [Tree.has, Tree.readFile_eq_ok.1 before]
  rcases h with h | ⟨none, -, -⟩
  · obtain ⟨mode', h⟩ := Tree.readText_eq_ok.1 h
    obtain ⟨rfl, rfl⟩ := Prod.mk.inj (Except.ok.inj (h.symm.trans before))
    exact .inl (Tree.readText_eq_ok.2 ⟨mode', after⟩)
  · rw [there] at none
    exact Bool.noConfusion none

theorem textOf_cons (text : String) (e : Event) (events : List Event) :
    text ++ textOf (e :: events) = text ++ e.line ++ textOf events := by
  induction events using List.reverseRecOn with
  | nil => simp [textOf]
  | append_singleton events d ih =>
    rw [← List.cons_append, textOf_append_line, ih, textOf_append_line]

end Ledger

namespace Archive

open Ledger (Entry Store)
open Ledger.Journal (Holds Keeps)

variable {q : Request} {root path : Path} {base l : Location} {d : String} {e : Entry}
variable {es active planned : List Entry} {r r' : Repository} {t t' : Tree} {text : String}
variable {mode : Nat} {bytes : ByteArray} {paths : List Path} {s : Store}
variable {step : Entry → Repository → Except RequestFault Unit × Repository}

/-! ### What is recorded -/

/-- The entries for which a step is taken. -/
def stepped (step : Entry → Repository → Except RequestFault Unit × Repository) :
    List Entry → Repository → List Entry
  | [], _ => []
  | e :: es, r =>
    match step e r with
    | (.error _, _) => []
    | (.ok (), r) => e :: stepped step es r

/-- The entries that a request records, whether it succeeds or not. -/
def recorded (q : Request) (s : Store) (paths : List Path) (dryRun : Bool) (r : Repository) :
    List Entry :=
  match s.active r with
  | .error _ => []
  | .ok active =>
    match planScripts q r.tree active [] paths with
    | .error _ => []
    | .ok planned => if dryRun then [] else stepped (commitEntry q.root s) planned r

theorem stepped_subset : ∀ (es : List Entry) (r : Repository), stepped step es r ⊆ es
  | [], _ => by simp [stepped]
  | e :: es, r => by
    rw [stepped]
    split
    · simp
    · exact List.cons_subset_cons e (stepped_subset es _)

/-- What may become of a script that is to be archived, and the files that change. -/
theorem commitEntry_cases (root : Path) (s : Store) (e : Entry) (r : Repository) :
    (∃ f t, r.tree.moveFile (root.join e.original) (root.join e.archive) = (.error f, t) ∧
      commitEntry root s e r = (.error (.tree e.original f), { r with tree := t }) ∧
      commitChanges root s e r = [(r.tree, t)]) ∨
    ∃ t, r.tree.moveFile (root.join e.original) (root.join e.archive) = (.ok (), t) ∧
      ((∃ r₁, s.record e { r with tree := t } = (.ok (), r₁) ∧
        commitEntry root s e r = (.ok (), r₁) ∧ commitChanges root s e r = [(r.tree, t)]) ∨
      ∃ f r₁ t₁, s.record e { r with tree := t } = (.error f, r₁) ∧
        (r₁.tree.moveFile (root.join e.archive) (root.join e.original)).2 = t₁ ∧
        commitEntry root s e r = (.error (.ledger f), { r₁ with tree := t₁ }) ∧
        commitChanges root s e r = [(r.tree, t), (r₁.tree, t₁)]) := by
  unfold commitEntry commitChanges
  cases moving : r.tree.moveFile (root.join e.original) (root.join e.archive) with
  | mk result t =>
  cases result with
  | error f => exact .inl ⟨f, t, rfl, by simp only [moving], rfl⟩
  | ok =>
  refine .inr ⟨t, rfl, ?_⟩
  simp only [moving]
  cases recording : s.record e { r with tree := t } with
  | mk result r₁ =>
  cases result with
  | ok => exact .inl ⟨r₁, rfl, rfl, rfl⟩
  | error f => exact .inr ⟨f, r₁, _, rfl, rfl, rfl, rfl⟩

/-- The entries of a batch in memory are those of the scripts archived. -/
theorem stepEach_entries (root : Path) : ∀ (es : List Entry) (r : Repository),
    (stepEach (commitEntry root .memory) es r).2.entries =
      r.entries ++ stepped (commitEntry root .memory) es r
  | [], r => by simp [stepEach, stepped]
  | e :: es, r => by
    rw [stepEach, stepped]
    rcases commitEntry_cases root .memory e r with
      ⟨f, t, -, failed, -⟩ | ⟨t, -, ⟨r₁, recorded, done, -⟩ | ⟨f, r₁, t₁, refused, -, failed, -⟩⟩
    · simp [failed]
    · simp only [done]
      rw [stepEach_entries root es r₁, Store.memory_record_ok recorded]
      simp
    · simp [failed, Store.memory_record_error refused]

/-- A batch that ends well has taken a step for each entry. -/
theorem stepped_of_ok : ∀ {es : List Entry} {r : Repository},
    stepEach step es r = (.ok (), r') → stepped step es r = es
  | [], _, _ => rfl
  | e :: es, r, done => by
    obtain ⟨r₁, first, rest⟩ := stepEach_cons done
    rw [stepped, first]
    exact congrArg (e :: ·) (stepped_of_ok rest)

/-! ### Journals that no move changes -/

/-- A script that is moved and recorded puts its line behind the text. -/
theorem commitEntry_holds (holds : Holds path r.tree text)
    (kept : ∀ c ∈ commitChanges root (.journal path) e r, Keeps path c.1 c.2) :
    (∃ r', commitEntry root (.journal path) e r = (.ok (), r') ∧
      Holds path r'.tree (text ++ e.event.line)) ∨
    ∃ f r', commitEntry root (.journal path) e r = (.error f, r') ∧ Holds path r'.tree text := by
  rcases commitEntry_cases root (.journal path) e r with
    ⟨f, t, -, failed, changes⟩ | ⟨t, -, ⟨r₁, recorded, done, changes⟩ |
      ⟨f, r₁, t₁, refused, -, failed, changes⟩⟩
  · rw [changes] at kept
    exact .inr ⟨_, _, failed, kept _ List.mem_cons_self text holds⟩
  · rw [changes] at kept
    rcases Ledger.Store.record_holds (r := { r with tree := t })
      (kept _ List.mem_cons_self text holds) e with ⟨r', written, after⟩ | ⟨f, r', refused, -⟩
    · obtain rfl : r₁ = r' := (Prod.mk.inj (recorded.symm.trans written)).2
      exact .inl ⟨r₁, done, after⟩
    · rw [recorded] at refused
      simp at refused
  · rw [changes] at kept
    rcases Ledger.Store.record_holds (r := { r with tree := t })
      (kept _ List.mem_cons_self text holds) e with ⟨r', written, -⟩ | ⟨g, r', refused', still⟩
    · rw [refused] at written
      simp at written
    · obtain rfl : r₁ = r' := (Prod.mk.inj (refused.symm.trans refused')).2
      exact .inr ⟨_, _, failed, kept _ (List.mem_cons_of_mem _ List.mem_cons_self) text still⟩

/-- **A batch puts the lines of the scripts that it archives behind the text**, as long
as no move changes that. -/
theorem stepEach_holds : ∀ {es : List Entry} {r : Repository} {text : String},
    Holds path r.tree text →
    (∀ c ∈ eachChanges (commitEntry root (.journal path)) (commitChanges root (.journal path)) es r,
      Keeps path c.1 c.2) →
    Holds path (stepEach (commitEntry root (.journal path)) es r).2.tree
      (text ++ Ledger.textOf ((stepped (commitEntry root (.journal path)) es r).map Entry.event))
  | [], r, text, holds, _ => by simpa [stepEach, stepped, Ledger.textOf] using holds
  | e :: es, r, text, holds, kept => by
    rw [eachChanges, List.forall_mem_append] at kept
    obtain ⟨first, rest⟩ := kept
    rw [stepEach, stepped]
    rcases commitEntry_holds holds first with ⟨r₁, done, written⟩ | ⟨f, r₁, failed, still⟩
    · simp only [done] at rest ⊢
      rw [List.map_cons, Ledger.textOf_cons]
      exact stepEach_holds written rest
    · simpa [failed, Ledger.textOf] using still

/-- A request ends before anything moves, or it is the batch that has been planned. -/
theorem archive_cases (q : Request) (s : Store) (paths : List Path) (dryRun : Bool)
    (r : Repository) :
    (archive q s paths dryRun r).2 = r ∧ recorded q s paths dryRun r = [] ∧
        changes q s paths dryRun r = [] ∨
      ∃ active planned, s.active r = .ok active ∧
        planScripts q r.tree active [] paths = .ok planned ∧
        (archive q s paths dryRun r).2 = (stepEach (commitEntry q.root s) planned r).2 ∧
        recorded q s paths dryRun r = stepped (commitEntry q.root s) planned r ∧
        changes q s paths dryRun r =
          eachChanges (commitEntry q.root s) (commitChanges q.root s) planned r := by
  unfold archive recorded changes
  cases asked : s.active r with
  | error f => exact .inl ⟨rfl, rfl, rfl⟩
  | ok active =>
  cases scripts : planScripts q r.tree active [] paths with
  | error f => exact .inl ⟨by simp only [scripts], by simp only [scripts], by simp only [scripts]⟩
  | ok planned =>
  simp only [scripts]
  cases dryRun with
  | true => exact .inl ⟨rfl, rfl, rfl⟩
  | false =>
    refine .inr ⟨active, planned, rfl, scripts, ?_, rfl, rfl⟩
    rw [if_neg Bool.false_ne_true, commit]
    split <;> next done => rw [done]

/-- **A request puts the lines of the scripts that it archives behind the text of a
journal**, as long as no move changes that. -/
theorem archive_holds (dryRun : Bool) (holds : Holds path r.tree text)
    (kept : ∀ c ∈ changes q (.journal path) paths dryRun r, Keeps path c.1 c.2) :
    Holds path (archive q (.journal path) paths dryRun r).2.tree
      (text ++ Ledger.textOf ((recorded q (.journal path) paths dryRun r).map Entry.event)) := by
  rcases archive_cases q (.journal path) paths dryRun r with
    ⟨same, none, -⟩ | ⟨active, planned, -, -, after, new, moves⟩
  · rw [same, none]
    simpa [Ledger.textOf] using holds
  · rw [moves] at kept
    rw [after, new]
    exact stepEach_holds holds kept

theorem recorded_new (dryRun : Bool) : ∀ e ∈ recorded q s paths dryRun r,
    e.isNew = true ∧ e.archivedAt = q.now := by
  intro e he
  rcases archive_cases q s paths dryRun r with
    ⟨-, none, -⟩ | ⟨active, planned, -, scripts, -, new, -⟩
  · simp [none] at he
  · rw [new] at he
    rw [planScripts_fresh scripts (by simp) e (stepped_subset planned r he)]
    exact ⟨rfl, rfl⟩

end Archive
end Attic
