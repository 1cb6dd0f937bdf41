import Attic.Proofs.Restore.Planning
import Mathlib

/-!
# What a run needs to change anything

A run may change the tree and the ledger only if it is no dry run, the plan has an
item that restores, and the run is forced or confirmed with the token of the plan.
Any other run answers at once. A run that may change something still does nothing
where the time for starting items is over.

Key definition: `Restore.Authorised`.
Key theorems: `Restore.runItems_late`, `Restore.Restorer.applyIn_cases`,
`Restore.Restorer.applyIn_authorised`.
-/

namespace Attic
namespace Restore

variable {s : Restorer} {r : Repository} {p : Plan} {o : Options} {gs : List (List Item)}
variable {clock : Item → Reading}

/-- Whether a run may change anything: it is real, there is something to restore,
and that is forced or confirmed. -/
structure Authorised (p : Plan) (o : Options) : Prop where
  real : o.dryRun = false
  restores : p.restoring ≠ []
  agreed : o.force = true ∨ o.token = some p.token

/-! ### Runs without items -/

/-- There are groups where there are items that restore. -/
theorem groups_eq_nil_iff : groups p = [] ↔ p.restoring = [] := by
  constructor
  · intro none
    have perm := groups_perm p
    rw [none] at perm
    exact perm.nil_eq.symm
  · intro none
    have sorted : Order.sortBy targetBefore p.restoring = [] := by simp [none, Order.sortBy]
    rw [groups, ← Plan.restoring, sorted]
    rfl

theorem restoring_ne_nil_iff : p.restoring ≠ [] ↔ ∃ i ∈ p.items, i.action = .restore := by
  simp [List.eq_nil_iff_forall_not_mem, mem_restoring]

/-- **Items that are started too late do nothing.** -/
theorem runItems_late (s : Restorer) : ∀ {is : List Item} (r : Repository),
    (∀ i ∈ is, (clock i).late = true) →
      runItems s clock is r = (is.map fun i => (i.target, .failed .late), r)
  | [], _, _ => rfl
  | i :: is, r, late => by
    obtain ⟨first, rest⟩ := List.forall_mem_cons.1 late
    rw [runItems, runItem, first, if_pos rfl]
    simp only [runItems_late s r rest, List.map_cons]

/-! ### Answers -/

/-- **A run that is not authorised answers at once**: with what it would do, with a
report on a plan of which nothing restores, or with an error. Any other one runs the
items. -/
theorem Restorer.applyIn_cases (s : Restorer) (clock : Item → Reading) (o : Options)
    (r : Repository) (perm : gs.Perm (groups p)) :
    (¬ Authorised p o ∧ ∃ answer, s.applyIn gs clock p o r = (answer, r) ∧
      (o.dryRun = true → answer = .ok (.dry p)) ∧
      (o.dryRun = false → p.restoring ≠ [] → answer = .error .unconfirmed)) ∨
    Authorised p o ∧ s.applyIn gs clock p o r =
      (.ok (.of p (runItems s clock gs.flatten r).1), (runItems s clock gs.flatten r).2) := by
  unfold Restorer.applyIn
  cases dry : o.dryRun with
  | true =>
    refine .inl ⟨fun h => ?_, _, rfl, fun _ => rfl, fun real => Bool.noConfusion real⟩
    rw [h.real] at dry
    exact Bool.noConfusion dry
  | false =>
  rw [if_neg Bool.false_ne_true]
  by_cases restores : p.restoring = []
  · -- without groups nothing is run
    have idle : gs = [] := (groups_eq_nil_iff.2 restores ▸ perm).eq_nil
    subst idle
    refine .inl ⟨fun h => h.restores restores, ?_⟩
    rw [groups_eq_nil_iff.2 restores]
    simp only [List.isEmpty_nil, Bool.not_true, Bool.and_false, Bool.false_and, Bool.false_eq_true,
      if_false, List.flatten_nil, runItems]
    split
    · exact ⟨_, rfl, False.elim, fun _ h => absurd restores h⟩
    · exact ⟨_, rfl, False.elim, fun _ h => absurd restores h⟩
  have filled : p.isEmpty = false := by
    refine List.isEmpty_eq_false_iff.2 fun none => restores ?_
    simp [Plan.restoring, none]
  have grouped : (groups p).isEmpty = false :=
    List.isEmpty_eq_false_iff.2 fun none => restores (groups_eq_nil_iff.1 none)
  rw [filled, if_neg Bool.false_ne_true, grouped]
  by_cases agreed : o.force = true ∨ o.token = some p.token
  · refine .inr ⟨⟨dry, restores, agreed⟩, ?_⟩
    have goes : ¬ (!o.force && !false && decide (o.token ≠ some p.token)) = true := by
      rcases agreed with force | token
      · simp [force]
      · simp [token]
    rw [if_neg goes]
  · rw [not_or, Bool.not_eq_true] at agreed
    refine .inl ⟨fun h => ?_, .error .unconfirmed, ?_, fun h => Bool.noConfusion h,
      fun _ _ => rfl⟩
    · rcases h.agreed with force | token
      · rw [agreed.1] at force
        exact Bool.noConfusion force
      · exact agreed.2 token
    · rw [if_pos]
      simp [agreed]

/-- **Only an authorised run changes anything.** The tree and the ledger stay as they
were if the run fails as a whole, if it is a dry run, if the plan has no item that
restores, and if the time for starting items is over. A real run of a plan with an
item that restores succeeds without force just if it is given the token of the plan,
and a dry run always succeeds. -/
theorem Restorer.applyIn_authorised (s : Restorer) (clock : Item → Reading) (o : Options)
    (r : Repository) (perm : gs.Perm (groups p)) :
    ((∃ f, (s.applyIn gs clock p o r).1 = .error f) ∨ o.dryRun = true ∨
        (∀ i ∈ p.items, i.action ≠ .restore) ∨ (∀ i ∈ p.items, (clock i).late = true) →
      (s.applyIn gs clock p o r).2 = r) ∧
    (o.dryRun = false → (∃ i ∈ p.items, i.action = .restore) → o.force = false →
      ((∃ report, (s.applyIn gs clock p o r).1 = .ok report) ↔ o.token = some p.token)) ∧
    (o.dryRun = true → ∃ report, (s.applyIn gs clock p o r).1 = .ok report) := by
  rcases applyIn_cases s clock o r perm with
    ⟨refused, answer, done, dry, unconfirmed⟩ | ⟨authorised, done⟩
  · rw [done]
    refine ⟨fun _ => rfl, fun real restores calm => ?_, fun h => ⟨_, dry h⟩⟩
    have restores := restoring_ne_nil_iff.2 restores
    rw [unconfirmed real restores]
    refine ⟨fun ⟨_, h⟩ => by simp at h, fun token => ?_⟩
    exact absurd ⟨real, restores, .inr token⟩ refused
  · rw [done]
    refine ⟨fun why => ?_, fun _ _ calm => ⟨fun _ => ?_, fun _ => ⟨_, rfl⟩⟩, fun _ => ⟨_, rfl⟩⟩
    · rcases why with ⟨f, failed⟩ | dry | idle | late
      · simp at failed
      · rw [authorised.real] at dry
        exact Bool.noConfusion dry
      · obtain ⟨i, hi, restores⟩ := restoring_ne_nil_iff.1 authorised.restores
        exact absurd restores (idle i hi)
      · have members := perm.flatten.trans (groups_perm p)
        rw [runItems_late s r fun i hi => late i (mem_restoring.1 (members.mem_iff.1 hi)).1]
    · refine authorised.agreed.resolve_left fun force => ?_
      rw [calm] at force
      exact Bool.noConfusion force

def guardedEntry : Ledger.Entry :=
  .fresh ⟨"a"⟩ ⟨"z/a.2025-06-01"⟩ "b1" ⟨⟨2025, 6, 1⟩, 0, 0⟩ ""

def guardedRestorer : Restorer := ⟨⟨"/r"⟩, [], .memory⟩

def guardedRepository : Repository where
  tree := ⟨[(["r"], .folder), (["r", "z"], .folder),
    (["r", "z", "a.2025-06-01"], .file 0o644 "x".toByteArray)]⟩
  entries := [guardedEntry]

def guardedPlan : Plan :=
  ⟨.batch "b1", [planItem guardedRepository.tree ⟨"/r"⟩ guardedEntry]⟩

/-- A run of the plan with given options and an answer to whether it is too late. -/
def guardedRun (o : Options) (late : Bool) : Except RequestFault Report × Repository :=
  guardedRestorer.applyIn (groups guardedPlan) (fun _ => ⟨⟨⟨2025, 6, 2⟩, 0, 0⟩, late⟩) guardedPlan o
    guardedRepository

/-- Without the token of the plan nothing is restored, with it the script is; and
nothing is by a dry run and by a forced one that comes too late. -/
theorem applyIn_authorised_guarded :
    (∃ f, (guardedRun .standard false).1 = .error f) ∧
    (guardedRun .standard false).2 = guardedRepository ∧
    (∃ report, (guardedRun { Options.standard with token := some guardedPlan.token } false).1 =
      .ok report) ∧
    (guardedRun { Options.standard with force := true } true).2 = guardedRepository ∧
    (∃ report, (guardedRun { Options.standard with dryRun := true } false).1 = .ok report) ∧
    (guardedRun { Options.standard with dryRun := true } false).2 = guardedRepository := by
  have only (o : Options) (late : Bool) := Restorer.applyIn_authorised guardedRestorer
    (fun _ => ⟨⟨⟨2025, 6, 2⟩, 0, 0⟩, late⟩) o guardedRepository (.refl (groups guardedPlan))
  have restores : ∃ i ∈ guardedPlan.items, i.action = .restore := by decide +kernel
  have refused : ∃ f, (guardedRun .standard false).1 = .error f := by
    cases answer : (guardedRun .standard false).1 with
    | error f => exact ⟨f, rfl⟩
    | ok report =>
      have token := ((only .standard false).2.1 rfl restores rfl).1 ⟨report, answer⟩
      simp [Options.standard] at token
  refine ⟨refused, (only _ false).1 (.inl refused), ?_, ?_, ?_, ?_⟩
  · exact ((only _ false).2.1 rfl restores rfl).2 rfl
  · exact (only _ true).1 (.inr (.inr (.inr fun _ _ => rfl)))
  · exact (only _ false).2.2 rfl
  · exact (only _ false).1 (.inr (.inl rfl))

end Restore
end Attic
