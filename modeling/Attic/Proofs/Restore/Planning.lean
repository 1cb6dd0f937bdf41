import Attic.Proofs.Ledger.Keeper
import Attic.Proofs.Order.Distinct
import Attic.Proofs.Tree.Below
import Attic.Restore.Apply
import Mathlib

/-!
# What a plan holds

A plan has an item for each of some active entries, and its groups have its
restoring items, once each. An item restores only if its copy is there and
nothing is at its place.

Key definition: `Restore.Item.Ready`.
Key theorems: `Restore.groups_perm`, `Restore.plan_items`, `Restore.report_of_restored`.
-/

namespace Attic

namespace Restore

variable {s : Restorer} {r : Repository} {es : List Ledger.Entry} {c : Criteria} {p : Plan}

/-! ### Groups -/

theorem addToGroups_flatten (i : Item) : ∀ gs, (addToGroups i gs).flatten = i :: gs.flatten
  | [] => by simp [addToGroups]
  | [] :: gs => by simp [addToGroups]
  | (j :: js) :: gs => by
    rw [addToGroups]
    split <;> simp

theorem foldr_addToGroups_flatten : ∀ is : List Item,
    (is.foldr addToGroups []).flatten = is
  | [] => rfl
  | i :: is => by
    rw [List.foldr_cons, addToGroups_flatten, foldr_addToGroups_flatten is]

/-- The items of a plan that restore. -/
def Plan.restoring (p : Plan) : List Item := p.items.filter fun i => i.action = .restore

/-- The groups hold each item that restores once. -/
theorem groups_perm (p : Plan) : (groups p).flatten.Perm p.restoring := by
  rw [groups, foldr_addToGroups_flatten]
  exact Order.sortBy_perm _ _

theorem mem_restoring {i : Item} : i ∈ p.restoring ↔ i ∈ p.items ∧ i.action = .restore := by
  simp [Plan.restoring]

/-! ### Items -/

@[simp] theorem planItem_entry (t : Tree) (root : Path) (e : Ledger.Entry) :
    (planItem t root e).entry = e := by
  unfold planItem
  cases t.lookPlain (root.join e.original) <;>
  · dsimp only
    split <;> rfl

/-- An item that can be restored: its copy is there, and nothing is at its
place. -/
structure Item.Ready (t : Tree) (root : Path) (i : Item) : Prop where
  copy : t.isFile (root.join i.entry.archive) = true
  free : ∃ f, t.lookPlain (root.join i.target) = .error f

theorem planItem_ready {t : Tree} {root : Path} {e : Ledger.Entry}
    (h : (planItem t root e).action = .restore) : (planItem t root e).Ready t root := by
  have entry := planItem_entry t root e
  constructor
  · rw [entry]
    cases copy : t.isFile (root.join e.archive) with
    | true => rfl
    | false => simp [planItem, copy] at h
  · rw [Item.target, entry]
    cases free : t.lookPlain (root.join e.original) with
    | error f => exact ⟨f, rfl⟩
    | ok o =>
      unfold planItem at h
      simp only [free] at h
      split at h <;> simp at h

/-- **A plan has an item for each of some of the active entries.** -/
theorem plan_items (active : s.store.active r = .ok (es.filter Ledger.Entry.isActive))
    (h : s.plan c r = .ok p) :
    ∃ chosen : List Ledger.Entry, chosen.Sublist (es.filter Ledger.Entry.isActive) ∧
      p.items.Perm (chosen.map (planItem r.tree s.root)) := by
  unfold Restorer.plan at h
  split at h
  · simp at h
  next chosen selected =>
  obtain rfl := Except.ok.inj h
  refine ⟨chosen, ?_, (Order.sortBy_perm _ _).map _⟩
  unfold Restorer.select at selected
  cases c <;>
  · simp only [Ledger.Store.ofBatch, Ledger.Store.ofDates, active, Except.map,
      Except.ok.injEq] at selected
    rw [← selected]
    exact List.filter_sublist

/-! ### Reports -/

/-- The paths that were restored, in the order of the run. -/
def restoredPaths (done : List (Path × Done)) : List Path :=
  done.filterMap fun d => match d.2 with
    | .restored _ => some d.1
    | _ => none

theorem restoredPaths_of_restored {d : Done} (h : ∃ w, d = .restored w) (q : Path)
    (done : List (Path × Done)) : restoredPaths ((q, d) :: done) = q :: restoredPaths done := by
  obtain ⟨w, rfl⟩ := h
  rfl

theorem restoredPaths_of_ne {d : Done} (h : ∀ w, d ≠ .restored w) (q : Path)
    (done : List (Path × Done)) : restoredPaths ((q, d) :: done) = restoredPaths done := by
  cases d with
  | restored w => exact absurd rfl (h w)
  | skipped reason => rfl
  | failed fault => rfl

theorem mem_restoredPaths {q : Path} {done : List (Path × Done)} :
    q ∈ restoredPaths done ↔ ∃ w, (q, .restored w) ∈ done := by
  unfold restoredPaths
  rw [List.mem_filterMap]
  constructor
  · rintro ⟨⟨q', d⟩, mem, h⟩
    cases d with
    | restored w => exact ⟨w, Option.some.inj h ▸ mem⟩
    | skipped reason => simp at h
    | failed fault => simp at h
  · rintro ⟨w, mem⟩
    exact ⟨_, mem, rfl⟩

theorem restored_perm (p : Plan) (done : List (Path × Done)) :
    (Report.of p done).restored.Perm (restoredPaths done) := Order.sortBy_perm _ _

theorem mem_restored {q : Path} {done : List (Path × Done)} (h : q ∈ (Report.of p done).restored) :
    ∃ x ∈ done, x.1 = q ∧ ∃ w, x.2 = .restored w := by
  obtain ⟨⟨q', d⟩, mem, h⟩ := List.mem_filterMap.1 ((Order.mem_sortBy _ _).1 h)
  cases d with
  | restored w => exact ⟨_, mem, Option.some.inj h, w, rfl⟩
  | skipped reason => simp at h
  | failed fault => simp at h

/-- The report on a run in which nothing fails. -/
theorem report_of_restored {is : List Item} {done : List (Path × Done)}
    (all : ∀ i ∈ p.items, i.action = .restore)
    (ends : done = is.map fun i => (i.target, .restored none)) :
    (Report.of p done).restored.Perm (is.map Item.target) ∧ (Report.of p done).skipped = [] ∧
      (Report.of p done).failed = [] ∧ (Report.of p done).warnings = [] := by
  have planned : plannedSkips p = [] := by
    rw [plannedSkips, List.filterMap_eq_nil_iff]
    intro i hi
    rw [all i hi]
  subst ends
  refine ⟨(Order.sortBy_perm _ _).trans ?_, ?_, ?_, ?_⟩
  · simp [List.filterMap_map]
  · simp [Report.of, planned, List.filterMap_map, Order.sortBy]
  · simp [Report.of, List.filterMap_map, Order.sortBy]
  · simp [Report.of, List.filterMap_map, Order.sortBy]

/-- A plan that is carried out has items, and the report is that of their run. -/
theorem Restorer.applyIn_ok {order : List (List Item)} {clock : Item → Reading} {o : Options}
    {report : Report} {r' : Repository} (real : o.dryRun = false)
    (done : s.applyIn order clock p o r = (.ok report, r')) :
    p.items ≠ [] ∧ ∃ ds, runItems s clock order.flatten r = (ds, r') ∧ report = .of p ds := by
  unfold Restorer.applyIn at done
  rw [real, if_neg Bool.false_ne_true] at done
  split at done
  · simp at done
  next filled =>
  split at done
  · simp at done
  obtain ⟨same, rfl⟩ := Prod.mk.inj done
  refine ⟨fun empty => filled ?_, _, rfl, (Except.ok.inj same).symm⟩
  rw [Plan.isEmpty, empty]
  rfl

end Restore
end Attic
