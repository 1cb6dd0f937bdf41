import Attic.Proofs.Order.Distinct
import Attic.Proofs.Path.Relative
import Attic.Proofs.Restore.Forecast
import Mathlib

/-!
# Plans and reports leave nothing out

A plan has one item for each active entry that its criteria select, in the order of
their paths and, for one path, of their times. A report has one line for each item:
what a run makes of it, or what a dry run says it would. So it is for any plan, also
for an old one or one that lists a path twice, whatever the ledger answers and
whenever the items are started.

Key definitions: `Restore.Restorer.Selects`, `Restore.Report.Accounts`.
Key theorems: `Restore.Restorer.plan_entries`, `Restore.accounts_of`,
`Restore.Restorer.plan_accounts`.
-/

namespace Attic

/-! ### Orders -/

/-- Dates sort by year, month and day. -/
theorem Date.before_byKey :
    Order.ByKey Date.before fun d => toLex (d.year, toLex (d.month, d.day)) := by
  intro d e
  simp [Date.before, Prod.Lex.toLex_lt_toLex]

/-- Moments sort by date, second and nanosecond. -/
theorem Timestamp.before_byKey : Order.ByKey Timestamp.before fun t =>
    toLex (toLex (t.date.year, toLex (t.date.month, t.date.day)), toLex (t.second, t.nano)) := by
  rintro ⟨⟨y, m, d⟩, second, nano⟩ ⟨⟨y', m', d'⟩, second', nano'⟩
  simp [Timestamp.before, Date.before, Prod.Lex.toLex_lt_toLex]

namespace Restore

open Ledger (Entry)

variable {s : Restorer} {r r' : Repository} {es : List Entry} {e : Entry} {c : Criteria} {p : Plan}
variable {o : Options} {gs : List (List Item)} {clock : Item → Reading} {report : Report}
variable {done : List (Path × Done)} {t : Tree}

/-! ### Plans -/

/-- Whether criteria select an entry: its batch, its day, the category of its path, or
its path, which is the one that is asked for in its normal form. -/
def Restorer.Selects (s : Restorer) (t : Tree) : Criteria → Entry → Prop
  | .batch id, e => e.batch = id
  | .dates first last, e =>
    e.archivedAt.date.before first = false ∧ last.before e.archivedAt.date = false
  | .category tag, e => categoryOf s.categories e.original = tag
  | .path p, e => e.original.same (s.relativePath t p) = true

instance (c : Criteria) (e : Entry) : Decidable (s.Selects t c e) := by
  cases c <;> unfold Restorer.Selects <;> infer_instance

/-- A path with a normal form is looked for under it. -/
theorem relativePath_of_normalize? {p q : Path} (h : p.normalize? = some q) :
    s.relativePath t p = q := by
  obtain ⟨names, found, -⟩ := Option.map_eq_some_iff.1 h
  have relative := Path.isAbsolute_of_names? found
  simp [Restorer.relativePath, relative, h]

/-- A path that is recorded in its normal form is selected by the paths with that
normal form. -/
theorem selects_path_iff {p : Path} (normal : e.original.IsNormal)
    (named : p.normalize?.isSome) : s.Selects t (.path p) e ↔ p.normalize? = some e.original := by
  obtain ⟨q, hq⟩ := Option.isSome_iff_exists.1 named
  rw [Restorer.Selects, relativePath_of_normalize? hq, hq, Option.some.injEq]
  refine ⟨fun same => (normal.eq_of_same (Path.isNormal_of_normalize? hq) same).symm, ?_⟩
  rintro rfl
  exact Path.same_refl _

theorem entryBefore_byKey : Order.ByKey entryBefore fun e =>
    toLex (e.original.key, toLex (toLex (e.archivedAt.date.year,
      toLex (e.archivedAt.date.month, e.archivedAt.date.day)),
      toLex (e.archivedAt.second, e.archivedAt.nano))) :=
  Order.ByKey.lex (fun a b => Path.before_byKey a.original b.original)
    fun a b => Timestamp.before_byKey a.archivedAt b.archivedAt

theorem select_eq (active : s.store.active r = .ok (es.filter Entry.isActive)) (c : Criteria) :
    s.select c r = .ok (es.filter fun e => e.isActive && s.Selects r.tree c e) := by
  have chosen {f : Entry → Bool} (same : ∀ e, f e = true ↔ s.Selects r.tree c e) :
      (s.store.active r).map (fun es => es.filter f) =
        .ok (es.filter fun e => e.isActive && s.Selects r.tree c e) := by
    rw [active, Except.map, List.filter_filter]
    refine congrArg _ (List.filter_congr fun e _ => ?_)
    rw [Bool.eq_iff_iff, Bool.and_eq_true, Bool.and_eq_true, same, decide_eq_true_eq, and_comm]
  unfold Restorer.select
  cases c with
  | batch id => exact chosen fun e => by simp [Restorer.Selects]
  | dates first last => exact chosen fun e => by simp [Restorer.Selects, Entry.archivedWithin]
  | category tag => exact chosen fun e => by simp [Restorer.Selects]
  | path p => exact chosen fun e => Iff.rfl

/-- **A plan has an item for each active entry that is selected**, sorted by path and
time. -/
theorem Restorer.plan_entries (active : s.store.active r = .ok (es.filter Entry.isActive))
    (c : Criteria) : ∃ p, s.plan c r = .ok p ∧
      (p.items.map Item.entry).Perm (es.filter fun e => e.isActive && s.Selects r.tree c e) ∧
      (∀ i ∈ p.items, i = planItem r.tree s.root i.entry) ∧
      p.items.Pairwise fun i j => j.target.before i.target = false ∧
        (i.target.same j.target = true → j.entry.archivedAt.before i.entry.archivedAt = false) := by
  rw [Restorer.plan, select_eq active]
  refine ⟨_, rfl, ?_, fun i hi => ?_, ?_⟩
  · simpa [List.map_map, Function.comp_def] using Order.sortBy_perm _ _
  · obtain ⟨e, -, rfl⟩ := List.mem_map.1 hi
    rw [planItem_entry]
  · simp only [List.pairwise_map, Item.target, planItem_entry]
    refine (entryBefore_byKey.sorted _).imp fun le => ?_
    obtain ⟨paths, times⟩ := Prod.Lex.toLex_le_toLex'.1 le
    refine ⟨by simpa using Path.before_byKey.not_before.2 paths, fun same => ?_⟩
    simpa using Timestamp.before_byKey.not_before.2 (times (Path.key_eq_iff.2 same))

/-! ### Reports -/

/-- The items that a run has skipped, in the order of the run. -/
def skippedItems (done : List (Path × Done)) : List Skipped :=
  done.filterMap fun d => match d.2 with
    | .skipped reason => some ⟨d.1, reason⟩
    | _ => none

/-- The items that have failed, in the order of the run. -/
def failedItems (done : List (Path × Done)) : List Failed :=
  done.filterMap fun d => match d.2 with
    | .failed fault => some ⟨d.1, fault⟩
    | _ => none

/-- The paths in a report. -/
def Report.paths (report : Report) : List Path :=
  report.restored ++ report.wouldRestore ++ report.skipped.map Skipped.path ++
    report.failed.map Failed.path

/-- Whether a report has each item of a plan once: as restored, skipped or failed, or
for a dry run as one that would be restored or as skipped. Each list is in order. -/
structure Report.Accounts (p : Plan) (report : Report) : Prop where
  all : report.paths.Perm (p.items.map Item.target)
  real : report.dryRun = false → report.wouldRestore = []
  dry : report.dryRun = true → report.restored = [] ∧ report.failed = []
  restored : Path.Ascending report.restored
  wouldRestore : Path.Ascending report.wouldRestore
  skipped : Path.Ascending (report.skipped.map Skipped.path)
  failed : Path.Ascending (report.failed.map Failed.path)

/-- Each item that was run is restored, skipped or failed. -/
theorem outcomes_perm : ∀ done : List (Path × Done), (restoredPaths done ++
    (skippedItems done).map Skipped.path ++ (failedItems done).map Failed.path).Perm
      (done.map Prod.fst)
  | [] => .nil
  | (q, d) :: done => by
    have rest := outcomes_perm done
    cases d with
    | restored w => exact rest.cons q
    | skipped reason =>
      refine .trans (.append_right _ (List.perm_middle (a := q))) (rest.cons q)
    | failed fault => exact List.perm_middle.trans (rest.cons q)

/-- Each item of a plan restores or is skipped by the plan. -/
theorem planned_perm (p : Plan) : ((plannedSkips p).map Skipped.path ++
    p.restoring.map Item.target).Perm (p.items.map Item.target) := by
  unfold plannedSkips Plan.restoring
  induction p.items with
  | nil => exact .nil
  | cons i is ih =>
    cases action : i.action with
    | restore =>
      simp only [List.filterMap_cons, List.filter_cons, action]
      exact List.perm_middle.trans (ih.cons _)
    | skipPresent =>
      simp only [List.filterMap_cons, List.filter_cons, action]
      exact ih.cons _
    | skipMissing =>
      simp only [List.filterMap_cons, List.filter_cons, action]
      exact ih.cons _

theorem skippedBefore_byKey : Order.ByKey Skipped.before fun x =>
    toLex (x.path.key, if x.reason = .conflict then 0 else 1) := by
  have reasons : Order.ByKey (fun a b : Skipped => a.reason == .conflict && b.reason == .missing)
      fun x => if x.reason = .conflict then 0 else 1 := by
    intro a b
    cases h : a.reason <;> cases h' : b.reason <;> simp [h, h']
  intro a b
  rw [← Order.ByKey.lex (fun a b : Skipped => Path.before_byKey a.path b.path) reasons a b,
    Skipped.before, Bool.and_assoc]

/-- **Whatever becomes of the items that restore, the report has every item once.** -/
theorem accounts_of (all : (done.map Prod.fst).Perm (p.restoring.map Item.target)) :
    (Report.of p done).Accounts p where
  all := by
    have restored : (Report.of p done).restored.Perm (restoredPaths done) := restored_perm p done
    have skipped : ((Report.of p done).skipped.map Skipped.path).Perm
        ((plannedSkips p).map Skipped.path ++ (skippedItems done).map Skipped.path) := by
      rw [← List.map_append]
      exact (Order.sortBy_perm _ _).map _
    have failed : ((Report.of p done).failed.map Failed.path).Perm
        ((failedItems done).map Failed.path) := (Order.sortBy_perm _ _).map _
    refine .trans ?_ (planned_perm p)
    refine .trans ?_ (((outcomes_perm done).trans all).append_left _)
    have none : (Report.of p done).wouldRestore = [] := rfl
    rw [Report.paths, none, List.append_nil]
    refine ((restored.append skipped).append failed).trans ?_
    simp only [← List.append_assoc]
    exact (List.perm_append_comm.append_right _).append_right _
  real _ := rfl
  dry h := Bool.noConfusion h
  restored := Path.ascending_iff.2 (Path.before_byKey.sorted _)
  wouldRestore := .nil
  skipped := Path.ascending_sortBy skippedBefore_byKey _
  failed := by
    rw [Path.ascending_iff, List.pairwise_map]
    exact Order.ByKey.sorted (fun a b => Path.before_byKey a.path b.path) _

/-- A dry run has every item once. -/
theorem accounts_dry (p : Plan) : (Report.dry p).Accounts p where
  all := by
    have skipped : ((Report.dry p).skipped.map Skipped.path).Perm
        ((plannedSkips p).map Skipped.path) := (Order.sortBy_perm _ _).map _
    refine .trans ?_ (planned_perm p)
    simp only [Report.paths, Report.dry, List.nil_append, List.map_nil, List.append_nil]
    exact (((groups_perm p).map _).append skipped).trans List.perm_append_comm
  real h := Bool.noConfusion h
  dry _ := ⟨rfl, rfl⟩
  restored := .nil
  wouldRestore := by
    rw [Path.ascending_iff, Report.dry, groups, foldr_addToGroups_flatten, List.pairwise_map]
    exact Order.ByKey.sorted (fun i j => Path.before_byKey i.target j.target) _
  skipped := Path.ascending_sortBy skippedBefore_byKey _
  failed := .nil

/-! ### Runs -/

/-- A report that a run gives has every item of the plan once, whatever the ledger
answers and whenever the items are started. -/
theorem Restorer.applyIn_accounts (perm : gs.Perm (groups p))
    (run : s.applyIn gs clock p o r = (.ok report, r')) :
    report.dryRun = o.dryRun ∧ report.Accounts p := by
  cases dry : o.dryRun with
  | true =>
    rw [Restorer.applyIn, dry, if_pos rfl] at run
    obtain rfl := Except.ok.inj (Prod.mk.inj run).1
    exact ⟨rfl, accounts_dry p⟩
  | false =>
    obtain ⟨-, ds, done, rfl⟩ := applyIn_ok dry run
    have targets : ((runItems s clock gs.flatten r).1.map Prod.fst).Perm
      (p.restoring.map Item.target) := targets_perm perm
    rw [done] at targets
    exact ⟨rfl, accounts_of targets⟩

/-- **Nothing that is selected is lost or counted twice.** The plan for some criteria
has the active entries that they select, each once, in the order of their paths and
times. Whatever plan is carried out, whenever it was made, in any order of its groups
and with any answers of the ledger, the report has the path of each item once, in
lists that are sorted by path; and so it is for any outcomes of the items, in whatever
way they have run beside each other. -/
theorem Restorer.plan_accounts (active : s.store.active r = .ok (es.filter Entry.isActive))
    (c : Criteria) :
    (∃ p, s.plan c r = .ok p ∧
      (p.items.map Item.entry).Perm (es.filter fun e => e.isActive && s.Selects r.tree c e) ∧
      (∀ i ∈ p.items, i = planItem r.tree s.root i.entry) ∧
      p.items.Pairwise fun i j => j.target.before i.target = false ∧
        (i.target.same j.target = true → j.entry.archivedAt.before i.entry.archivedAt = false)) ∧
    (∀ (any : Restorer) (p : Plan) (gs : List (List Item)) (clock : Item → Reading) (o : Options)
      (state state' : Repository) (report : Report), gs.Perm (groups p) →
        any.applyIn gs clock p o state = (.ok report, state') →
          report.dryRun = o.dryRun ∧ report.Accounts p) ∧
    ∀ (p : Plan) (done : List (Path × Done)),
      (done.map Prod.fst).Perm (p.restoring.map Item.target) → (Report.of p done).Accounts p :=
  ⟨plan_entries active c, fun _ _ _ _ _ _ _ _ perm run => applyIn_accounts perm run,
    fun _ _ all => accounts_of all⟩

def twinEntry (script copy batch : String) : Entry :=
  .fresh ⟨script⟩ ⟨copy⟩ batch ⟨⟨2025, 6, 1⟩, 0, 0⟩ ""

/-- A path is archived twice, and a script of another batch stands between. -/
def twinRepository : Repository where
  tree := ⟨[(["r"], .folder), (["r", "z"], .folder), (["r", "z", "x"], .file 0o644 "x".toByteArray),
    (["r", "z", "y"], .file 0o644 "y".toByteArray)]⟩
  entries := [twinEntry "a" "z/v" "b1", twinEntry "c" "z/x" "b1", twinEntry "b" "z/w" "b2",
    twinEntry "c" "z/y" "b1"]

def twinRestorer : Restorer := ⟨⟨"/r"⟩, [], .memory⟩

def twinSelected : List Entry :=
  [twinEntry "a" "z/v" "b1", twinEntry "c" "z/x" "b1", twinEntry "c" "z/y" "b1"]

def twinPlan : Plan := ⟨.batch "b1", twinSelected.map (planItem twinRepository.tree ⟨"/r"⟩)⟩

/-- One of the two scripts of a path is restored, the other and the one whose copy is
gone are skipped: three lines for three items. -/
theorem plan_accounts_twin : ∃ report r',
    twinRestorer.plan (.batch "b1") twinRepository = .ok twinPlan ∧
    (twinPlan.items.map Item.entry).Perm twinSelected ∧
    twinRestorer.applyIn (groups twinPlan) (fun _ => ⟨⟨⟨2025, 6, 2⟩, 0, 0⟩, false⟩) twinPlan
      ⟨false, true, none, false⟩ twinRepository = (.ok report, r') ∧
    report.restored = [⟨"c"⟩] ∧ report.skipped = [⟨⟨"a"⟩, .missing⟩, ⟨⟨"c"⟩, .conflict⟩] ∧
    report.paths.Perm [⟨"a"⟩, ⟨"c"⟩, ⟨"c"⟩] := by
  have active : twinRestorer.store.active twinRepository =
      .ok (twinRepository.entries.filter Entry.isActive) := rfl
  obtain ⟨⟨p, planned, entries, -⟩, accounts, -⟩ := Restorer.plan_accounts active (.batch "b1")
  have made : twinRestorer.plan (.batch "b1") twinRepository = .ok twinPlan := by
    have selected : twinRestorer.select (.batch "b1") twinRepository = .ok twinSelected := by
      decide +kernel
    rw [Restorer.plan, selected]
    simp only
    rw [Order.sortBy_of_sorted (by decide +kernel)]
    rfl
  obtain rfl : twinPlan = p := Except.ok.inj (made.symm.trans planned)
  have grouped : (groups twinPlan).flatten =
      [planItem twinRepository.tree ⟨"/r"⟩ (twinEntry "c" "z/x" "b1"),
        planItem twinRepository.tree ⟨"/r"⟩ (twinEntry "c" "z/y" "b1")] := by
    rw [groups, foldr_addToGroups_flatten, Order.sortBy_of_sorted (by decide +kernel)]
    decide +kernel
  have done : (runItems twinRestorer (fun _ => ⟨⟨⟨2025, 6, 2⟩, 0, 0⟩, false⟩)
      (groups twinPlan).flatten twinRepository).1 =
        [(⟨"c"⟩, .restored none), (⟨"c"⟩, .skipped .conflict)] := by
    rw [grouped]
    decide +kernel
  have run : twinRestorer.applyIn (groups twinPlan) (fun _ => ⟨⟨⟨2025, 6, 2⟩, 0, 0⟩, false⟩)
      twinPlan ⟨false, true, none, false⟩ twinRepository =
        (.ok (.of twinPlan [(⟨"c"⟩, .restored none), (⟨"c"⟩, .skipped .conflict)]),
          (runItems twinRestorer (fun _ => ⟨⟨⟨2025, 6, 2⟩, 0, 0⟩, false⟩)
            (groups twinPlan).flatten twinRepository).2) := by
    rw [← done]
    rfl
  refine ⟨_, _, made, ?_, run, ?_, ?_, (accounts _ _ _ _ _ _ _ _ (.refl _) run).2.all⟩
  · exact entries.trans (by decide +kernel)
  · exact Order.sortBy_of_sorted (by decide +kernel)
  · exact Order.sortBy_of_sorted (by decide +kernel)

end Restore
end Attic
