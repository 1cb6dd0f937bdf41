import Attic.Proofs.Order.Distinct
import Attic.Proofs.Restore.Forecast
import Mathlib

/-!
# The order of the groups

Groups are told apart by their places alone, as paths. Two items that are clear
of each other can be carried out in either order, and then every order comes to
the same: the places have their scripts, the copies are gone, the folders are
there, and the same entries are marked. Items of which one is in the way of the
other are restored according to which of them comes first.

Key definitions: `Restore.Timely`, `Restore.Alike`, `Restore.Restorer.OrderFree`.
Key theorems: `Restore.Underway.get?_eq`, `Restore.Restorer.orderFree_iff`,
`Restore.Restorer.orderFree_of_folders`.
-/

namespace Attic
namespace Restore

open Ledger (Entry Obliging)

variable {s : Restorer} {t : Tree} {i j : Item} {is is' done done' : List Item}
variable {r r' : Repository} {es es' : List Entry} {clock clock' : Item → Reading} {p : Plan}
variable {c : Criteria} {o : Options} {gs gs' : List (List Item)} {l : Location}

/-- Whether each item is started in time, at a time that can be written. -/
structure Timely (clock : Item → Reading) : Prop where
  early : ∀ i, (clock i).late = false
  valid : ∀ i, (clock i).now.isValid = true

/-- Whether two runs come to the same: to the same report, to the same tree, files
of the ledger apart, and to entries of the same statuses. -/
structure Alike {s : Ledger.Store} (k : Obliging s)
    (x y : Except RequestFault Report × Repository) : Prop where
  report : x.1 = y.1
  tree : ∀ l, ¬ k.own l → x.2.tree.get? l = y.2.tree.get? l
  statuses : ∃ es es', k.keeps x.2 es ∧ k.keeps y.2 es' ∧
    es.map Entry.status = es'.map Entry.status

/-- Whether it does not matter in which order the groups of a plan are run. -/
def Restorer.OrderFree (s : Restorer) (k : Obliging s.store) (p : Plan) (r : Repository) : Prop :=
  ∀ o gs gs' clock clock', gs.Perm (groups p) → gs'.Perm (groups p) → Timely clock →
    Timely clock' → Alike k (s.applyIn gs clock p o r) (s.applyIn gs' clock' p o r)

/-- Whether an item of a plan is restored in some order of them. -/
def Restorer.Restorable (s : Restorer) (clock : Item → Reading) (p : Plan) (r : Repository)
    (i : Item) : Prop :=
  ∃ is, is.Perm p.restoring ∧ i.target ∈ restoredPaths (runItems s clock is r).1

/-! ### Two runs -/

/-- Where nothing is to come there is nothing. -/
theorem Underway.idle {k : Obliging s.store} (h : Underway k t done r es) (free : t.get? l = none)
    (place : ¬ ∃ j ∈ done, l = j.place s.root t)
    (folder : ¬ ∃ j ∈ done, (j.opened s.root t).get? l = some .folder) : r.tree.get? l = none := by
  rcases h.new l free with none | there | ⟨-, there⟩
  · exact none
  · exact absurd there place
  · exact absurd there folder

/-- **The tree depends on which items have been restored, not on their order.** -/
theorem Underway.get?_eq {k : Obliging s.store} (h : Underway k t done r es)
    (h' : Underway k t done' r' es') (perm : done.Perm done') (own : ¬ k.own l) :
    r.tree.get? l = r'.tree.get? l := by
  have moved := perm.map (Item.source s.root t)
  by_cases source : l ∈ done.map (Item.source s.root t)
  · obtain ⟨j, hj, rfl⟩ := List.mem_map.1 source
    rw [h.gone j hj, h'.gone j (perm.mem_iff.1 hj)]
  by_cases there : t.get? l = none
  · by_cases place : ∃ j ∈ done, l = j.place s.root t
    · obtain ⟨j, hj, rfl⟩ := place
      rw [h.came j hj, h'.came j (perm.mem_iff.1 hj)]
    by_cases folder : ∃ j ∈ done, (j.opened s.root t).get? l = some .folder
    · obtain ⟨j, hj, opened⟩ := folder
      rw [h.folders j hj l there opened, h'.folders j (perm.mem_iff.1 hj) l there opened]
    rw [h.idle there place folder, h'.idle there]
    · simpa only [perm.mem_iff] using place
    · simpa only [perm.mem_iff] using folder
  · rw [h.same l there source own, h'.same l there (mt moved.mem_iff.2 source) own]

/-- The report on items that are restored does not tell their order. -/
theorem report_restored (perm : is.Perm is')
    (apart : is.Pairwise fun i j => i.target.same j.target = false) :
    Report.of p (is.map fun i => (i.target, .restored none)) =
      Report.of p (is'.map fun i => (i.target, .restored none)) := by
  have sorted : Order.sortBy Path.before (is.map Item.target) =
      Order.sortBy Path.before (is'.map Item.target) := by
    refine Path.before_byKey.sortBy_perm_eq (perm.map _) (List.pairwise_map.2 (apart.imp ?_))
    intro i j other same
    rw [Path.same_of_key same] at other
    exact Bool.noConfusion other
  simpa [Report.of, List.filterMap_map, Function.comp_def] using sorted

/-- Of the items that were run the report lists those as restored that were. -/
theorem mem_restored_iff {done : List (Path × Done)} {x : Path × Done}
    (distinct : (done.map Prod.fst).Nodup) (hx : x ∈ done) :
    x.1 ∈ (Report.of p done).restored ↔ x.2.IsRestored := by
  constructor
  · intro listed
    obtain ⟨y, hy, same, restored⟩ := mem_restored listed
    obtain rfl := List.inj_on_of_nodup_map distinct hy hx same
    exact restored
  · rintro ⟨w, restored⟩
    refine (restored_perm p done).mem_iff.2 (List.mem_filterMap.2 ⟨x, hx, ?_⟩)
    rw [restored]

theorem Alike.refl {k : Obliging s.store} (keeps : k.keeps r es)
    (answer : Except RequestFault Report) : Alike k (answer, r) (answer, r) :=
  ⟨rfl, fun _ _ => rfl, es, es, keeps, keeps, rfl⟩

/-- Two orders come to the same if what they do does. -/
theorem Alike.applyIn {k : Obliging s.store} (keeps : k.keeps r es)
    (alike : Alike k
      (.ok (.of p (runItems s clock gs.flatten r).1), (runItems s clock gs.flatten r).2)
      (.ok (.of p (runItems s clock' gs'.flatten r).1), (runItems s clock' gs'.flatten r).2)) :
    Alike k (s.applyIn gs clock p o r) (s.applyIn gs' clock' p o r) := by
  unfold Restorer.applyIn
  split
  · exact .refl keeps _
  split
  · exact .refl keeps _
  split
  · exact .refl keeps _
  · exact alike

/-! ### Plans -/

section

variable (k : Obliging s.store) (grounded : r.tree.Grounded) (keeps : k.keeps r es)
variable (distinct : (es.filter Entry.isActive).Pairwise fun a b =>
  a.original.same b.original = false)
variable (planned : s.plan c r = .ok p)
variable (copies : ∀ i ∈ p.restoring, ∃ mode bytes,
  r.tree.lookPlain (s.root.join i.entry.archive) = .ok (.file mode bytes))
variable (away : ∀ i ∈ p.restoring, ∀ l,
  r.tree.placeOf? false (s.root.join i.entry.archive) = some l → ¬ k.own l)

include grounded keeps distinct planned away in
/-- Items that are clear of each other are restored in any order, with one end. -/
theorem Restorer.orderFree_of_clear (goes : ∀ i ∈ p.restoring, i.Goes s.root r.tree)
    (clear : ∀ i ∈ p.restoring, ∀ j ∈ p.restoring, i ≠ j → j.ClearOf s.root r.tree i) :
    s.OrderFree k p r := by
  intro o gs gs' clock clock' perm perm' timely timely'
  have members := perm.flatten.trans (groups_perm p)
  have members' := perm'.flatten.trans (groups_perm p)
  have both := members.trans members'.symm
  obtain ⟨restored, es₁, marks, run⟩ := runItems_restoring k grounded keeps distinct planned away
    timely.valid timely.early goes clear members
  obtain ⟨restored', es₂, marks', run'⟩ := runItems_restoring k grounded keeps distinct planned away
    timely'.valid timely'.early goes clear members'
  refine .applyIn keeps ⟨?_, fun l own => run.get?_eq run' both own, es₁, es₂, run.keeps,
    run'.keeps, Ledger.markEach?_status marks marks' ?_⟩
  · obtain ⟨-, apart⟩ := restoring_active (k.active keeps) planned distinct
    have apart' := (members.pairwise_iff fun h => Path.same_symm_false h).2 apart
    simp only [restored, restored', report_restored both apart']
  · simpa only [List.map_map, Function.comp_def] using both.map Item.target

include grounded keeps distinct planned copies away in
/-- **The order does not matter where the folders of the scripts are still there** and
no two items share a place or a copy. -/
theorem Restorer.orderFree_of_folders
    (folders : ∀ i ∈ p.restoring, Tree.endsWithSlash (s.root.join i.target).text = false ∧
      ∃ l name, r.tree.spot false false (s.root.join i.target) = .ok (.vacant l name))
    (apart : ∀ i ∈ p.restoring, ∀ j ∈ p.restoring, i ≠ j →
      r.tree.placeOf? false (s.root.join i.entry.archive) ≠
        r.tree.placeOf? false (s.root.join j.entry.archive) ∧
      r.tree.placeOf? false (s.root.join i.target) ≠ r.tree.placeOf? false (s.root.join j.target)) :
    s.OrderFree k p r := by
  obtain ⟨goes, clear⟩ := clear_of_folders grounded copies folders apart
  exact orderFree_of_clear k grounded keeps distinct planned away goes clear

/-- Where the order does not matter an item that some order restores is restored in
every order. -/
theorem Restorer.OrderFree.restores {k : Obliging s.store} (free : s.OrderFree k p r)
    (timely : Timely clock) (apart : p.restoring.Pairwise fun i j => i.target.same j.target = false)
    (possible : ∀ i ∈ p.restoring, s.Restorable clock p r i) (perm : is.Perm p.restoring) :
    ∀ x ∈ (runItems s clock is r).1, x.2.IsRestored := by
  obtain ⟨gs, permG, rfl⟩ := exists_groups apart perm
  intro x hx
  have targets : ((runItems s clock gs.flatten r).1.map Prod.fst).Perm _ := targets_perm permG
  have nodup : ((runItems s clock gs.flatten r).1.map Prod.fst).Nodup := by
    rw [targets.nodup_iff, List.Nodup, List.pairwise_map]
    refine apart.imp fun {a b} other same => ?_
    rw [same, Path.same_refl] at other
    exact Bool.noConfusion other
  obtain ⟨i, hi, target⟩ := List.mem_map.1 (targets.mem_iff.1 (List.mem_map_of_mem hx))
  obtain ⟨is', perm', restored⟩ := possible i hi
  obtain ⟨gs', permG', rfl⟩ := exists_groups apart perm'
  have filled : p.items ≠ [] := List.ne_nil_of_mem (mem_restoring.1 hi).1
  have reports := (free { Options.standard with dryRun := false, force := true } gs' gs clock clock
    permG' permG timely timely).report
  rw [applyIn_forced filled, applyIn_forced filled] at reports
  rw [← mem_restored_iff (p := p) nodup hx, ← target, ← Except.ok.inj reports]
  exact (restored_perm p _).mem_iff.2 restored

include grounded keeps distinct planned copies away in
/-- **The order of the groups does not matter if and only if each item is restored by
itself and after any one other**, for items each of which some order restores. -/
theorem Restorer.orderFree_iff (timely : Timely clock)
    (possible : ∀ i ∈ p.restoring, s.Restorable clock p r i) :
    s.OrderFree k p r ↔
      (∀ i ∈ p.restoring, (runItem s (clock i).now false i r).1.IsRestored) ∧
      ∀ i ∈ p.restoring, ∀ j ∈ p.restoring, i ≠ j →
        (runItem s (clock j).now false j (runItem s (clock i).now false i r).2).1.IsRestored := by
  obtain ⟨-, apart⟩ := restoring_active (k.active keeps) planned distinct
  constructor
  · intro free
    have restores {is : List Item} (perm : is.Perm p.restoring) :=
      free.restores timely apart possible perm
    refine ⟨fun i hi => ?_, fun i hi j hj differ => ?_⟩
    · have first := restores (List.perm_cons_erase hi).symm
      simp only [runItems, timely.early] at first
      exact first _ List.mem_cons_self
    · have hj' : j ∈ p.restoring.erase i := (List.mem_erase_of_ne differ.symm).2 hj
      have second := restores
        (((List.perm_cons_erase hj').cons i).symm.trans (List.perm_cons_erase hi).symm)
      simp only [runItems, timely.early] at second
      exact second _ (List.mem_cons_of_mem _ List.mem_cons_self)
  · rintro ⟨alone, after⟩
    have goes : ∀ i ∈ p.restoring, i.Goes s.root r.tree := fun i hi =>
      goes_of_restored grounded copies hi (alone i hi)
    exact orderFree_of_clear k grounded keeps distinct planned away goes fun i hi j hj differ =>
      clearOf_of_restored k grounded keeps distinct planned away timely.valid hi (goes i hi)
        (goes j hj) (after i hi j hj differ)

end

/-- The script `a` and the script `b` of a folder `a`. -/
def nestedEntries : List Entry :=
  [.fresh ⟨"a"⟩ ⟨"z/x.2025-06-01"⟩ "b1" ⟨⟨2025, 6, 1⟩, 0, 0⟩ "",
    .fresh ⟨"a/b"⟩ ⟨"z/y.2025-06-01"⟩ "b1" ⟨⟨2025, 6, 1⟩, 0, 0⟩ ""]

def nestedRestorer : Restorer := ⟨⟨"/r"⟩, [], .memory⟩

def nestedRepository : Repository where
  tree := ⟨[(["r"], .folder), (["r", "z"], .folder),
    (["r", "z", "x.2025-06-01"], .file 0o644 "x".toByteArray),
    (["r", "z", "y.2025-06-01"], .file 0o644 "y".toByteArray)]⟩
  entries := nestedEntries

def nestedPlan : Plan := ⟨.batch "b1", nestedEntries.map (planItem nestedRepository.tree ⟨"/r"⟩)⟩

def nestedReading : Reading := ⟨⟨⟨2025, 6, 2⟩, 0, 0⟩, false⟩

/-- Of two scripts one of which takes the place of the folder of the other, the one
that comes first is restored. -/
theorem orderFree_iff_nested :
    nestedRestorer.plan (.batch "b1") nestedRepository = .ok nestedPlan ∧
    nestedPlan.restoring = nestedPlan.items ∧
    (runItems nestedRestorer (fun _ => nestedReading) nestedPlan.items nestedRepository).1 =
      [(⟨"a"⟩, .restored none), (⟨"a/b"⟩, .skipped .conflict)] ∧
    (runItems nestedRestorer (fun _ => nestedReading) nestedPlan.items.reverse nestedRepository).1 =
      [(⟨"a/b"⟩, .restored none), (⟨"a"⟩, .skipped .conflict)] ∧
    ¬ nestedRestorer.OrderFree .memory nestedPlan nestedRepository := by
  have restoring : nestedPlan.restoring = nestedPlan.items := by decide +kernel
  have planned : nestedRestorer.plan (.batch "b1") nestedRepository = .ok nestedPlan := by
    have selected : nestedRestorer.select (.batch "b1") nestedRepository = .ok nestedEntries := by
      decide +kernel
    rw [Restorer.plan, selected]
    simp only
    rw [Order.sortBy_of_sorted (by decide +kernel)]
    rfl
  have grounded : nestedRepository.tree.Grounded :=
    Tree.WellFormed.grounded ⟨by decide, by decide, by decide +kernel⟩
  have distinct : (nestedEntries.filter Entry.isActive).Pairwise fun a b =>
      a.original.same b.original = false := by decide +kernel
  have copies : ∀ i ∈ nestedPlan.restoring, ∃ mode bytes,
      nestedRepository.tree.lookPlain (nestedRestorer.root.join i.entry.archive) =
        .ok (.file mode bytes) := by
    rw [restoring]
    simp only [nestedPlan, nestedEntries, List.map_cons, List.map_nil, List.forall_mem_cons,
      planItem_entry]
    exact ⟨⟨0o644, "x".toByteArray, by decide +kernel⟩, ⟨0o644, "y".toByteArray, by decide +kernel⟩,
      fun _ none => absurd none (List.not_mem_nil)⟩
  have possible : ∀ i ∈ nestedPlan.restoring,
      nestedRestorer.Restorable (fun _ => nestedReading) nestedPlan nestedRepository i := by
    have orders : ∀ i ∈ nestedPlan.items, ∃ is ∈ [nestedPlan.items, nestedPlan.items.reverse],
        i.target ∈
          restoredPaths (runItems nestedRestorer (fun _ => nestedReading) is nestedRepository).1 := by
      decide +kernel
    intro i hi
    rw [restoring] at hi
    obtain ⟨is, order, restored⟩ := orders i hi
    refine ⟨is, ?_, restored⟩
    rw [restoring]
    rcases List.mem_pair.1 order with rfl | rfl
    · exact .refl _
    · exact List.reverse_perm _
  have skipped : ∃ i ∈ nestedPlan.restoring, ∃ j ∈ nestedPlan.restoring, i ≠ j ∧
      (runItem nestedRestorer nestedReading.now false j
        (runItem nestedRestorer nestedReading.now false i nestedRepository).2).1 =
          .skipped .conflict := by decide +kernel
  have free := Restorer.orderFree_iff .memory grounded rfl distinct planned copies
    (fun _ _ _ _ => id) ⟨fun _ => rfl, fun _ => by decide⟩ possible
  refine ⟨planned, restoring, by decide +kernel, by decide +kernel, fun all => ?_⟩
  obtain ⟨i, hi, j, hj, differ, skipped⟩ := skipped
  obtain ⟨w, restored⟩ := (free.1 all).2 i hi j hj differ
  simp [skipped] at restored

end Restore
end Attic
