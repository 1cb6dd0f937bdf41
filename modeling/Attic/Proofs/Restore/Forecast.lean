import Attic.Proofs.Ledger.Entries
import Attic.Proofs.Ledger.Ranks
import Attic.Proofs.Restore.Going
import Mathlib

/-!
# What a dry run foresees

A plan looks at each place by itself, while the items of a run share one tree:
an item may make a folder where another puts its script, or put its script where
another needs a folder. Whether one item gets in the way of another shows when
only these two are run. If each item can be carried out by itself, and after any
one other, then every order of the groups restores what the dry run lists, and
otherwise some order does not.

Key definitions: `Restore.Underway`, `Restore.Report.Fulfils`,
`Restore.Restorer.Foresees`.
Key theorems: `Restore.runItems_clear`, `Restore.fulfils_iff`,
`Restore.Restorer.foresees_iff`, `Restore.Restorer.foresees_of_folders`.
-/

namespace Attic

namespace Path

theorem same_symm_false {p q : Path} (h : p.same q = false) : q.same p = false :=
  Bool.eq_false_iff.2 fun same => Bool.eq_false_iff.1 h (same_symm same)

end Path

namespace Restore

open Ledger (Entry Obliging)

variable {s : Restorer} {t : Tree} {i j : Item} {is done : List Item} {r : Repository}
variable {es : List Entry} {now : Timestamp} {clock : Item → Reading} {p : Plan} {c : Criteria}
variable {o : Options} {gs : List (List Item)}

/-! ### Runs -/

/-- Where a run from `t` stands when some items have been restored. -/
structure Underway (k : Obliging s.store) (t : Tree) (done : List Item) (r : Repository)
    (es : List Entry) : Prop where
  keeps : k.keeps r es
  grounded : r.tree.Grounded
  stays : t.Stays (done.map (Item.source s.root t)) [] r.tree
  same : ∀ l, t.get? l ≠ none → l ∉ done.map (Item.source s.root t) → ¬ k.own l →
    r.tree.get? l = t.get? l
  /-- Where nothing was there is nothing, a script, or a folder for a script. -/
  new : ∀ l, t.get? l = none → r.tree.get? l = none ∨ (∃ j ∈ done, l = j.place s.root t) ∨
    r.tree.get? l = some .folder ∧ ∃ j ∈ done, (j.opened s.root t).get? l = some .folder
  gone : ∀ j ∈ done, r.tree.get? (j.source s.root t) = none
  came : ∀ j ∈ done, r.tree.get? (j.place s.root t) = j.script s.root t
  folders : ∀ j ∈ done, ∀ l, t.get? l = none → (j.opened s.root t).get? l = some .folder →
    r.tree.get? l = some .folder

/-- An item that is clear of those before it can be carried out, and comes to what it
came to at first. -/
theorem Underway.goes {k : Obliging s.store} (h : Underway k t done r es) (grounded : t.Grounded)
    (before : ∀ j ∈ done, j.Goes s.root t) (goes : i.Goes s.root t)
    (away : ¬ k.own (i.source s.root t)) (clear : ∀ j ∈ done, i.ClearOf s.root t j) :
    i.Goes s.root r.tree ∧ i.source s.root r.tree = i.source s.root t ∧
      i.place s.root r.tree = i.place s.root t ∧ i.script s.root r.tree = i.script s.root t ∧
      Tree.Joined t (i.opened s.root t) r.tree (i.opened s.root r.tree) := by
  obtain ⟨-, m, b, copy, -⟩ := goes.source grounded
  obtain ⟨-, -, -, -, -, -, vacant⟩ := goes.place grounded
  have moved : ∀ l ∈ done.map (Item.source s.root t), ∀ target, t.get? l ≠ some (.link target) := by
    intro l hl target
    obtain ⟨j, hj, rfl⟩ := List.mem_map.1 hl
    obtain ⟨-, m, b, copy, -⟩ := (before j hj).source grounded
    simp [copy]
  have kept : r.tree.get? (i.source s.root t) = t.get? (i.source s.root t) := by
    refine h.same _ (by simp [copy]) (fun hl => ?_) away
    obtain ⟨j, hj, same⟩ := List.mem_map.1 hl
    exact (clear j hj).source same.symm
  have free : Tree.Free t (i.opened s.root t) r.tree := by
    intro l vacant folder
    rcases h.new l vacant with none | ⟨j, hj, rfl⟩ | ⟨folder, -⟩
    · exact .inl none
    · exact absurd folder (clear j hj).opened
    · exact .inr folder
  have still : r.tree.get? (i.place s.root t) = none := by
    rcases h.new _ vacant with none | ⟨j, hj, same⟩ | ⟨-, j, hj, folder⟩
    · exact none
    · exact absurd same (clear j hj).place
    · exact absurd folder (clear j hj).opens
  have goes' := goes.later h.stays grounded h.grounded free still kept
  obtain ⟨source, place, -, joined⟩ := goes.same h.stays grounded h.grounded moved goes'
  refine ⟨goes', source, place, ?_, joined⟩
  rw [i.script_eq copy, i.script_eq (source ▸ kept.trans copy)]

/-- What restoring an item does to the tree of a run from `t`: its folders are made
where nothing was, its script comes, and of what was there only its copy goes. -/
structure Item.Advances (root : Path) (t : Tree) (own : Location → Prop) (i : Item)
    (u u' : Tree) : Prop where
  new : ∀ {l}, t.get? l = none → l ≠ i.place root t → u'.get? l =
    if (i.opened root t).get? l = some .folder then some .folder else u.get? l
  old : ∀ {l}, t.get? l ≠ none → ¬ own l →
    u'.get? l = if l = i.source root t then none else u.get? l
  came : u'.get? (i.place root t) = i.script root t

/-- Where a run stands after it has restored one more item. -/
theorem Underway.advance {k : Obliging s.store} {r' : Repository} {es' : List Entry}
    (h : Underway k t done r es) (grounded : t.Grounded)
    (before : ∀ j ∈ done, j.Goes s.root t ∧ ¬ k.own (j.source s.root t))
    (goes : i.Goes s.root t) (away : ¬ k.own (i.source s.root t))
    (clear : ∀ j ∈ done, i.ClearOf s.root t j) (keeps : k.keeps r' es')
    (grounded' : r'.tree.Grounded) (stays : r.tree.Stays [i.source s.root t] [] r'.tree)
    (after : i.Advances s.root t k.own r.tree r'.tree) : Underway k t (done ++ [i]) r' es' := by
  have moved {j : Item} (goes : j.Goes s.root t) (away : ¬ k.own (j.source s.root t)) :
      r'.tree.get? (j.source s.root t) =
        if j.source s.root t = i.source s.root t then none else r.tree.get? (j.source s.root t) := by
    obtain ⟨-, m, b, copy, -⟩ := goes.source grounded
    exact after.old (by simp [copy]) away
  refine ⟨keeps, grounded', ?stays, ?same, ?new, ?gone, ?came, ?folders⟩
  case stays =>
    rw [List.map_append]
    exact h.stays.trans stays
  case same =>
    intro l there out own
    rw [List.map_append, List.mem_append, not_or] at out
    rw [after.old there own, if_neg (by simpa using out.2), h.same l there out.1 own]
  case new =>
    intro l hl
    by_cases hp : l = i.place s.root t
    · exact .inr (.inl ⟨i, by simp, hp⟩)
    rw [after.new hl hp]
    split
    · next folder => exact .inr (.inr ⟨rfl, i, by simp, folder⟩)
    · rcases h.new l hl with none | ⟨j, hj, same⟩ | ⟨made, j, hj, opened⟩
      · exact .inl none
      · exact .inr (.inl ⟨j, by simp [hj], same⟩)
      · exact .inr (.inr ⟨made, j, by simp [hj], opened⟩)
  case gone =>
    intro j hj
    rcases List.mem_append.1 hj with hj | hj
    · rw [moved (before j hj).1 (before j hj).2, h.gone j hj, ite_self]
    · rw [List.mem_singleton.1 hj, moved goes away, if_pos rfl]
  case came =>
    intro j hj
    rcases List.mem_append.1 hj with hj | hj
    · obtain ⟨-, -, -, -, -, -, vacant⟩ := (before j hj).1.place grounded
      rw [after.new vacant (clear j hj).place.symm, if_neg (clear j hj).opened, h.came j hj]
    · rw [List.mem_singleton.1 hj, after.came]
  case folders =>
    intro j hj l hl folder
    rcases List.mem_append.1 hj with hj | hj
    · have hp : l ≠ i.place s.root t := by
        rintro rfl
        exact (clear j hj).opens folder
      rw [after.new hl hp, h.folders j hj l hl folder, ite_self]
    · rw [List.mem_singleton.1 hj] at folder
      obtain ⟨-, -, -, -, -, free, -⟩ := goes.place grounded
      have hp : l ≠ i.place s.root t := by
        rintro rfl
        simp [free] at folder
      rw [after.new hl hp, if_pos folder]

/-- **An item that is clear of those before it is restored.** -/
theorem Underway.step {k : Obliging s.store} (h : Underway k t done r es) (grounded : t.Grounded)
    (owned : ∀ l, k.own l → t.get? l ≠ none)
    (before : ∀ j ∈ done, j.Goes s.root t ∧ ¬ k.own (j.source s.root t))
    (valid : now.isValid = true) (goes : i.Goes s.root t) (away : ¬ k.own (i.source s.root t))
    (clear : ∀ j ∈ done, i.ClearOf s.root t j) (active : ∃ e ∈ es, e.isActiveOf i.target = true) :
    ∃ r' es', runItem s now false i r = (.restored none, r') ∧
      Ledger.markFirst? i.target now es = some es' ∧ Underway k t (done ++ [i]) r' es' := by
  obtain ⟨-, m, b, copy, -⟩ := goes.source grounded
  obtain ⟨-, -, -, -, -, -, vacant⟩ := goes.place grounded
  obtain ⟨goes', source, place, script, joined⟩ :=
    h.goes grounded (fun j hj => (before j hj).1) goes away clear
  obtain ⟨r', es', run, marked, keeps', grounded', stays', after⟩ :=
    runItem_goes k h.grounded h.keeps valid goes' (source ▸ away) active
  rw [source] at stays' after
  rw [place, script] at after
  have unlike {l : Location} (hl : t.get? l = none) : l ≠ i.source s.root t := by
    rintro rfl
    simp [copy] at hl
  have other {l : Location} (hl : t.get? l ≠ none) : l ≠ i.place s.root t := by
    rintro rfl
    exact hl vacant
  refine ⟨r', es', run, marked,
    h.advance grounded before goes away clear keeps' grounded' stays' ⟨?_, ?_, ?_⟩⟩
  · intro l hl hp
    rw [after l fun own => owned l own hl, if_neg (unlike hl), if_neg hp, joined]
    simp only [hl, true_and]
  · intro l hl own
    rw [after l own, if_neg (other hl), joined, if_neg (hl ∘ And.left)]
  · rw [after _ fun own => owned _ own vacant, if_neg (unlike vacant), if_pos rfl]

theorem Underway.nil {k : Obliging s.store} (keeps : k.keeps r es) (grounded : r.tree.Grounded) :
    Underway k r.tree [] r es :=
  ⟨keeps, grounded, .refl _, fun _ _ _ _ => rfl, fun _ free => .inl free, by simp, by simp,
    by simp⟩

/-- **Items that are clear of each other are all restored.** -/
theorem runItems_clear {k : Obliging s.store} (grounded : t.Grounded)
    (owned : ∀ l, k.own l → t.get? l ≠ none) (early : ∀ i, (clock i).late = false)
    (times : ∀ i, (clock i).now.isValid = true) : ∀ {is done : List Item} {r : Repository}
    {es : List Entry}, Underway k t done r es →
      (∀ i ∈ done ++ is, i.Goes s.root t ∧ ¬ k.own (i.source s.root t)) →
      (done ++ is).Pairwise (fun i j => j.ClearOf s.root t i ∧ j.target.same i.target = false) →
      (∀ i ∈ is, ∃ e ∈ es, e.isActiveOf i.target = true) →
      (runItems s clock is r).1 = (is.map fun i => (i.target, .restored none)) ∧
        ∃ es', Ledger.markEach? (is.map fun i => (i.target, (clock i).now)) es = some es' ∧
          Underway k t (done ++ is) (runItems s clock is r).2 es'
  | [], done, r, es, h, _, _, _ => ⟨rfl, es, rfl, by simpa [runItems] using h⟩
  | i :: is, done, r, es, h, goes, clear, active => by
    have split : done ++ i :: is = done ++ [i] ++ is := by simp
    obtain ⟨-, behind, before⟩ := List.pairwise_append.1 clear
    obtain ⟨goesI, awayI⟩ := goes i (by simp)
    obtain ⟨r₁, es₁, first, marked, h₁⟩ := h.step grounded owned
      (fun j hj => goes j (List.mem_append_left _ hj)) (times i) goesI awayI
      (fun j hj => (before j hj i List.mem_cons_self).1) (active i List.mem_cons_self)
    have active₁ : ∀ j ∈ is, ∃ e ∈ es₁, e.isActiveOf j.target = true := fun j hj =>
      Ledger.exists_active_of_markFirst? marked ((List.pairwise_cons.1 behind).1 j hj).2
        (active j (List.mem_cons_of_mem _ hj))
    obtain ⟨restored, es', marks, rest⟩ :=
      runItems_clear grounded owned early times h₁ (split ▸ goes) (split ▸ clear) active₁
    rw [runItems, early i, first]
    refine ⟨by simp only [restored, List.map_cons], es', ?_, split ▸ rest⟩
    rw [List.map_cons, Ledger.markEach?, marked]
    exact marks

/-! ### Reports -/

/-- Whether an item was restored. -/
def Done.IsRestored (d : Done) : Prop := ∃ w, d = .restored w

/-- Whether a run does what a dry run said. -/
structure Report.Fulfils (real dry : Report) : Prop where
  restored : real.restored.Perm dry.wouldRestore
  skipped : real.skipped = dry.skipped
  failed : real.failed = []

theorem runItems_targets (s : Restorer) (clock : Item → Reading) : ∀ (is : List Item)
    (r : Repository), (runItems s clock is r).1.map Prod.fst = is.map Item.target
  | [], _ => rfl
  | i :: is, r => by
    rw [runItems]
    simp only [List.map_cons, runItems_targets s clock is]

/-- **A run does what the dry run said if and only if it restores every item.** -/
theorem fulfils_iff {done : List (Path × Done)}
    (targets : (done.map Prod.fst).Perm (p.restoring.map Item.target)) :
    (Report.of p done).Fulfils (.dry p) ↔ ∀ x ∈ done, x.2.IsRestored := by
  constructor
  · intro fulfils x hx
    cases hd : x.2 with
    | restored w => exact ⟨w, rfl⟩
    | skipped reason =>
      have lengths := congrArg List.length fulfils.skipped
      simp only [Report.of, Report.dry, (Order.sortBy_perm _ _).length_eq, List.length_append,
        Nat.add_eq_left, List.length_eq_zero_iff, List.filterMap_eq_nil_iff] at lengths
      have none := lengths x hx
      simp [hd] at none
    | failed fault =>
      have empty := (Order.sortBy_perm _ _).length_eq.symm.trans
        (congrArg List.length fulfils.failed)
      simp only [List.length_nil, List.length_eq_zero_iff, List.filterMap_eq_nil_iff] at empty
      have none := empty x hx
      simp [hd] at none
  · intro all
    have idle {α : Type} {f : Path × Done → Option α} (hf : ∀ q w, f (q, .restored w) = none) :
        done.filterMap f = [] := by
      rw [List.filterMap_eq_nil_iff]
      rintro ⟨q, d⟩ hx
      obtain ⟨w, rfl⟩ := all _ hx
      exact hf q w
    refine ⟨?_, ?_, ?_⟩
    · have names : restoredPaths done = done.map Prod.fst := by
        rw [restoredPaths, ← List.filterMap_eq_map]
        refine List.filterMap_congr fun x hx => ?_
        obtain ⟨w, hw⟩ := all x hx
        simp [hw]
      refine (restored_perm p done).trans ?_
      rw [names]
      exact targets.trans ((groups_perm p).map Item.target).symm
    · simp only [Report.of, Report.dry]
      rw [idle fun _ _ => rfl, List.append_nil]
    · simp only [Report.of]
      rw [idle fun _ _ => rfl]
      exact List.eq_nil_of_length_eq_zero (Order.sortBy_perm _ _).length_eq

/-! ### Orders -/

/-- Where no place is that of another each item is a group. -/
theorem groups_of_distinct : ∀ {is : List Item},
    is.Pairwise (fun i j => i.target.same j.target = false) →
      is.foldr addToGroups [] = is.map fun i => [i]
  | [], _ => rfl
  | [i], _ => rfl
  | i :: j :: is, distinct => by
    obtain ⟨first, rest⟩ := List.pairwise_cons.1 distinct
    rw [List.foldr_cons, groups_of_distinct rest, List.map_cons, addToGroups,
      first j List.mem_cons_self]
    rfl

/-- Every order of the items is that of some groups. -/
theorem exists_groups (distinct : p.restoring.Pairwise fun i j => i.target.same j.target = false)
    (perm : is.Perm p.restoring) :
    ∃ gs : List (List Item), gs.Perm (groups p) ∧ gs.flatten = is := by
  have sorted : (Order.sortBy targetBefore p.restoring).Perm p.restoring := Order.sortBy_perm _ _
  have alone : groups p = (Order.sortBy targetBefore p.restoring).map fun i => [i] :=
    groups_of_distinct ((sorted.pairwise_iff fun h => Path.same_symm_false h).2 distinct)
  refine ⟨is.map fun i => [i], ?_, by simp [← List.flatMap_def]⟩
  rw [alone]
  exact (perm.trans sorted.symm).map _

/-- An item has the active entry that it was planned for, and no other item has its
place. -/
theorem restoring_active (active : s.store.active r = .ok (es.filter Entry.isActive))
    (planned : s.plan c r = .ok p)
    (distinct : (es.filter Entry.isActive).Pairwise fun a b => a.original.same b.original = false) :
    (∀ i ∈ p.restoring, ∃ e ∈ es, e.isActiveOf i.target = true) ∧
      p.restoring.Pairwise fun i j => i.target.same j.target = false := by
  obtain ⟨chosen, sub, perm⟩ := plan_items active planned
  constructor
  · intro i hi
    obtain ⟨e, he, rfl⟩ := List.mem_map.1 (perm.mem_iff.1 (mem_restoring.1 hi).1)
    obtain ⟨inside, away⟩ := List.mem_filter.1 (sub.subset he)
    refine ⟨e, inside, ?_⟩
    rw [Item.target, planItem_entry]
    exact Ledger.isActiveOf_original away
  · refine List.Pairwise.filter _ ((perm.pairwise_iff fun h => Path.same_symm_false h).2 ?_)
    rw [List.pairwise_map]
    simpa only [Item.target, planItem_entry] using distinct.sublist sub

section

variable (k : Obliging s.store) (grounded : r.tree.Grounded) (keeps : k.keeps r es)
variable (distinct : (es.filter Entry.isActive).Pairwise fun a b =>
  a.original.same b.original = false)
variable (planned : s.plan c r = .ok p)
variable (copies : ∀ i ∈ p.restoring, ∃ mode bytes,
  r.tree.lookPlain (s.root.join i.entry.archive) = .ok (.file mode bytes))
variable (away : ∀ i ∈ p.restoring, ∀ l,
  r.tree.placeOf? false (s.root.join i.entry.archive) = some l → ¬ k.own l)
variable (times : ∀ i, (clock i).now.isValid = true)

include grounded copies in
theorem goes_of_restored (hi : i ∈ p.restoring)
    (h : (runItem s (clock i).now false i r).1.IsRestored) : i.Goes s.root r.tree := by
  obtain ⟨w, restored⟩ := h
  refine goes_of_runItem grounded (fun l place target link => ?_) restored
  obtain ⟨mode, bytes, look⟩ := copies i hi
  obtain ⟨-, l', place', there⟩ := Tree.placeOf?_of_lookPlain grounded look
  obtain rfl := Option.some.inj (place'.symm.trans place)
  simp [there] at link

include grounded keeps distinct planned away times in
/-- Two items of which the second is restored after the first are clear. -/
theorem clearOf_of_restored (hi : i ∈ p.restoring)
    (goesI : i.Goes s.root r.tree) (goesJ : j.Goes s.root r.tree)
    (h : (runItem s (clock j).now false j (runItem s (clock i).now false i r).2).1.IsRestored) :
    j.ClearOf s.root r.tree i := by
  obtain ⟨active, -⟩ := restoring_active (k.active keeps) planned distinct
  obtain ⟨source, -⟩ := goesI.source grounded
  obtain ⟨r₁, es₁, first, -, -, grounded₁, stays, after⟩ :=
    runItem_goes k grounded keeps (times i) goesI (away i hi _ source) (active i hi)
  rw [first] at h
  -- the copy of the second is no link, as no link has come
  have noLink : ∀ l, r₁.tree.placeOf? false (s.root.join j.entry.archive) = some l →
      ∀ target, r₁.tree.get? l ≠ some (.link target) := by
    intro l place target link
    obtain ⟨-, m, b, copy, -⟩ := goesI.source grounded
    obtain ⟨sourceJ, m', b', copyJ, -⟩ := goesJ.source grounded
    rcases stays.placeOf? (by simp [copy]) sourceJ place with rfl | ⟨into, -⟩
    · simp [stays.linked link] at copyJ
    · simp at into
  obtain ⟨w, restored⟩ := h
  refine Item.Goes.clearOf stays grounded grounded₁ goesI after (fun l own => ?_)
    (away i hi _ source) goesJ (goes_of_runItem grounded₁ noLink restored)
  obtain ⟨m, b, held⟩ := k.held grounded keeps own
  simp [held]

/-- A forced run of a plan with items. -/
theorem Restorer.applyIn_forced (filled : p.items ≠ []) :
    s.applyIn gs clock p { o with dryRun := false, force := true } r =
      (.ok (.of p (runItems s clock gs.flatten r).1), (runItems s clock gs.flatten r).2) := by
  rw [Restorer.applyIn, Plan.isEmpty, List.isEmpty_eq_false_iff.2 filled]
  rfl

/-- Whether a dry run says what a forced run does, whatever the order of the
groups. -/
def Restorer.Foresees (s : Restorer) (clock : Item → Reading) (p : Plan) (o : Options)
    (r : Repository) : Prop :=
  ∀ gs, gs.Perm (groups p) → ∃ dry report r',
    s.applyIn gs clock p { o with dryRun := true } r = (.ok dry, r) ∧
    s.applyIn gs clock p { o with dryRun := false, force := true } r = (.ok report, r') ∧
    report.Fulfils dry

theorem targets_perm (perm : gs.Perm (groups p)) :
    ((runItems s clock gs.flatten r).1.map Prod.fst).Perm (p.restoring.map Item.target) := by
  rw [runItems_targets]
  exact (perm.flatten.trans (groups_perm p)).map _

/-- A run that the dry run foresees restores every item, whatever their order. -/
theorem Restorer.Foresees.restores (foresees : s.Foresees clock p o r) (filled : p.items ≠ [])
    (apart : p.restoring.Pairwise fun i j => i.target.same j.target = false)
    (perm : is.Perm p.restoring) : ∀ x ∈ (runItems s clock is r).1, x.2.IsRestored := by
  obtain ⟨gs, permG, rfl⟩ := exists_groups apart perm
  obtain ⟨dry, report, r', dryRun, real, fulfils⟩ := foresees gs permG
  rw [applyIn_forced filled] at real
  obtain rfl := Except.ok.inj (Prod.mk.inj real).1
  obtain rfl := Except.ok.inj (Prod.mk.inj dryRun).1
  exact (fulfils_iff (targets_perm permG)).1 fulfils

include grounded keeps distinct planned away times in
/-- Items of a plan that are clear of each other are all restored, in every
order. -/
theorem runItems_restoring (early : ∀ i, (clock i).late = false)
    (goes : ∀ i ∈ p.restoring, i.Goes s.root r.tree)
    (clear : ∀ i ∈ p.restoring, ∀ j ∈ p.restoring, i ≠ j → j.ClearOf s.root r.tree i)
    (members : is.Perm p.restoring) :
    (runItems s clock is r).1 = (is.map fun i => (i.target, .restored none)) ∧
      ∃ es', Ledger.markEach? (is.map fun i => (i.target, (clock i).now)) es = some es' ∧
        Underway k r.tree is (runItems s clock is r).2 es' := by
  obtain ⟨active, apart⟩ := restoring_active (k.active keeps) planned distinct
  have owned : ∀ l, k.own l → r.tree.get? l ≠ none := by
    intro l own
    obtain ⟨mode, bytes, held⟩ := k.held grounded keeps own
    simp [held]
  have clear' : is.Pairwise fun i j =>
      j.ClearOf s.root r.tree i ∧ j.target.same i.target = false := by
    have order := (members.pairwise_iff fun h => Path.same_symm_false h).2 apart
    refine order.imp_of_mem fun {i j} hi hj other => ⟨?_, Path.same_symm_false other⟩
    refine clear i (members.mem_iff.1 hi) j (members.mem_iff.1 hj) ?_
    rintro rfl
    rw [Path.same_refl] at other
    exact Bool.noConfusion other
  exact runItems_clear grounded owned early times (.nil keeps grounded)
    (fun i hi => ⟨goes i (members.mem_iff.1 hi), away i (members.mem_iff.1 hi) _
      ((goes i (members.mem_iff.1 hi)).source grounded).1⟩)
    clear' (fun i hi => active i (members.mem_iff.1 hi))

include grounded keeps distinct planned away times in
/-- A dry run foresees what becomes of items that are clear of each other. -/
theorem Restorer.foresees_of_clear (early : ∀ i, (clock i).late = false) (filled : p.items ≠ [])
    (goes : ∀ i ∈ p.restoring, i.Goes s.root r.tree)
    (clear : ∀ i ∈ p.restoring, ∀ j ∈ p.restoring, i ≠ j → j.ClearOf s.root r.tree i) :
    s.Foresees clock p o r := by
  intro gs perm
  obtain ⟨restored, -⟩ := runItems_restoring k grounded keeps distinct planned away times early goes
    clear (perm.flatten.trans (groups_perm p))
  refine ⟨_, _, _, rfl, applyIn_forced filled, (fulfils_iff (targets_perm perm)).2 ?_⟩
  rw [restored]
  intro x hx
  obtain ⟨i, -, rfl⟩ := List.mem_map.1 hx
  exact ⟨none, rfl⟩

include grounded copies in
/-- Where the folders of the scripts are still there and no two items share a place
or a copy, the items can be carried out and are clear of each other. -/
theorem clear_of_folders
    (folders : ∀ i ∈ p.restoring, Tree.endsWithSlash (s.root.join i.target).text = false ∧
      ∃ l name, r.tree.spot false false (s.root.join i.target) = .ok (.vacant l name))
    (apart : ∀ i ∈ p.restoring, ∀ j ∈ p.restoring, i ≠ j →
      r.tree.placeOf? false (s.root.join i.entry.archive) ≠
        r.tree.placeOf? false (s.root.join j.entry.archive) ∧
      r.tree.placeOf? false (s.root.join i.target) ≠ r.tree.placeOf? false (s.root.join j.target)) :
    (∀ i ∈ p.restoring, i.Goes s.root r.tree) ∧
      ∀ i ∈ p.restoring, ∀ j ∈ p.restoring, i ≠ j → j.ClearOf s.root r.tree i := by
  have goes {i : Item} (hi : i ∈ p.restoring) :
      i.Goes s.root r.tree ∧ i.opened s.root r.tree = r.tree := by
    obtain ⟨slash, l, name, vacant⟩ := folders i hi
    exact Item.goes_of_vacant (copies i hi) vacant slash
  refine ⟨fun i hi => (goes hi).1, fun i hi j hj differ => ?_⟩
  obtain ⟨goesI, openedI⟩ := goes hi
  obtain ⟨goesJ, openedJ⟩ := goes hj
  obtain ⟨sourceI, -⟩ := goesI.source grounded
  obtain ⟨sourceJ, -⟩ := goesJ.source grounded
  obtain ⟨-, -, -, -, -, -, freeI⟩ := goesI.place grounded
  obtain ⟨-, -, -, -, -, -, freeJ⟩ := goesJ.place grounded
  obtain ⟨source, place⟩ := apart i hi j hj differ
  refine ⟨fun same => source ?_, fun same => place ?_, ?_, ?_⟩
  · rw [sourceI, sourceJ, same]
  · obtain ⟨-, li, ni, vacantI⟩ := folders i hi
    obtain ⟨-, lj, nj, vacantJ⟩ := folders j hj
    have placeI := Tree.placeOf?_eq_some.2 ⟨_, vacantI, rfl⟩
    have placeJ := Tree.placeOf?_eq_some.2 ⟨_, vacantJ, rfl⟩
    rw [Item.place, Item.place, openedI, openedJ, placeI, placeJ] at same
    rw [placeI, placeJ]
    exact congrArg some same.symm
  · rw [openedJ, freeI]
    simp
  · rw [openedI, freeJ]
    simp

include grounded keeps distinct planned copies away times in
/-- **A dry run foresees the real run where the folders of the scripts are still
there** and no two items share a place or a copy. -/
theorem Restorer.foresees_of_folders (early : ∀ i, (clock i).late = false) (filled : p.items ≠ [])
    (folders : ∀ i ∈ p.restoring, Tree.endsWithSlash (s.root.join i.target).text = false ∧
      ∃ l name, r.tree.spot false false (s.root.join i.target) = .ok (.vacant l name))
    (apart : ∀ i ∈ p.restoring, ∀ j ∈ p.restoring, i ≠ j →
      r.tree.placeOf? false (s.root.join i.entry.archive) ≠
        r.tree.placeOf? false (s.root.join j.entry.archive) ∧
      r.tree.placeOf? false (s.root.join i.target) ≠ r.tree.placeOf? false (s.root.join j.target)) :
    s.Foresees clock p o r := by
  obtain ⟨goes, clear⟩ := clear_of_folders grounded copies folders apart
  exact foresees_of_clear k grounded keeps distinct planned away times early filled goes clear

include grounded keeps distinct planned copies away times in
/-- **A dry run foresees the real run if and only if each item can be restored by
itself and after any one other**, and there is an item. -/
theorem Restorer.foresees_iff (early : ∀ i, (clock i).late = false) :
    s.Foresees clock p o r ↔ p.items ≠ [] ∧
      (∀ i ∈ p.restoring, (runItem s (clock i).now false i r).1.IsRestored) ∧
      ∀ i ∈ p.restoring, ∀ j ∈ p.restoring, i ≠ j →
        (runItem s (clock j).now false j
          (runItem s (clock i).now false i r).2).1.IsRestored := by
  obtain ⟨-, apart⟩ := restoring_active (k.active keeps) planned distinct
  constructor
  · intro foresees
    have filled : p.items ≠ [] := by
      intro empty
      obtain ⟨-, report, r', -, real, -⟩ := foresees _ .rfl
      simp [applyIn, Plan.isEmpty, empty] at real
    refine ⟨filled, fun i hi => ?_, fun i hi j hj differ => ?_⟩
    · have first := foresees.restores filled apart (List.perm_cons_erase hi).symm
      simp only [runItems, early] at first
      exact first _ List.mem_cons_self
    · have hj' : j ∈ p.restoring.erase i := (List.mem_erase_of_ne differ.symm).2 hj
      have second := foresees.restores filled apart
        (((List.perm_cons_erase hj').cons i).symm.trans (List.perm_cons_erase hi).symm)
      simp only [runItems, early] at second
      exact second _ (List.mem_cons_of_mem _ List.mem_cons_self)
  · rintro ⟨filled, alone, after⟩
    have goes : ∀ i ∈ p.restoring, i.Goes s.root r.tree := fun i hi =>
      goes_of_restored grounded copies hi (alone i hi)
    exact foresees_of_clear k grounded keeps distinct planned away times early filled goes
      fun i hi j hj differ => clearOf_of_restored k grounded keeps distinct planned away times hi
        (goes i hi) (goes j hj) (after i hi j hj differ)

end

def barredEntry : Entry :=
  .fresh ⟨"b/x"⟩ ⟨"z/x.2025-06-01"⟩ "b1" ⟨⟨2025, 6, 1⟩, 0, 0⟩ ""

def barredRestorer : Restorer := ⟨⟨"/r"⟩, [], .memory⟩

/-- There is a file where the script needs a folder. -/
def barredRepository : Repository where
  tree := ⟨[(["r"], .folder), (["r", "b"], .file 0o644 "y".toByteArray), (["r", "z"], .folder),
    (["r", "z", "x.2025-06-01"], .file 0o644 "x".toByteArray)]⟩
  entries := [barredEntry]

def barredPlan : Plan := ⟨.batch "b1", [planItem barredRepository.tree ⟨"/r"⟩ barredEntry]⟩

def barredReading : Reading := ⟨⟨⟨2025, 6, 2⟩, 0, 0⟩, false⟩

/-- A dry run lists a script whose folder is taken by a file. The real run skips
it. -/
theorem foresees_iff_barred : ∃ dry report r',
    barredRestorer.plan (.batch "b1") barredRepository = .ok barredPlan ∧
    barredRestorer.applyIn (groups barredPlan) (fun _ => barredReading) barredPlan
      { Options.standard with dryRun := true } barredRepository = (.ok dry, barredRepository) ∧
    dry.wouldRestore = [⟨"b/x"⟩] ∧ dry.skipped = [] ∧
    barredRestorer.applyIn (groups barredPlan) (fun _ => barredReading) barredPlan
      { Options.standard with dryRun := false, force := true } barredRepository =
        (.ok report, r') ∧
    report.restored = [] ∧ report.skipped = [⟨⟨"b/x"⟩, .conflict⟩] ∧
    ¬ barredRestorer.Foresees (fun _ => barredReading) barredPlan .standard barredRepository := by
  have restoring : barredPlan.restoring = barredPlan.items := by decide +kernel
  have grouped : groups barredPlan = [barredPlan.items] := by
    rw [groups, Order.sortBy_of_sorted (by decide +kernel)]
    decide +kernel
  have planned : barredRestorer.plan (.batch "b1") barredRepository = .ok barredPlan := by
    have selected : barredRestorer.select (.batch "b1") barredRepository = .ok [barredEntry] := by
      decide +kernel
    rw [Restorer.plan, selected]
    simp only [Order.sortBy_of_sorted (List.pairwise_singleton _ _)]
    rfl
  have skipped : (runItem barredRestorer barredReading.now false
      (planItem barredRepository.tree ⟨"/r"⟩ barredEntry) barredRepository).1 =
        .skipped .conflict := by decide +kernel
  have grounded : barredRepository.tree.Grounded :=
    Tree.WellFormed.grounded ⟨by decide, by decide, by decide +kernel⟩
  have copies : ∀ i ∈ barredPlan.restoring, ∃ mode bytes,
      barredRepository.tree.lookPlain (barredRestorer.root.join i.entry.archive) =
        .ok (.file mode bytes) := by
    intro i hi
    rw [restoring] at hi
    rw [List.mem_singleton.1 hi]
    exact ⟨0o644, "x".toByteArray, by decide +kernel⟩
  have foresees : barredRestorer.Foresees (fun _ => barredReading) barredPlan .standard
      barredRepository ↔ _ :=
    Restorer.foresees_iff .memory grounded rfl (List.pairwise_singleton _ _) planned copies
      (fun _ _ _ _ => id) (fun _ => by decide) (fun _ => rfl)
  have done : (runItems barredRestorer (fun _ => barredReading) (groups barredPlan).flatten
      barredRepository).1 = [(⟨"b/x"⟩, .skipped .conflict)] := by
    rw [grouped]
    decide +kernel
  refine ⟨_, _, _, planned, rfl, ?_, by decide +kernel,
    Restorer.applyIn_forced (List.cons_ne_nil _ _), ?_, ?_, fun all => ?_⟩
  · rw [Report.dry, grouped]
    decide +kernel
  · rw [done]
    decide +kernel
  · rw [done]
    exact Order.sortBy_of_sorted (List.pairwise_singleton _ _)
  · have here : planItem barredRepository.tree ⟨"/r"⟩ barredEntry ∈ barredPlan.restoring := by
      rw [restoring]
      exact List.mem_singleton_self _
    obtain ⟨w, restored⟩ := (foresees.1 all).2.1 _ here
    simp [skipped] at restored

end Restore
end Attic
