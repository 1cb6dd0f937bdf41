import Attic.Archive
import Attic.Proofs.Ledger.Holder
import Attic.Proofs.Ledger.Ranks
import Attic.Proofs.Restore.Endings
import Attic.Proofs.Restore.Items
import Attic.Proofs.Restore.Planning
import Mathlib

/-!
# The entries that a plan touches

A plan is made of entries, but the ledger is asked to mark the active entry of a
path. Between the two anything may have happened: a script may have been
restored and archived again, so that its path stands for another entry than the
one the plan was made of. What a run does to the ledger therefore depends on its
report only: of each path the first active entries are marked, as many as times
the path was restored. They are entries of the plan only as far as those are.

Key definitions: `Restore.Followed`, `Restore.Plan.Lists`.
Key theorems: `Restore.Restorer.applyIn_marks`,
`Restore.Restorer.applyIn_touches_own_iff`, `Restore.Restorer.applyIn_spares`.
-/

namespace Attic
namespace Restore

open Ledger (Entry Keeper Holder Due)

/-- How the ledger can be followed through runs on a repository: an item that is
restored marks the first active entry of its path, and any other item leaves the
entries as they are. -/
structure Followed (s : Restorer) where
  /-- Whether the ledger of a repository has these entries. -/
  keeps : Repository → List Entry → Prop
  /-- The items that may be run. -/
  fit : Item → Prop
  active : ∀ {r es}, keeps r es → s.store.active r = .ok (es.filter Entry.isActive)
  step : ∀ {r es i now}, keeps r es → fit i → now.isValid = true → ∀ late,
    (∀ w, (runItem s now late i r).1 ≠ .restored w) ∧ keeps (runItem s now late i r).2 es ∨
    ∃ w es', (runItem s now late i r).1 = .restored w ∧
      Ledger.markFirst? i.target now es = some es' ∧ keeps (runItem s now late i r).2 es'

variable {s : Restorer} {r r' : Repository} {es es' : List Entry} {clock : Item → Reading}
variable {p : Plan} {o : Options} {gs : List (List Item)} {report : Report} {n : Nat} {e : Entry}

/-! ### Ledgers that can be followed -/

/-- A ledger outside the tree can be followed in any tree and through any items. -/
def Followed.ofHolder (k : Holder s.store) : Followed s where
  keeps := k.holds
  fit _ := True
  active := k.active
  step := by
    intro r es i now holds _ _ late
    have ends := runItem_ends s now late i r
    generalize (runItem s now late i r).1 = d at ends ⊢
    generalize (runItem s now late i r).2 = r' at ends ⊢
    cases ends with
    | late | missing => exact .inl ⟨by simp, holds⟩
    | conflict | blocked => exact .inl ⟨by simp, k.steady holds _⟩
    | @refused t _ _ _ _ marked =>
      rcases k.mark (k.steady holds t) i.target now with ⟨f, r₁, refused, holds₁⟩ |
        ⟨es', r₁, -, done, -⟩
      · obtain ⟨-, rfl⟩ := Prod.mk.inj (marked.symm.trans refused)
        exact .inl ⟨by simp, k.steady holds₁ _⟩
      · exact absurd (Prod.mk.inj (marked.symm.trans done)).1 (by simp)
    | @restored t _ _ _ _ marked =>
      rcases k.mark (k.steady holds t) i.target now with ⟨f, r₁, refused, -⟩ |
        ⟨es', r₁, first, done, holds₁⟩
      · exact absurd (Prod.mk.inj (marked.symm.trans refused)).1 (by simp)
      · obtain ⟨-, rfl⟩ := Prod.mk.inj (marked.symm.trans done)
        exact .inr ⟨_, es', rfl, first, k.steady holds₁ _⟩

/-- A ledger that a store keeps in files of a tree without links can be followed
through items that stay off those files. -/
def Followed.ofKeeper (k : Keeper s.store) (base : Location) : Followed s where
  keeps := Follows k base
  fit := Item.Fit k.own base
  active h := k.active h.keeps
  step := by
    intro r es i now follows fit valid late
    rcases runItem_effect fit valid late follows with ⟨outcome, follows', -⟩ |
      ⟨es', outcome, follows', restores⟩
    · exact .inl ⟨outcome, follows'⟩
    · exact .inr ⟨none, es', outcome, restores.marked, follows'⟩

/-! ### Runs -/

/-- A run makes one mark for each item that it restores, in their order. -/
theorem runItems_marks (l : Followed s) (times : ∀ i, (clock i).now.isValid = true) :
    ∀ {is : List Item} {r : Repository} {es : List Entry}, l.keeps r es →
      (∀ i ∈ is, l.fit i) → ∃ (js : List Item) (es' : List Entry),
        (∀ i ∈ js, i ∈ is) ∧ l.keeps (runItems s clock is r).2 es' ∧
        restoredPaths (runItems s clock is r).1 = js.map Item.target ∧
        Ledger.markEach? (js.map fun i => (i.target, (clock i).now)) es = some es'
  | [], r, es, keeps, _ => ⟨[], es, by simp, keeps, rfl, rfl⟩
  | i :: is, r, es, keeps, fits => by
    have fits' : ∀ j ∈ is, l.fit j := fun j hj => fits j (List.mem_cons_of_mem _ hj)
    rcases l.step keeps (fits i List.mem_cons_self) (times i) (clock i).late with
      ⟨outcome, keeps₁⟩ | ⟨w, es₁, outcome, marked, keeps₁⟩
    · obtain ⟨js, es', inside, keeps', paths, marks⟩ := runItems_marks l times keeps₁ fits'
      refine ⟨js, es', fun j hj => List.mem_cons_of_mem _ (inside j hj), keeps', ?_, marks⟩
      rw [runItems, restoredPaths_of_ne outcome, paths]
    · obtain ⟨js, es', inside, keeps', paths, marks⟩ := runItems_marks l times keeps₁ fits'
      refine ⟨i :: js, es', List.forall_mem_cons.2
        ⟨List.mem_cons_self, fun j hj => List.mem_cons_of_mem _ (inside j hj)⟩, keeps', ?_, ?_⟩
      · rw [runItems, restoredPaths_of_restored ⟨w, outcome⟩, paths, List.map_cons]
      · rw [List.map_cons, Ledger.markEach?, marked, Option.bind_some, marks]

/-- **What a run does to the ledger**: of each path the first active entries are
marked, as many as times the report has the path as restored, and every other
entry stays as it is. The plan may have been made at any time before. -/
theorem Restorer.applyIn_marks (l : Followed s) (times : ∀ i, (clock i).now.isValid = true)
    (keeps : l.keeps r es) (fits : ∀ i ∈ p.restoring, l.fit i) (perm : gs.Perm (groups p))
    (run : s.applyIn gs clock p o r = (.ok report, r')) :
    ∃ es', l.keeps r' es' ∧ es'.length = es.length ∧
      (∀ n e, Due report.restored es n e → ∃ i ∈ p.restoring, e.isActiveOf i.target = true ∧
        es'[n]? = some (e.restore (clock i).now)) ∧
      ∀ n e, es[n]? = some e → ¬ Due report.restored es n e → es'[n]? = some e := by
  unfold Restorer.applyIn at run
  split at run
  · obtain ⟨e, rfl⟩ := Prod.mk.inj run
    obtain rfl := Except.ok.inj e
    exact ⟨es, keeps, rfl, fun n e due => absurd due.first (by simp [Report.dry]),
      fun n e there _ => there⟩
  split at run
  · simp at run
  split at run
  · simp at run
  obtain ⟨e, rfl⟩ := Prod.mk.inj run
  obtain rfl := Except.ok.inj e
  have mem {i : Item} : i ∈ gs.flatten ↔ i ∈ p.restoring :=
    (perm.flatten.trans (groups_perm p)).mem_iff
  obtain ⟨js, es', inside, keeps', paths, marks⟩ :=
    runItems_marks l times keeps fun i hi => fits i (mem.1 hi)
  have restored : (Report.of p (runItems s clock gs.flatten r).1).restored.Perm
      ((js.map fun i => (i.target, (clock i).now)).map Prod.fst) := by
    rw [List.map_map]
    exact paths ▸ restored_perm p _
  refine ⟨es', keeps', Ledger.markEach?_length marks, fun n e due => ?_, fun n e there idle => ?_⟩
  · obtain ⟨m, hm, same, marked⟩ :=
      (Ledger.markEach?_getElem? marks due.there).1 (due.perm restored)
    obtain ⟨i, hi, rfl⟩ := List.mem_map.1 hm
    exact ⟨i, mem.1 (inside i hi), by simp [Entry.isActiveOf, due.active, same], marked⟩
  · exact (Ledger.markEach?_getElem? marks there).2 fun due => idle (due.perm restored.symm)

/-! ### The entries of the plan -/

/-- Whether an entry is one that the plan was made of: an item has its path, its
batch, and its time. -/
def Plan.Lists (p : Plan) (e : Entry) : Prop :=
  ∃ i ∈ p.items, i.entry.original.same e.original = true ∧ i.entry.batch = e.batch ∧
    i.entry.archivedAt = e.archivedAt

/-- **A run touches entries of its plan only if the first active entries of the
restored paths are such**: only entries of restored paths change, from active to
restored, and all those that change are entries of the plan if and only if, of
each restored path, as many of the first active entries as times it was restored
are. The plan may have been made in any state of the repository. -/
theorem Restorer.applyIn_touches_own_iff (l : Followed s)
    (times : ∀ i, (clock i).now.isValid = true) (keeps : l.keeps r es)
    (fits : ∀ i ∈ p.restoring, l.fit i) (perm : gs.Perm (groups p))
    (run : s.applyIn gs clock p o r = (.ok report, r')) :
    ∃ es', l.keeps r' es' ∧ es'.length = es.length ∧
      (∀ n e, es[n]? = some e → es'[n]? ≠ some e → Due report.restored es n e ∧
        ∃ i ∈ p.restoring, e.isActiveOf i.target = true ∧
          es'[n]? = some (e.restore (clock i).now)) ∧
      ((∀ (n : Nat) (e e' : Entry), es[n]? = some e → es'[n]? = some e' →
          e'.status ≠ e.status → p.Lists e) ↔
        ∀ n e, Due report.restored es n e → p.Lists e) := by
  obtain ⟨es', keeps', length, marked, others⟩ := applyIn_marks l times keeps fits perm run
  refine ⟨es', keeps', length, fun n e there changed => ?_, fun own n e due => ?_,
    fun own n e e' there there' changed => ?_⟩
  · have due : Due report.restored es n e := by
      by_contra idle
      exact changed (others n e there idle)
    exact ⟨due, marked n e due⟩
  · obtain ⟨i, -, active, there'⟩ := marked n e due
    refine own n e _ due.there there' fun same => ?_
    have still := due.active
    rw [Entry.isActive, ← same] at still
    simp [Entry.restore] at still
  · by_contra other
    have idle : ¬ Due report.restored es n e := fun due => other (own n e due)
    rw [others n e there idle] at there'
    exact changed (Option.some.inj there' ▸ rfl)

def againEntry (batch : String) (day : Nat) : Entry :=
  .fresh ⟨"a"⟩ ⟨"z/a.2025-06-01"⟩ batch ⟨⟨2025, 6, 1⟩, day, 0⟩ ""

def againTree : Tree :=
  ⟨[(["r"], .folder), (["r", "z"], .folder),
    (["r", "z", "a.2025-06-01"], .file 0o644 "x".toByteArray)]⟩

def againRestorer : Restorer := ⟨⟨"/r"⟩, [], .memory⟩

def againPlan : Plan := ⟨.batch "b1", [planItem againTree ⟨"/r"⟩ (againEntry "b1" 0)]⟩

def againOptions : Options := ⟨false, false, some againPlan.token, false⟩

def againRequest : Archive.Request := ⟨⟨"/r"⟩, "z", "", "b2", ⟨⟨2025, 6, 1⟩, 2, 0⟩⟩

/-- The repository after the script was restored. -/
def againRestored : Repository :=
  (runItems againRestorer (fun _ => ⟨⟨⟨2025, 6, 1⟩, 1, 0⟩, false⟩) againPlan.items
    ⟨againTree, [againEntry "b1" 0]⟩).2

/-- The repository after the script was archived again. -/
def againRepository : Repository :=
  ⟨againTree, [(againEntry "b1" 0).restore ⟨⟨2025, 6, 1⟩, 1, 0⟩, againEntry "b2" 2]⟩

/-- A script is archived, restored and archived again on one day. The plan of its
first batch, carried out once more with its token, marks the entry of the second. -/
theorem applyIn_touches_own_iff_again : ∃ report₁ r₁ out r₂ report r',
    againRestorer.plan (.batch "b1") ⟨againTree, [againEntry "b1" 0]⟩ = .ok againPlan ∧
    againRestorer.apply ⟨⟨2025, 6, 1⟩, 1, 0⟩ againPlan againOptions
      ⟨againTree, [againEntry "b1" 0]⟩ = (.ok report₁, r₁) ∧
    Archive.archive againRequest .memory [⟨"a"⟩] false r₁ = (.ok out, r₂) ∧
    againRestorer.apply ⟨⟨2025, 6, 1⟩, 3, 0⟩ againPlan againOptions r₂ = (.ok report, r') ∧
    report.restored = [⟨"a"⟩] ∧
    ∃ (n : Nat) (e e' : Entry), r₂.entries[n]? = some e ∧ r'.entries[n]? = some e' ∧
      e'.status ≠ e.status ∧ ¬ againPlan.Lists e := by
  have grouped : groups againPlan = [againPlan.items] := by
    have sorted : Order.sortBy targetBefore (againPlan.items.filter fun i => i.action = .restore) =
        againPlan.items.filter fun i => i.action = .restore :=
      Order.sortBy_of_sorted (by decide +kernel)
    rw [groups, sorted]
    decide +kernel
  have planned :
      againRestorer.plan (.batch "b1") ⟨againTree, [againEntry "b1" 0]⟩ = .ok againPlan := by
    have sorted : Order.sortBy entryBefore [againEntry "b1" 0] = [againEntry "b1" 0] :=
      Order.sortBy_of_sorted (by simp)
    have selected : againRestorer.select (.batch "b1") ⟨againTree, [againEntry "b1" 0]⟩ =
        .ok [againEntry "b1" 0] := by decide +kernel
    rw [Restorer.plan, selected]
    simp only [sorted]
    rfl
  have applied (now : Timestamp) (r : Repository) :
      againRestorer.applyIn (groups againPlan) (fun _ => ⟨now, false⟩) againPlan againOptions r =
        (.ok (.of againPlan (runItems againRestorer (fun _ => ⟨now, false⟩) againPlan.items r).1),
          (runItems againRestorer (fun _ => ⟨now, false⟩) againPlan.items r).2) := by
    rw [Restorer.applyIn, grouped]
    simp [againOptions, Plan.isEmpty, againPlan]
  have archived : Archive.archive againRequest .memory [⟨"a"⟩] false againRestored =
      (.ok ⟨"b2", false, [againEntry "b2" 2]⟩, againRepository) := by decide +kernel
  have restored : (Report.of againPlan (runItems againRestorer
      (fun _ => ⟨⟨⟨2025, 6, 1⟩, 3, 0⟩, false⟩) againPlan.items againRepository).1).restored =
        [⟨"a"⟩] :=
    Order.sortBy_of_sorted (by decide +kernel)
  have ledger : (Followed.ofHolder (s := againRestorer) .memory).keeps againRepository
      againRepository.entries := rfl
  obtain ⟨es', keeps, -, -, own⟩ := Restorer.applyIn_touches_own_iff
    (.ofHolder .memory) (fun _ => by decide) ledger (fun _ _ => trivial) .rfl
    (applied ⟨⟨2025, 6, 1⟩, 3, 0⟩ againRepository)
  have foreign : ¬ againPlan.Lists (againEntry "b2" 2) := by
    rintro ⟨i, hi, -, batch, -⟩
    rw [List.mem_singleton.1 hi] at batch
    revert batch
    decide +kernel
  have due : Ledger.Due [⟨"a"⟩] againRepository.entries 1 (againEntry "b2" 2) :=
    ⟨rfl, rfl, by decide +kernel⟩
  have touched : ¬ ∀ (n : Nat) (e e' : Entry), againRepository.entries[n]? = some e →
      es'[n]? = some e' → e'.status ≠ e.status → againPlan.Lists e :=
    fun all => foreign (own.1 all 1 _ (restored ▸ due))
  push Not at touched
  exact ⟨_, _, _, _, _, _, planned, applied _ _, archived, applied _ _, restored, keeps ▸ touched⟩

/-- A plan's run leaves every other entry alone in a ledger that has one active
entry at most for a path, as long as each path to be restored still has its
entry. -/
theorem Restorer.applyIn_spares (l : Followed s) (times : ∀ i, (clock i).now.isValid = true)
    (keeps : l.keeps r es) (fits : ∀ i ∈ p.restoring, l.fit i) (perm : gs.Perm (groups p))
    (single : Ledger.Single es)
    (still : ∀ i ∈ p.restoring, ∃ d ∈ es, d.isActiveOf i.target = true ∧ p.Lists d)
    (run : s.applyIn gs clock p o r = (.ok report, r')) :
    ∃ es', l.keeps r' es' ∧ ∀ (n : Nat) (e : Entry), es[n]? = some e → ¬ p.Lists e →
      es'[n]? = some e := by
  obtain ⟨es', keeps', -, marked, others⟩ := applyIn_marks l times keeps fits perm run
  refine ⟨es', keeps', fun n e there other => others n e there fun due => other ?_⟩
  obtain ⟨i, hi, active, -⟩ := marked n e due
  obtain ⟨d, inside, active', own⟩ := still i hi
  obtain ⟨m, thereD⟩ := List.getElem?_of_mem inside
  obtain rfl := single n m e d i.target there thereD active active'
  rwa [Option.some.inj (there.symm.trans thereD)]

end Restore
end Attic
