import Attic.Proofs.Restore.Planning
import Attic.Proofs.Restore.Runs
import Mathlib

/-!
# Agreement of the tree and the ledger

After a plan has been carried out the ledger says of each script what the tree
shows, whatever the ledger refused and in whatever order the groups ran.

Key definitions: `Restore.Clear`, `Restore.Item.IsBack`,
`Restore.Item.IsAway`.
Key theorem: `Restore.Restorer.applyIn_agrees`.
-/

namespace Attic

namespace Restore

open Ledger (Entry Keeper Tidy)

variable {s : Restorer} {k : Keeper s.store} {base : Location} {clock : Item → Reading}
variable {r r' : Repository} {es es' : List Entry} {e e' : Entry} {now : Timestamp} {i j : Item}
variable {c : Criteria} {p : Plan} {o : Options} {order : List (List Item)} {report : Report}

/-- Active entries do not have the places of the ledger's own files. -/
def Clear (k : Keeper s.store) (t : Tree) (es : List Entry) : Prop :=
  ∀ base, t.reach [] (Tree.steps s.root.text) = some base → ∀ e ∈ es, e.isActive = true →
    ¬ k.own (Tree.placeBelow base e.original) ∧ ¬ k.own (Tree.placeBelow base e.archive)

/-- A script that is back: its entry, which was active, is marked as restored, and
its file has the bytes of the archived copy. -/
structure Item.IsBack (root : Path) (now : Timestamp) (i : Item) (t t' : Tree)
    (es es' : List Entry) : Prop where
  active : i.entry.isActive = true
  entry : ∃ n : Nat, es[n]? = some i.entry ∧ es'[n]? = some (i.entry.restore now)
  file : ∃ mode bytes, t.readFile (root.join i.entry.archive) = .ok (mode, bytes) ∧
    t'.readFile (root.join i.target) = .ok (Tree.copyMode i.executable mode, bytes)

/-- A script whose entry, which was active, has stayed as it was. -/
structure Item.Unmarked (i : Item) (es es' : List Entry) : Prop where
  active : i.entry.isActive = true
  entry : ∃ n : Nat, es[n]? = some i.entry ∧ es'[n]? = some i.entry

/-- A script that is still away: its entry and its archived copy are as before,
and no file is at its place. -/
structure Item.IsAway (root : Path) (i : Item) (t t' : Tree) (es es' : List Entry) : Prop
    extends i.Unmarked es es' where
  target : t'.isFile (root.join i.target) = false
  copy : ∃ file, t.readFile (root.join i.entry.archive) = .ok file ∧
    t'.readFile (root.join i.entry.archive) = .ok file

/-! ### Items of a plan -/

/-- Where an item was planned there is a file, and nothing at its place. -/
theorem Item.Ready.differ {t : Tree} {root : Path} (plain : t.Plain) (ready : i.Ready t root)
    (normal : j.entry.archive.IsNormal) (copy : t.isFile (root.join j.entry.archive) = true) :
    i.target ≠ j.entry.archive := by
  intro e
  obtain ⟨base, rooted⟩ := Tree.reach_root plain normal copy
  obtain ⟨f, free⟩ := ready.free
  obtain ⟨o, there⟩ := Tree.lookPlain_of_isFile plain rooted normal copy
  rw [e, there] at free
  simp at free

/-- Nothing is at the place of an item, so no file is. -/
theorem Item.Ready.vacant {t : Tree} {root : Path} (plain : t.Plain)
    (rooted : t.reach [] (Tree.steps root.text) = some base) (ready : i.Ready t root)
    (nameable : Tree.Nameable root i.target) (mode : Nat) (bytes : ByteArray) :
    t.get? (Tree.placeBelow base i.target) ≠ some (.file mode bytes) := by
  intro there
  obtain ⟨f, free⟩ := ready.free
  have file := (Tree.isFile_normal plain rooted nameable.normal).2 ⟨nameable, mode, bytes, there⟩
  obtain ⟨o, there⟩ := Tree.lookPlain_of_isFile plain rooted nameable.normal file
  rw [there] at free
  simp at free

section

variable (active : s.store.active r = .ok (es.filter Entry.isActive))
variable (planned : s.plan c r = .ok p)

include active planned

theorem mem_items (h : i ∈ p.items) : i.entry ∈ es ∧ i.entry.isActive = true ∧
    i = planItem r.tree s.root i.entry := by
  obtain ⟨chosen, sub, perm⟩ := plan_items active planned
  obtain ⟨e, he, rfl⟩ := List.mem_map.1 (perm.mem_iff.1 h)
  obtain ⟨mem, active⟩ := List.mem_filter.1 (sub.subset he)
  rw [planItem_entry]
  exact ⟨mem, active, rfl⟩

theorem mem_restoring_ready (h : i ∈ p.restoring) : i.Ready r.tree s.root := by
  obtain ⟨hi, action⟩ := mem_restoring.1 h
  obtain ⟨-, -, e⟩ := mem_items active planned hi
  rw [e] at action ⊢
  exact planItem_ready action

theorem items_unlike (tidy : Tidy es) :
    p.items.Pairwise fun i j => i.entry.Unlike j.entry := by
  obtain ⟨chosen, sub, perm⟩ := plan_items active planned
  refine (perm.pairwise_iff fun h => ⟨h.1.symm, h.2.symm⟩).2 ?_
  rw [List.pairwise_map]
  simp only [planItem_entry]
  exact tidy.distinct.sublist sub

variable (plain : r.tree.Plain) (tidy : Tidy es)

include plain tidy

theorem restoring_fit (rooted : r.tree.reach [] (Tree.steps s.root.text) = some base)
    (clear : Clear k r.tree es) (h : i ∈ p.restoring) : i.Fit k.own base := by
  obtain ⟨mem, away, -⟩ := mem_items active planned (mem_restoring.1 h).1
  have ready := mem_restoring_ready active planned h
  have normal := tidy.archives _ mem away
  obtain ⟨target, archive⟩ := clear base rooted _ mem away
  exact ⟨tidy.originals _ mem away, normal, ready.differ plain normal ready.copy, target, archive⟩

theorem restoring_apart : p.restoring.Pairwise Item.Apart := by
  refine ((items_unlike active planned tidy).filter _).imp_of_mem ?_
  intro i j hi hj unlike
  have normal {i : Item} (h : i ∈ p.restoring) : i.entry.archive.IsNormal := by
    obtain ⟨mem, away, -⟩ := mem_items active planned (mem_restoring.1 h).1
    exact tidy.archives _ mem away
  have ready := mem_restoring_ready active planned hi
  have ready' := mem_restoring_ready active planned hj
  exact ⟨unlike.1, unlike.2, ready.differ plain (normal hj) ready'.copy,
    ready'.differ plain (normal hi) ready.copy⟩

end

/-! ### What the tree and the ledger show -/

/-- What a run makes of an item, by the paths of its files. -/
theorem Outcome.agrees {d : Done} {t t' : Tree} (plain : t.Plain)
    (plain' : t'.Plain) (rooted : t.reach [] (Tree.steps s.root.text) = some base)
    (rooted' : t'.reach [] (Tree.steps s.root.text) = some base) (tidy : Tidy es)
    (mem : i.entry ∈ es) (active : i.entry.isActive = true) (ready : i.Ready t s.root)
    (h : Outcome s.root base now i d t t' es es') :
    (∃ w, d = .restored w) ∧ i.IsBack s.root now t t' es es' ∨
      (∀ w, d ≠ .restored w) ∧ i.IsAway s.root t t' es es' := by
  have normal := tidy.archives _ mem active
  rcases h with ⟨rfl, back⟩ | ⟨outcome, kept⟩
  · obtain ⟨n, e, there, active', marked⟩ := back.entry
    obtain rfl := tidy.eq_of_isActiveOf (List.mem_of_getElem? there) mem active active'
    obtain ⟨mode, bytes, copy, file⟩ := back.file
    obtain ⟨archive, -⟩ := (Tree.isFile_normal plain rooted normal).1 ready.copy
    refine .inl ⟨⟨_, rfl⟩, active, ⟨n, there, marked⟩, mode, bytes, ?_, ?_⟩
    · exact (Tree.readFile_normal plain rooted normal).2 ⟨archive, copy⟩
    · exact (Tree.readFile_normal plain' rooted' back.nameable.normal).2 ⟨back.nameable, file⟩
  · obtain ⟨n, there⟩ := List.getElem?_of_mem mem
    have same := kept.entry n _ there (Ledger.isActiveOf_original active)
    obtain ⟨archive, mode, bytes, copy⟩ := (Tree.isFile_normal plain rooted normal).1 ready.copy
    refine .inr ⟨outcome, ⟨active, n, there, same⟩, ?_, (mode, bytes), ?_, ?_⟩
    · refine Bool.eq_false_iff.2 fun file => ?_
      obtain ⟨nameable, m, b, file⟩ :=
        (Tree.isFile_normal plain' rooted' (tidy.originals _ mem active)).1 file
      exact ready.vacant plain rooted nameable m b (kept.target m b file)
    · exact (Tree.readFile_normal plain rooted normal).2 ⟨archive, copy⟩
    · exact (Tree.readFile_normal plain' rooted' normal).2 ⟨archive, kept.copy mode bytes copy⟩

/-! ### Reports -/

section

variable {done : List (Path × Done)} {q : Path}

theorem mem_failed {x : Failed} (h : x ∈ (Report.of p done).failed) :
    ∃ y ∈ done, y.1 = x.path ∧ ∀ w, y.2 ≠ .restored w := by
  obtain ⟨⟨q', d⟩, mem, h⟩ := List.mem_filterMap.1 ((Order.mem_sortBy _ _).1 h)
  cases d with
  | restored w => simp at h
  | skipped reason => simp at h
  | failed fault =>
    obtain rfl := Option.some.inj h
    exact ⟨_, mem, rfl, by simp⟩

/-- Items are skipped by the plan or in the run. -/
theorem mem_skipped {x : Skipped} (h : x ∈ (Report.of p done).skipped) :
    (∃ i ∈ p.items, i.action ≠ .restore ∧ i.target = x.path) ∨
      ∃ y ∈ done, y.1 = x.path ∧ ∀ w, y.2 ≠ .restored w := by
  rcases List.mem_append.1 ((Order.mem_sortBy _ _).1 h) with h | h
  · left
    obtain ⟨i, mem, h⟩ := List.mem_filterMap.1 h
    refine ⟨i, mem, ?_⟩
    cases action : i.action <;> rw [action] at h
    · simp at h
    · obtain rfl := Option.some.inj h
      exact ⟨by simp, rfl⟩
    · obtain rfl := Option.some.inj h
      exact ⟨by simp, rfl⟩
  · right
    obtain ⟨⟨q', d⟩, mem, h⟩ := List.mem_filterMap.1 h
    cases d with
    | restored w => simp at h
    | skipped reason =>
      obtain rfl := Option.some.inj h
      exact ⟨_, mem, rfl, by simp⟩
    | failed fault => simp at h

end

/-! ### Runs of a plan -/

section

variable (plain : r.tree.Plain) (keeps : k.keeps r es) (tidy : Tidy es)
variable (clear : Clear k r.tree es) (planned : s.plan c r = .ok p)
variable (times : ∀ i, (clock i).now.isValid = true)

include plain keeps tidy clear planned times

/-- The items that restore, run in some order. -/
theorem runItems_agrees {is : List Item} (perm : is.Perm p.restoring) :
    ∃ es', k.keeps (runItems s clock is r).2 es' ∧ es'.length = es.length ∧
      (∀ (n : Nat) (e : Entry), es[n]? = some e → (∀ i ∈ is, i.entry ≠ e) → es'[n]? = some e) ∧
      ∀ x ∈ (runItems s clock is r).1, ∃ i ∈ is, i.target = x.1 ∧
        ((∃ w, x.2 = .restored w) ∧
          i.IsBack s.root (clock i).now r.tree (runItems s clock is r).2.tree es es' ∨
        (∀ w, x.2 ≠ .restored w) ∧
          i.IsAway s.root r.tree (runItems s clock is r).2.tree es es') := by
  have active := k.active keeps
  cases his : is with
  | nil => exact ⟨es, keeps, rfl, fun _ _ there _ => there, by simp [runItems]⟩
  | cons i₀ js =>
    rw [← his]
    have mem {i : Item} (hi : i ∈ is) := perm.mem_iff.1 hi
    have items {i : Item} (hi : i ∈ is) :=
      mem_items active planned (mem_restoring.1 (mem hi)).1
    have ready {i : Item} (hi : i ∈ is) := mem_restoring_ready active planned (mem hi)
    obtain ⟨base, rooted⟩ : ∃ base, r.tree.reach [] (Tree.steps s.root.text) = some base := by
      have first : i₀ ∈ is := by simp [his]
      obtain ⟨there, away, -⟩ := items first
      exact Tree.reach_root plain (tidy.archives _ there away) (ready first).copy
    have fits : ∀ i ∈ is, i.Fit k.own base := fun i hi =>
      restoring_fit active planned plain tidy rooted clear (mem hi)
    have apart : is.Pairwise Item.Apart :=
      (perm.pairwise_iff Item.Apart.symm).2 (restoring_apart active planned plain tidy)
    obtain ⟨es', after, frame, outcomes⟩ := runItems_effect times fits apart ⟨plain, rooted, keeps⟩
    refine ⟨es', after.keeps, frame.length, fun n e there other => ?_, fun x hx => ?_⟩
    · refine frame.entries n e there fun i hi => Bool.eq_false_iff.2 fun activeOf => ?_
      obtain ⟨inside, away, -⟩ := items hi
      exact other i hi
        (tidy.eq_of_isActiveOf (List.mem_of_getElem? there) inside away activeOf).symm
    · obtain ⟨i, hi, target, outcome⟩ := outcomes x hx
      obtain ⟨inside, away, -⟩ := items hi
      exact ⟨i, hi, target.symm, outcome.agrees plain after.plain rooted after.rooted tidy inside
        away (ready hi)⟩

end

def sampleEntry (name : String) : Entry :=
  .fresh ⟨name⟩ ⟨"z/" ++ name⟩ "b1" ⟨⟨2025, 6, 1⟩, 0, 0⟩ ""

def sampleLedger : List Entry := [sampleEntry "a", sampleEntry "b"]

def sampleTree : Tree :=
  ⟨[(["r"], .folder), (["r", "z"], .folder), (["r", "z", "a"], .file 0o644 "x".toByteArray),
    (["r", "z", "b"], .file 0o644 "y".toByteArray)]⟩

/-- The ledger refuses one of two marks. -/
def sampleRestorer : Restorer :=
  ⟨⟨"/r"⟩, [], Ledger.Store.refusing (fun p => p == ⟨"b"⟩) .memory⟩

def samplePlan : Plan := ⟨.batch "b1", sampleLedger.map (planItem sampleTree ⟨"/r"⟩)⟩

def sampleReading : Reading := ⟨⟨⟨2025, 6, 2⟩, 0, 0⟩, false⟩

end Restore
end Attic
