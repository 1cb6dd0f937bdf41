import Attic.Proofs.Restore.Runs
import Attic.Proofs.Tree.Moving
import Mathlib

/-!
# Runs in which nothing fails

An item whose copy is there and whose place is free waits to be restored. While
the folder stays in which its script was, and its entry is active in memory,
nothing keeps it from being restored, and it waits on while others are.

Key definition: `Restore.Item.Waits`.
Key theorem: `Restore.runItems_back`.
-/

namespace Attic
namespace Restore

open Ledger (Entry Keeper Store)

variable {root : Path} {categories : Order.Table String} {base : Location} {t₀ : Tree}
variable {clock : Item → Reading} {r r' : Repository} {now : Timestamp} {i : Item}
variable {is : List Item}

/-- An item that can be restored, whose script was a file in the tree `t₀`. -/
structure Item.Waits (root : Path) (base : Location) (t₀ : Tree) (i : Item) (r : Repository) :
    Prop where
  target : Tree.Nameable root i.target
  archive : Tree.Nameable root i.entry.archive
  was : ∃ mode bytes, t₀.readFile (root.join i.target) = .ok (mode, bytes)
  copy : ∃ mode bytes, r.tree.get? (Tree.placeBelow base i.entry.archive) = some (.file mode bytes)
  free : r.tree.get? (Tree.placeBelow base i.target) = none
  active : ∃ e ∈ r.entries, e.isActiveOf i.target = true

/-- A repository that has the folders of an earlier tree. -/
structure Lasting (root : Path) (base : Location) (t₀ : Tree) (r : Repository) : Prop where
  before : t₀.Plain
  rooted₀ : t₀.reach [] (Tree.steps root.text) = some base
  plain : r.tree.Plain
  folders : ∀ l, t₀.get? l = some .folder → r.tree.get? l = some .folder

theorem Lasting.rooted (h : Lasting root base t₀ r) :
    r.tree.reach [] (Tree.steps root.text) = some base :=
  Tree.reach_kept h.folders _ _ h.rooted₀

/-- The script of an item that waits is put back, and no folder has to be made. -/
theorem Item.Waits.placed (h : Lasting root base t₀ r) (waits : i.Waits root base t₀ r) :
    ∃ t, r.tree.placeCopy (root.join i.entry.archive) (root.join i.target) i.executable =
        (.ok (), t) ∧ i.Placed root base r.tree t ∧
      ∀ l, l ≠ Tree.placeBelow base i.target → t.get? l = r.tree.get? l := by
  obtain ⟨mode, bytes, copy⟩ := waits.copy
  obtain ⟨mode₀, bytes₀, was⟩ := waits.was
  have read := (Tree.readFile_normal h.plain h.rooted waits.archive.normal).2
    ⟨waits.archive, copy⟩
  have below : Tree.placeBelow base i.target ≠ [] :=
    Tree.ne_nil_of_get? (t := r.tree) (by simp [waits.free])
  have folder : r.tree.get? (Tree.placeBelow base i.target).dropLast = some .folder := by
    refine h.folders _ (h.before.in_folder _ below ?_)
    rw [((Tree.readFile_normal h.before h.rooted₀ waits.target.normal).1 was).2]
    simp
  have created := Tree.createFile_free h.plain h.rooted waits.target folder waits.free
    (Tree.copyMode i.executable mode) bytes
  have apart : Tree.placeBelow base i.entry.archive ≠ Tree.placeBelow base i.target := by
    intro e
    rw [e, waits.free] at copy
    simp at copy
  refine ⟨_, ?_, ⟨waits.target, waits.archive, apart, waits.free, ⟨mode, bytes, copy, ?_,
    Tree.get?_set_same below⟩, fun l hl => .inl (Tree.get?_set_other hl), ?_⟩,
    fun l => Tree.get?_set_other⟩
  · rw [Tree.placeCopy, Tree.makeParent_kept h.before h.folders was]
    simp only [read]
    exact created
  · rw [Tree.get?_set_other apart, copy]
  · exact h.plain.set (by simp) below folder (by simp [waits.free])

/-- **An item that waits is restored**, and only its places and its entry change. -/
theorem runItem_waits (categories : Order.Table String) (now : Timestamp)
    (h : Lasting root base t₀ r) (waits : i.Waits root base t₀ r) :
    ∃ r₁, runItem ⟨root, categories, .memory⟩ now false i r = (.restored none, r₁) ∧
      Lasting root base t₀ r₁ ∧ Ledger.markFirst? i.target now r.entries = some r₁.entries ∧
      ∀ l, l ≠ Tree.placeBelow base i.target → l ≠ Tree.placeBelow base i.entry.archive →
        r₁.tree.get? l = r.tree.get? l := by
  obtain ⟨t, done, placed, same⟩ := waits.placed h
  obtain ⟨mode, bytes, was, copy, -⟩ := placed.copied
  have file : r.tree.isFile (root.join i.entry.archive) = true :=
    (Tree.isFile_normal h.plain h.rooted waits.archive.normal).2 ⟨waits.archive, mode, bytes, was⟩
  have removed := Tree.removeFile_normal placed.plain
    (Tree.reach_kept (fun _ => placed.folders) _ _ h.rooted) waits.archive copy
  obtain ⟨es', marked⟩ := Ledger.exists_markFirst? now waits.active
  have recorded : Store.memory.markRestored i.target now { r with tree := t } =
      (.ok (), ⟨t, es'⟩) := by
    simp only [Store.memory, marked]
  refine ⟨⟨t.erase (Tree.placeBelow base i.entry.archive), es'⟩, ?_,
    ⟨h.before, h.rooted₀, placed.plain.erase copy, fun l hl => ?_⟩, marked, fun l hl hl' => ?_⟩
  · exact runItem_restored (s := ⟨root, categories, .memory⟩) file done recorded removed
  · have stays := placed.folders (h.folders l hl)
    rw [Tree.get?_erase_other, stays]
    rintro rfl
    simp [copy] at stays
  · rw [Tree.get?_erase_other hl', same l hl]

theorem Item.Waits.fit (waits : i.Waits root base t₀ r) :
    i.Fit (Keeper.own Keeper.memory) base where
  target := waits.target.normal
  archive := waits.archive.normal
  differ := by
    intro e
    obtain ⟨mode, bytes, copy⟩ := waits.copy
    rw [← e, waits.free] at copy
    simp at copy
  target_free := id
  archive_free := id

/-- An item waits on while one apart from it is restored. -/
theorem Item.Waits.after {j : Item} {r₁ : Repository} (fit : i.Fit (Keeper.own Keeper.memory) base)
    (waits : j.Waits root base t₀ r) (apart : i.Apart j)
    (tree : ∀ l, l ≠ Tree.placeBelow base i.target → l ≠ Tree.placeBelow base i.entry.archive →
      r₁.tree.get? l = r.tree.get? l)
    (marked : Ledger.markFirst? i.target now r.entries = some r₁.entries) :
    j.Waits root base t₀ r₁ := by
  have one : ∀ k ∈ [i], k.Fit (Keeper.own Keeper.memory) base := by simpa using fit
  have others : ∀ k ∈ [i], j.Apart k := by simpa using apart.symm
  obtain ⟨target, archive⟩ := waits.fit.elsewhere one others
  have target' := target i (List.mem_singleton_self i)
  have archive' := archive i (List.mem_singleton_self i)
  refine ⟨waits.target, waits.archive, waits.was, ?_, ?_, ?_⟩
  · rw [tree _ archive'.1 archive'.2]
    exact waits.copy
  · rw [tree _ target'.1 target'.2]
    exact waits.free
  · obtain ⟨e, he, active⟩ := waits.active
    obtain ⟨n, there⟩ := List.getElem?_of_mem he
    obtain ⟨m, e', there', active', after⟩ := Ledger.markFirst?_eq_some marked
    refine ⟨e, ?_, active⟩
    rw [after]
    have other : m ≠ n := by
      rintro rfl
      obtain rfl := Option.some.inj (there'.symm.trans there)
      rw [waits.fit.inactive one others active i (List.mem_singleton_self i)] at active'
      exact Bool.noConfusion active'
    have stays : (r.entries.set m (e'.restore now))[n]? = some e := by
      rw [List.getElem?_set_ne other, there]
    exact List.mem_of_getElem? stays

/-- **Items that wait are all restored.** -/
theorem runItems_restored (early : ∀ i, (clock i).late = false) : ∀ {is : List Item}
    {r : Repository}, Lasting root base t₀ r → (∀ i ∈ is, i.Waits root base t₀ r) →
    is.Pairwise Item.Apart → (runItems ⟨root, categories, .memory⟩ clock is r).1 =
      is.map fun i => (i.target, .restored none)
  | [], r, _, _, _ => rfl
  | i :: is, r, h, waits, apart => by
    have first := waits i List.mem_cons_self
    obtain ⟨apartI, apart'⟩ := List.pairwise_cons.1 apart
    obtain ⟨r₁, done, h₁, marked, tree⟩ := runItem_waits categories (clock i).now h first
    have waits₁ : ∀ j ∈ is, j.Waits root base t₀ r₁ := fun j hj =>
      (waits j (List.mem_cons_of_mem _ hj)).after first.fit (apartI j hj) tree marked
    have rest := runItems_restored early h₁ waits₁ apart'
    rw [runItems, early i, done]
    simp only [rest, List.map_cons]

/-- **In a run in which nothing fails every item is back.** -/
theorem runItems_back (early : ∀ i, (clock i).late = false)
    (times : ∀ i, (clock i).now.isValid = true) (h : Lasting root base t₀ r)
    (waits : ∀ i ∈ is, i.Waits root base t₀ r) (apart : is.Pairwise Item.Apart) :
    ∃ r', runItems ⟨root, categories, .memory⟩ clock is r =
        (is.map fun i => (i.target, .restored none), r') ∧
      Lasting root base t₀ r' ∧
      (∀ i ∈ is, i.Back root base (clock i).now r.tree r'.tree r.entries r'.entries) ∧
      Framed (s := ⟨root, categories, .memory⟩) Keeper.memory base is r.tree r'.tree r.entries
        r'.entries := by
  have done : (runItems ⟨root, categories, .memory⟩ clock is r).1 = _ :=
    runItems_restored early h waits apart
  have fits : ∀ i ∈ is, i.Fit (Keeper.own Keeper.memory) base := fun i hi => (waits i hi).fit
  obtain ⟨es', after, frame, outcomes⟩ := runItems_effect (s := ⟨root, categories, .memory⟩)
    (k := Keeper.memory) times fits apart ⟨h.plain, h.rooted, rfl⟩
  obtain rfl : (runItems ⟨root, categories, .memory⟩ clock is r).2.entries = es' := after.keeps
  refine ⟨_, Prod.ext done rfl, ⟨h.before, h.rooted₀, after.plain, fun l hl => ?_⟩,
    fun i hi => ?_, frame⟩
  · have folder := h.folders l hl
    refine (frame.tree l (fun i hi => ⟨?_, ?_⟩) id).keeps folder
    · rintro rfl
      rw [(waits i hi).free] at folder
      simp at folder
    · rintro rfl
      obtain ⟨mode, bytes, copy⟩ := (waits i hi).copy
      rw [copy] at folder
      simp at folder
  · have there : (i.target, Done.restored none) ∈
        (runItems ⟨root, categories, .memory⟩ clock is r).1 := by
      rw [done]
      exact List.mem_map_of_mem (f := fun i => (Item.target i, Done.restored none)) hi
    obtain ⟨j, hj, target, outcome⟩ := outcomes _ there
    have same : i = j := by
      by_contra differ
      exact (apart.forall hi hj differ).originals target
    subst same
    rcases outcome with ⟨-, back⟩ | ⟨failed, -⟩
    · exact back
    · exact absurd rfl (failed none)

end Restore
end Attic
