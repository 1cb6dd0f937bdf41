import Attic.Proofs.Ledger.Entries
import Attic.Proofs.Restore.Items
import Mathlib

/-!
# What a run of items does

Items whose scripts and copies have different places do not get in each other's
way: what becomes of one is not changed by those that run before or after it.
A run changes the tree at the places of its items only, but for new folders, and
the ledger at the entries of its items only.

Key definitions: `Restore.Item.Apart`, `Restore.Framed`, `Restore.Item.Back`,
`Restore.Item.Kept`, `Restore.Outcome`.
Key theorem: `Restore.runItems_effect`.
-/

namespace Attic
namespace Restore

open Ledger (Entry Keeper)

/-- Two items that have no path in common. -/
def Item.Apart (i j : Item) : Prop := i.entry.Apart j.entry

theorem Item.Apart.symm {i j : Item} (h : i.Apart j) : j.Apart i := Entry.Apart.symm h

instance : Std.Symm Item.Apart := ⟨fun _ _ => Item.Apart.symm⟩

variable {s : Restorer} {k : Keeper s.store} {base : Location} {clock : Item → Reading}
variable {r r₁ r' : Repository} {es es₁ es' : List Entry} {now : Timestamp} {i j : Item}
variable {is js : List Item} {d : Done} {own : Location → Prop}

/-- What a run leaves alone: the tree only grows at places that are not those of
its items, and the ledger keeps its length, the entries that are not active for
a target, and the active ones that are left. -/
structure Framed (k : Keeper s.store) (base : Location) (is : List Item) (t t' : Tree)
    (es es' : List Entry) : Prop where
  tree : ∀ l, (∀ i ∈ is, l ≠ Tree.placeBelow base i.target ∧
    l ≠ Tree.placeBelow base i.entry.archive) → ¬ k.own l → t.GrowsAt t' l
  length : es'.length = es.length
  entries : ∀ (n : Nat) (e : Entry), es[n]? = some e → (∀ i ∈ is, e.isActiveOf i.target = false) →
    es'[n]? = some e
  active : ∀ (n : Nat) (e : Entry), es'[n]? = some e → e.isActive = true → es[n]? = some e

theorem Framed.refl (k : Keeper s.store) (base : Location) (is : List Item) (t : Tree)
    (es : List Entry) : Framed k base is t t es es :=
  ⟨fun _ _ _ => .inl rfl, rfl, fun _ _ h _ => h, fun _ _ h _ => h⟩

theorem Framed.append {t t₁ t' : Tree} (h : Framed k base is t t₁ es es₁)
    (h' : Framed k base js t₁ t' es₁ es') : Framed k base (is ++ js) t t' es es' where
  tree l other own := (h.tree l (fun i hi => other i (List.mem_append_left _ hi)) own).trans
    (h'.tree l (fun i hi => other i (List.mem_append_right _ hi)) own)
  length := h'.length.trans h.length
  entries n e there other := h'.entries n e
    (h.entries n e there fun i hi => other i (List.mem_append_left _ hi))
    fun i hi => other i (List.mem_append_right _ hi)
  active n e there active := h.active n e (h'.active n e there active) active

/-- An item that was restored: its entry is marked, and its script has the bytes
of the copy. -/
structure Item.Back (root : Path) (base : Location) (now : Timestamp) (i : Item) (t t' : Tree)
    (es es' : List Entry) : Prop where
  entry : ∃ (n : Nat) (e : Entry), es[n]? = some e ∧ e.isActiveOf i.target = true ∧
    es'[n]? = some (e.restore now)
  nameable : Tree.Nameable root i.target
  file : ∃ mode bytes, t.get? (Tree.placeBelow base i.entry.archive) = some (.file mode bytes) ∧
    t'.get? (Tree.placeBelow base i.target) = some (.file (Tree.copyMode i.executable mode) bytes)
  removed : ∀ mode bytes, t'.get? (Tree.placeBelow base i.entry.archive) ≠ some (.file mode bytes)

/-- An item that was not restored: its entry and its copy are as before, and no
file came to its place. -/
structure Item.Kept (base : Location) (i : Item) (t t' : Tree) (es es' : List Entry) : Prop where
  entry : ∀ (n : Nat) (e : Entry), es[n]? = some e → e.isActiveOf i.target = true → es'[n]? = some e
  copy : ∀ mode bytes, t.get? (Tree.placeBelow base i.entry.archive) = some (.file mode bytes) →
    t'.get? (Tree.placeBelow base i.entry.archive) = some (.file mode bytes)
  target : ∀ mode bytes, t'.get? (Tree.placeBelow base i.target) = some (.file mode bytes) →
    t.get? (Tree.placeBelow base i.target) = some (.file mode bytes)

/-- What became of an item. -/
def Outcome (root : Path) (base : Location) (now : Timestamp) (i : Item) (d : Done) (t t' : Tree)
    (es es' : List Entry) : Prop :=
  d = .restored none ∧ i.Back root base now t t' es es' ∨
    (∀ w, d ≠ .restored w) ∧ i.Kept base t t' es es'

/-! ### One item -/

theorem runItem_outcome (fit : i.Fit k.own base) (valid : now.isValid = true) (late : Bool)
    (h : Follows k base r es) :
    ∃ es', Follows k base (runItem s now late i r).2 es' ∧
      Framed k base [i] r.tree (runItem s now late i r).2.tree es es' ∧
      Outcome s.root base now i (runItem s now late i r).1 r.tree
        (runItem s now late i r).2.tree es es' := by
  rcases runItem_effect fit valid late h with ⟨outcome, follows, grows⟩ |
    ⟨es', outcome, follows, restores⟩
  · refine ⟨es, follows, ⟨fun l _ _ => grows l, rfl, fun _ _ h _ => h, fun _ _ h _ => h⟩,
      .inr ⟨outcome, fun _ _ h _ => h, fun _ _ => (grows _).keeps, fun _ _ => (grows _).file⟩⟩
  · obtain ⟨n, e, there, active, rfl⟩ := Ledger.markFirst?_eq_some restores.marked
    have inside : n < es.length := (List.getElem?_eq_some_iff.1 there).1
    have marked : (es.set n (e.restore now))[n]? = some (e.restore now) := by
      rw [List.getElem?_set_self inside]
    refine ⟨_, follows, ⟨?_, List.length_set, ?_, ?_⟩, .inl ⟨outcome, ⟨n, e, there, active, marked⟩,
      restores.nameable, restores.copied, ?_⟩⟩
    · intro l other own
      obtain ⟨ht, ha⟩ := other i (List.mem_singleton_self i)
      exact restores.elsewhere l ht ha own
    · intro m e' there' other
      rw [List.getElem?_set_ne, there']
      rintro rfl
      obtain rfl := Option.some.inj (there.symm.trans there')
      rw [other i (List.mem_singleton_self i)] at active
      exact Bool.noConfusion active
    · intro m e' there' active'
      by_cases hm : n = m
      · subst hm
        obtain rfl := Option.some.inj (marked.symm.trans there')
        simp [Entry.restore, Entry.isActive] at active'
      · rwa [List.getElem?_set_ne hm] at there'
    · intro mode bytes
      rw [restores.removed]
      simp

/-! ### Items after one another -/

theorem Item.Fit.normal (fit : i.Fit own base) : i.entry.Normal := ⟨fit.target, fit.archive⟩

/-- The places of an item are not those of items apart from it. -/
theorem Item.Fit.elsewhere (fit : i.Fit own base) (fits : ∀ j ∈ js, j.Fit own base)
    (apart : ∀ j ∈ js, i.Apart j) :
    (∀ j ∈ js, Tree.placeBelow base i.target ≠ Tree.placeBelow base j.target ∧
      Tree.placeBelow base i.target ≠ Tree.placeBelow base j.entry.archive) ∧
    ∀ j ∈ js, Tree.placeBelow base i.entry.archive ≠ Tree.placeBelow base j.target ∧
      Tree.placeBelow base i.entry.archive ≠ Tree.placeBelow base j.entry.archive := by
  have places := fun j hj => (apart j hj).places fit.normal (fits j hj).normal base
  exact ⟨fun j hj => (places j hj).1, fun j hj => (places j hj).2⟩

/-- An entry that is active for one target is not for another. -/
theorem Item.Fit.inactive (fit : i.Fit own base) (fits : ∀ j ∈ js, j.Fit own base)
    (apart : ∀ j ∈ js, i.Apart j) {e : Entry} (active : e.isActiveOf i.target = true) :
    ∀ j ∈ js, e.isActiveOf j.target = false := by
  intro j hj
  cases other : e.isActiveOf j.target with
  | false => rfl
  | true =>
    simp only [Entry.isActiveOf, Bool.and_eq_true] at active other
    have same := Path.same_trans (Path.same_symm active.2) other.2
    exact absurd (fit.target.eq_of_same (fits j hj).target same) (apart j hj).originals

section

variable (fit : i.Fit k.own base) (fits : ∀ j ∈ js, j.Fit k.own base)
variable (apart : ∀ j ∈ js, i.Apart j)

include fit fits apart

/-- Where the script and the copy of an item go, others let the tree grow at most. -/
theorem Framed.places {t t' : Tree} (frame : Framed k base js t t' es es') :
    t.GrowsAt t' (Tree.placeBelow base i.target) ∧
      t.GrowsAt t' (Tree.placeBelow base i.entry.archive) := by
  obtain ⟨target, archive⟩ := fit.elsewhere fits apart
  exact ⟨frame.tree _ target fit.target_free, frame.tree _ archive fit.archive_free⟩

/-- What became of an item stays when others run. -/
theorem Outcome.after {t t₁ t' : Tree} (h : Outcome s.root base now i d t t₁ es es₁)
    (frame : Framed k base js t₁ t' es₁ es') : Outcome s.root base now i d t t' es es' := by
  obtain ⟨target, archive⟩ := frame.places fit fits apart
  rcases h with ⟨outcome, back⟩ | ⟨outcome, kept⟩
  · obtain ⟨n, e, there, active, marked⟩ := back.entry
    obtain ⟨mode, bytes, copy, file⟩ := back.file
    refine .inl ⟨outcome, ⟨n, e, there, active, frame.entries n _ marked fun j _ => ?_⟩,
      back.nameable, ⟨mode, bytes, copy, target.keeps file⟩,
      fun m b gone => back.removed m b (archive.file gone)⟩
    simp [Entry.isActiveOf, Entry.isActive, Entry.restore]
  · refine .inr ⟨outcome, fun n e there active => ?_, fun m b copy => ?_, fun m b file => ?_⟩
    · exact frame.entries n e (kept.entry n e there active) (fit.inactive fits apart active)
    · exact archive.keeps (kept.copy m b copy)
    · exact kept.target m b (target.file file)

/-- What becomes of an item does not depend on others that ran before. -/
theorem Outcome.before {t t₁ t' : Tree} (frame : Framed k base js t t₁ es es₁)
    (h : Outcome s.root base now i d t₁ t' es₁ es') : Outcome s.root base now i d t t' es es' := by
  obtain ⟨target, archive⟩ := frame.places fit fits apart
  rcases h with ⟨outcome, back⟩ | ⟨outcome, kept⟩
  · obtain ⟨n, e, there, active, marked⟩ := back.entry
    obtain ⟨mode, bytes, copy, file⟩ := back.file
    have was : es[n]? = some e := by
      refine frame.active n e there ?_
      simp only [Entry.isActiveOf, Bool.and_eq_true] at active
      exact active.1
    exact .inl ⟨outcome, ⟨n, e, was, active, marked⟩, back.nameable,
      ⟨mode, bytes, archive.file copy, file⟩, back.removed⟩
  · refine .inr ⟨outcome, fun n e there active => ?_, fun m b copy => ?_, fun m b file => ?_⟩
    · exact kept.entry n e (frame.entries n e there (fit.inactive fits apart active)) active
    · exact kept.copy m b (archive.keeps copy)
    · exact target.file (kept.target m b file)

end

/-- **What a run of items does**: outside their places and entries nothing but
new folders, and for each item what it would do alone. -/
theorem runItems_effect (times : ∀ i, (clock i).now.isValid = true) : ∀ {is : List Item}
    {r : Repository} {es : List Entry}, (∀ i ∈ is, i.Fit k.own base) → is.Pairwise Item.Apart →
    Follows k base r es → ∃ es', Follows k base (runItems s clock is r).2 es' ∧
      Framed k base is r.tree (runItems s clock is r).2.tree es es' ∧
      ∀ x ∈ (runItems s clock is r).1, ∃ i ∈ is, x.1 = i.target ∧
        Outcome s.root base (clock i).now i x.2 r.tree (runItems s clock is r).2.tree es es'
  | [], r, es, _, _, h => ⟨es, h, .refl k base [] r.tree es, by simp [runItems]⟩
  | i :: is, r, es, fits, apart, h => by
    have fit := fits i List.mem_cons_self
    have fits' : ∀ j ∈ is, j.Fit k.own base := fun j hj => fits j (List.mem_cons_of_mem _ hj)
    obtain ⟨apartI, apart'⟩ := List.pairwise_cons.1 apart
    obtain ⟨es₁, h₁, frame₁, outcome⟩ := runItem_outcome fit (times i) (clock i).late h
    obtain ⟨es', h', frame', outcomes⟩ := runItems_effect times fits' apart' h₁
    refine ⟨es', h', frame₁.append frame', fun x hx => ?_⟩
    rcases List.mem_cons.1 hx with rfl | hx
    · exact ⟨i, List.mem_cons_self, rfl, outcome.after fit fits' apartI frame'⟩
    · obtain ⟨j, hj, target, outcome⟩ := outcomes x hx
      refine ⟨j, List.mem_cons_of_mem _ hj, target, ?_⟩
      have one : ∀ m ∈ [i], m.Fit k.own base := by simpa using fit
      have away : ∀ m ∈ [i], j.Apart m := by simpa using (apartI j hj).symm
      exact outcome.before (fits' j hj) one away frame₁

end Restore
end Attic
