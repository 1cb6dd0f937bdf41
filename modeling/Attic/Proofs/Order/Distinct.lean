import Attic.Order.Sorted
import Attic.Path.Basic
import Mathlib

/-!
# What is kept of elements that sort alike

Where elements are compared by a key in a linear order, sorting them and
dropping repeats keeps an element of each key that there is, and sorting comes to
one list in whatever order they were, unless some have the same key. Paths are
compared so, by their components.

Key definitions: `Order.ByKey`, `Path.Ascending`.
Key theorems: `Order.sortBy_perm`, `Order.ByKey.lex`, `Order.ByKey.sortBy_perm_eq`,
`Order.exists_mem_sortDistinct`.
-/

namespace Attic
namespace Order

variable {α β γ : Type} [LinearOrder β] [LinearOrder γ]

/-! ### Sorting -/

section

variable (before : α → α → Bool) (l : List α)

theorem sortBy_perm : (sortBy before l).Perm l := List.mergeSort_perm l _

@[simp] theorem mem_sortBy {a : α} : a ∈ sortBy before l ↔ a ∈ l :=
  (sortBy_perm before l).mem_iff

variable {before l}

theorem sortBy_of_sorted (h : l.Pairwise fun a b => !before b a) : sortBy before l = l :=
  List.mergeSort_of_pairwise h

end

/-! ### Keys -/

/-- A relation that compares elements by a key. -/
def ByKey (before : α → α → Bool) (key : α → β) : Prop :=
  ∀ a b, before a b = true ↔ key a < key b

variable {before : α → α → Bool} {key : α → β} {l : List α} {a b : α}

theorem ByKey.not_before (h : ByKey before key) : (!before a b) = true ↔ key b ≤ key a := by
  rw [Bool.not_eq_true', ← Bool.not_eq_true, h a b, not_lt]

/-- Elements that are compared by one key, and by another where that is the same. -/
theorem ByKey.lex {before' : α → α → Bool} {key' : α → γ} (h : ByKey before key)
    (h' : ByKey before' key') : ByKey (fun a b => before a b || (!before b a && before' a b))
      fun a => toLex (key a, key' a) := by
  intro a b
  rw [Bool.or_eq_true, Bool.and_eq_true, h.not_before, h, h', Prod.Lex.toLex_lt_toLex,
    le_iff_lt_or_eq]
  tauto

/-- Comparing by a first key and, where that does not tell, by more. -/
theorem lex_iff {x y : β} {less more rest : Bool}
    (hl : less = true ↔ x < y) (hm : more = true ↔ y < x) :
    (if less then true else if more then false else rest) = true ↔ x < y ∨ x = y ∧ rest = true := by
  rcases lt_trichotomy x y with h | rfl | h
  · simp [hl.2 h, h]
  · have same : less = false ∧ more = false := by
      rw [← Bool.not_eq_true, ← Bool.not_eq_true, hl, hm]
      exact ⟨lt_irrefl x, lt_irrefl x⟩
    simp [same.1, same.2]
  · have other : less = false := by
      rw [← Bool.not_eq_true, hl]
      exact h.asymm
    simp [other, hm.2 h, h.asymm, h.ne']

/-- A sorted list goes up by the key. -/
theorem ByKey.sorted (h : ByKey before key) (l : List α) :
    (sortBy before l).Pairwise fun a b => key a ≤ key b := by
  refine (List.pairwise_mergeSort (fun a b c => ?_) (fun a b => ?_) l).imp fun le => ?_
  · rw [h.not_before, h.not_before, h.not_before]
    exact fun ab bc => ab.trans bc
  · rw [Bool.or_eq_true, h.not_before, h.not_before]
    exact le_total _ _
  · exact h.not_before.1 le

/-- The order of a list does not matter where no two keys are the same. -/
theorem ByKey.sortBy_perm_eq {l' : List α} (h : ByKey before key) (perm : l.Perm l')
    (distinct : l.Pairwise fun a b => key a ≠ key b) : sortBy before l = sortBy before l' := by
  have perm' : (sortBy before l).Perm (sortBy before l') :=
    (List.mergeSort_perm l _).trans (perm.trans (List.mergeSort_perm l' _).symm)
  refine perm'.eq_of_pairwise (fun a b ha hb ab ba => ?_) (h.sorted l) (h.sorted l')
  by_contra differ
  have hb' : b ∈ l := perm.mem_iff.2 (List.mem_mergeSort.1 hb)
  have : Std.Symm fun a b => key a ≠ key b := ⟨fun _ _ => Ne.symm⟩
  exact distinct.forall (List.mem_mergeSort.1 ha) hb' differ
    (le_antisymm ab ba)

/-- What a repeat of the first element is, in a list that goes up. -/
theorem ByKey.mem_dropWhile (h : ByKey before key) (low : key a ≤ key b) : ∀ {l : List α}, b ∈ l →
    b ∈ l.dropWhile (fun c => !before a c) ∨ key b = key a
  | c :: l, hb => by
    rw [List.dropWhile_cons]
    split
    · next same =>
      rcases List.mem_cons.1 hb with rfl | hb
      · exact .inr (le_antisymm (h.not_before.1 same) low)
      · exact h.mem_dropWhile low hb
    · exact .inl hb

theorem mem_of_mem_dropRepeats : ∀ {l : List α}, b ∈ dropRepeats before l → b ∈ l
  | a :: l, hb => by
    rw [dropRepeats] at hb
    rcases List.mem_cons.1 hb with rfl | hb
    · exact List.mem_cons_self
    · exact List.mem_cons_of_mem _
        (mem_of_mem_dropRepeats ((List.dropWhile_suffix _).subset hb))

theorem ByKey.exists_mem_dropRepeats (h : ByKey before key) : ∀ {l : List α},
    (l.Pairwise fun a b => key a ≤ key b) → a ∈ l → ∃ b ∈ dropRepeats before l, key b = key a
  | c :: l, sorted, ha => by
    obtain ⟨low, sorted'⟩ := List.pairwise_cons.1 sorted
    rw [dropRepeats]
    rcases List.mem_cons.1 ha with rfl | ha
    · exact ⟨a, List.mem_cons_self, rfl⟩
    · obtain ⟨b, hb, same⟩ := h.exists_mem_dropRepeats sorted' ha
      rcases h.mem_dropWhile (low b (mem_of_mem_dropRepeats hb)) hb with kept | repeated
      · exact ⟨b, List.mem_cons_of_mem _ kept, same⟩
      · exact ⟨c, List.mem_cons_self, repeated.symm.trans same⟩

/-- **Of the elements of one key one is kept.** -/
theorem exists_mem_sortDistinct (h : ByKey before key) (ha : a ∈ l) :
    ∃ b ∈ sortDistinct before l, key b = key a :=
  h.exists_mem_dropRepeats (h.sorted l) (List.mem_mergeSort.2 ha)

end Order

namespace Path

theorem Component.key_injective : Function.Injective Component.key := by
  intro a b h
  have h' := congrArg String.toList h
  cases a <;> cases b <;> simp [Component.key] at h' ⊢
  exact String.toList_injective h'

/-- Paths sort by their components. -/
theorem before_byKey : Order.ByKey before key := fun p q => by simp [before]

theorem same_of_key {p q : Path} (h : p.key = q.key) : p.same q = true :=
  same_iff.2 (List.map_injective_iff.2 Component.key_injective h)

theorem key_eq_iff {p q : Path} : p.key = q.key ↔ p.same q = true :=
  ⟨same_of_key, fun h => by rw [key, key, same_iff.1 h]⟩

/-- Paths in their order. -/
def Ascending (ps : List Path) : Prop := ps.Pairwise fun p q => q.before p = false

theorem ascending_iff {ps : List Path} :
    Ascending ps ↔ ps.Pairwise fun p q => p.key ≤ q.key := by
  simp only [Ascending, ← before_byKey.not_before, Bool.not_eq_true']

/-- Elements that are sorted by a path, and by something else where that is the same. -/
theorem ascending_sortBy {α β : Type} [LinearOrder β] {before : α → α → Bool} {path : α → Path}
    {other : α → β} (h : Order.ByKey before fun a => toLex ((path a).key, other a)) (l : List α) :
    Ascending ((Order.sortBy before l).map path) := by
  rw [ascending_iff, List.pairwise_map]
  exact (h.sorted l).imp fun le => (Prod.Lex.toLex_le_toLex'.1 le).1

end Path
end Attic
