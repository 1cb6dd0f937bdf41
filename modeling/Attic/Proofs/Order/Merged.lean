import Attic.Proofs.Order.Distinct
import Mathlib

/-!
# Lists that are sorted, each key once

Such a list is known from the first element of each key: sorting keeps the first
element of a key in front of the others, and dropping repeats keeps just it. Two
lists with the same first elements are therefore sorted alike, and what two
sorted lists come to together is known key by key.

Key definitions: `Order.pick`, `Order.Merges`.
Key theorems: `Order.pick_sortDistinct`, `Order.ascends_sortDistinct`.
-/

namespace Attic
namespace Order

variable {α β : Type} [LinearOrder β] {before : α → α → Bool} {key : α → β} {l l' : List α}
variable {a b : α} {k : β}

/-- The first element of a key. -/
def pick (key : α → β) (k : β) (l : List α) : Option α := l.find? fun a => key a = k

@[simp] theorem pick_nil : pick key k [] = none := rfl

theorem pick_cons_same (h : key a = k) : pick key k (a :: l) = some a := by simp [pick, h]

theorem pick_cons_other (h : key a ≠ k) : pick key k (a :: l) = pick key k l := by
  simp [pick, h]

theorem pick_append : pick key k (l ++ l') = (pick key k l).or (pick key k l') :=
  List.find?_append

theorem key_of_pick (h : pick key k l = some a) : key a = k := by
  simpa using List.find?_some h

theorem mem_of_pick (h : pick key k l = some a) : a ∈ l := List.mem_of_find?_eq_some h

theorem pick_eq_none : pick key k l = none ↔ ∀ a ∈ l, key a ≠ k := by simp [pick]

/-- Where elements of one key are equal, the first one is any. -/
theorem pick_eq_some (one : ∀ a ∈ l, ∀ b ∈ l, key a = key b → a = b) :
    pick key k l = some a ↔ a ∈ l ∧ key a = k := by
  refine ⟨fun h => ⟨mem_of_pick h, key_of_pick h⟩, fun ⟨ha, hk⟩ => ?_⟩
  cases h : pick key k l with
  | none => exact absurd hk (pick_eq_none.1 h a ha)
  | some b => rw [one b (mem_of_pick h) a ha ((key_of_pick h).trans hk.symm)]

theorem pick_filter (p : α → Bool) (one : ∀ a ∈ l, ∀ b ∈ l, key a = key b → a = b) :
    pick key k (l.filter p) = (pick key k l).filter p := by
  have one' : ∀ a ∈ l.filter p, ∀ b ∈ l.filter p, key a = key b → a = b :=
    fun a ha b hb => one a (List.mem_of_mem_filter ha) b (List.mem_of_mem_filter hb)
  ext a
  rw [pick_eq_some one', List.mem_filter, Option.filter_eq_some_iff, pick_eq_some one]
  tauto

/-- The first element of a key in a list of elements that are made from others. -/
theorem pick_map {γ δ : Type} [LinearOrder δ] {key' : γ → δ} {part : β → δ} {f : γ → α}
    (about : ∀ c, part (key (f c)) = key' c)
    (alike : ∀ c d, key' c = key' d → key (f c) = key (f d)) : ∀ {l : List γ},
    pick key k (l.map f) = ((pick key' (part k) l).map f).filter fun a => key a = k
  | [] => rfl
  | c :: l => by
    rw [List.map_cons]
    by_cases hk : key (f c) = k
    · rw [pick_cons_same hk, pick_cons_same (hk ▸ (about c).symm)]
      simp [Option.filter, hk]
    rw [pick_cons_other hk]
    by_cases hc : key' c = part k
    · rw [pick_cons_same hc]
      have none : pick key k (l.map f) = none := by
        refine pick_eq_none.2 fun a ha same => hk ?_
        obtain ⟨d, -, rfl⟩ := List.mem_map.1 ha
        rw [alike c d (by rw [hc, ← same, about]), same]
      simp [none, Option.filter, hk]
    · rw [pick_cons_other hc, pick_map about alike]

/-! ### Sorting -/

/-- The elements of a key stay in their order. -/
theorem ByKey.filter_sortBy (h : ByKey before key) (k : β) (l : List α) :
    (sortBy before l).filter (fun a => key a = k) = l.filter fun a => key a = k := by
  have alike : (l.filter fun a => key a = k).Pairwise fun a b => !before b a := by
    refine List.pairwise_of_forall_mem_list fun a ha b hb => ?_
    rw [h.not_before, (by simpa using (List.mem_filter.1 ha).2 : key a = k),
      (by simpa using (List.mem_filter.1 hb).2 : key b = k)]
  have inside : (l.filter fun a => key a = k).Sublist (sortBy before l) := by
    refine List.sublist_mergeSort (fun a b c => ?_) (fun a b => ?_) alike List.filter_sublist
    · rw [h.not_before, h.not_before, h.not_before]
      exact fun ab bc => ab.trans bc
    · rw [Bool.or_eq_true, h.not_before, h.not_before]
      exact le_total _ _
  have inside' := inside.filter fun a => decide (key a = k)
  simp only [List.filter_filter, Bool.and_self] at inside'
  refine (inside'.eq_of_length ?_).symm
  exact ((List.mergeSort_perm l _).filter _).length_eq.symm

theorem pick_sortBy (h : ByKey before key) : pick key k (sortBy before l) = pick key k l := by
  rw [pick, pick, ← List.head?_filter, ← List.head?_filter, h.filter_sortBy]

theorem ByKey.pick_dropWhile (h : ByKey before key) (other : key a ≠ k) : ∀ {l : List α},
    (∀ b ∈ l, key a ≤ key b) → pick key k (l.dropWhile fun b => !before a b) = pick key k l
  | [], _ => rfl
  | c :: l, low => by
    obtain ⟨lowC, low'⟩ := List.forall_mem_cons.1 low
    rw [List.dropWhile_cons]
    split
    · next same =>
      have again : key c ≠ k := fun hc => other ((le_antisymm (h.not_before.1 same) lowC) ▸ hc)
      rw [h.pick_dropWhile other low', pick_cons_other again]
    · rfl

theorem pick_dropRepeats (h : ByKey before key) : ∀ {l : List α},
    (l.Pairwise fun a b => key a ≤ key b) → pick key k (dropRepeats before l) = pick key k l
  | [], _ => rfl
  | a :: l, sorted => by
    obtain ⟨low, sorted'⟩ := List.pairwise_cons.1 sorted
    rw [dropRepeats]
    by_cases hk : key a = k
    · rw [pick_cons_same hk, pick_cons_same hk]
    · rw [pick_cons_other hk, pick_cons_other hk, h.pick_dropWhile hk, pick_dropRepeats h sorted']
      exact fun b hb => low b (mem_of_mem_dropRepeats hb)

/-- **Of each key the first element is kept.** -/
theorem pick_sortDistinct (h : ByKey before key) :
    pick key k (sortDistinct before l) = pick key k l := by
  rw [sortDistinct, pick_dropRepeats h (h.sorted l), pick_sortBy h]

/-! ### Lists that go up -/

/-- A list in order, each key once. -/
def Ascends (key : α → β) (l : List α) : Prop := l.Pairwise fun a b => key a < key b

instance : Decidable (Ascends key l) :=
  inferInstanceAs (Decidable (l.Pairwise fun a b => key a < key b))

/-- That a list goes up is known from its keys. -/
theorem Ascends.of_map_eq {γ : Type} {key' : γ → β} {m : List γ} (h : Ascends key l)
    (same : l.map key = m.map key') : Ascends key' m :=
  List.pairwise_map.1 (same ▸ List.pairwise_map.2 h)

theorem Ascends.one (h : Ascends key l) : ∀ a ∈ l, ∀ b ∈ l, key a = key b → a = b := by
  intro a ha b hb same
  by_contra differ
  have apart : l.Pairwise fun a b => key a ≠ key b := h.imp fun lt => lt.ne
  have : Std.Symm fun a b => key a ≠ key b := ⟨fun _ _ => Ne.symm⟩
  exact apart.forall ha hb differ same

theorem Ascends.mem_iff (h : Ascends key l) : a ∈ l ↔ pick key (key a) l = some a := by
  simp [pick_eq_some h.one]

theorem ByKey.ascends_dropRepeats (h : ByKey before key) : ∀ {l : List α},
    (l.Pairwise fun a b => key a ≤ key b) → Ascends key (dropRepeats before l)
  | [], _ => .nil
  | a :: l, sorted => by
    obtain ⟨low, sorted'⟩ := List.pairwise_cons.1 sorted
    have rest := h.ascends_dropRepeats sorted'
    refine List.pairwise_cons.2 ⟨?_, rest.sublist (List.dropWhile_sublist _)⟩
    -- what is left starts above `a`, and all that follows is higher still
    intro b hb
    cases left : (dropRepeats before l).dropWhile fun b => !before a b with
    | nil => simp [left] at hb
    | cons c cs =>
      have above : key a < key c := by
        have first := List.head_dropWhile_not (fun b => !before a b) (by rw [left]; simp)
        simpa [left, h a c] using first
      rw [left] at hb
      rcases List.mem_cons.1 hb with rfl | hb
      · exact above
      · have up : Ascends key (c :: cs) := left ▸ rest.sublist (List.dropWhile_sublist _)
        exact above.trans ((List.pairwise_cons.1 up).1 b hb)

theorem ascends_sortDistinct (h : ByKey before key) (l : List α) :
    Ascends key (sortDistinct before l) :=
  h.ascends_dropRepeats (h.sorted l)

theorem mem_sortDistinct (h : ByKey before key)
    (one : ∀ a ∈ l, ∀ b ∈ l, key a = key b → a = b) : a ∈ sortDistinct before l ↔ a ∈ l := by
  rw [(ascends_sortDistinct h l).mem_iff, pick_sortDistinct h, pick_eq_some one]
  exact and_iff_left rfl

/-- A list that goes up is known from its elements. -/
theorem Ascends.eq_of_mem_iff (h : Ascends key l) (h' : Ascends key l')
    (same : ∀ a, a ∈ l ↔ a ∈ l') : l = l' := by
  have perm : l.Perm l' := by
    refine (List.perm_ext_iff_of_nodup ?_ ?_).2 same
    · exact h.imp fun lt e => (e ▸ lt).false
    · exact h'.imp fun lt e => (e ▸ lt).false
  exact perm.eq_of_pairwise (fun a b _ _ ab ba => (ab.asymm ba).elim) h h'

/-- A list that goes up is known from the element of each key. -/
theorem eq_of_pick (h : Ascends key l) (h' : Ascends key l')
    (same : ∀ k, pick key k l = pick key k l') : l = l' :=
  h.eq_of_mem_iff h' fun a => by rw [h.mem_iff, h'.mem_iff, same]

/-- A list that goes up is sorted already. -/
theorem sortDistinct_of_ascends (h : ByKey before key) (up : Ascends key l) :
    sortDistinct before l = l :=
  eq_of_pick (ascends_sortDistinct h l) up fun _ => pick_sortDistinct h

/-- A list that holds what two lists hold, in order and each key once. -/
structure Merges (key : α → β) (l₁ l₂ l : List α) : Prop where
  ascends : Ascends key l
  mem : ∀ a, a ∈ l ↔ a ∈ l₁ ∨ a ∈ l₂

end Order
end Attic
