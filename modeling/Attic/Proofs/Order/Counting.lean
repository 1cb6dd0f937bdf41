import Attic.Proofs.Order.Merged
import Attic.Report.Imports
import Mathlib

/-!
# Tables of counts

A table is sorted by key and stays so when an entry is set. Counting texts one
after the other comes to how often each of them occurs; the counts add up to how many
texts there are, and there are as many counts as there are different texts.

Key definition: `Order.Table.total`.
Key theorems: `Order.Table.total_put`, `Report.get?_countEach`,
`Report.total_countEach`, `Report.length_countEach`.
-/

namespace Attic

namespace Order
namespace Table

variable {α : Type} {key k : String} {v : α} {t : Table α}

/-! ### Entries -/

theorem get?_put_same : ∀ t : Table α, (t.put key v).get? key = some v
  | [] => by simp [put, get?]
  | (k, w) :: t => by
    have ih := get?_put_same t
    rw [put]
    split_ifs with before same
    · simp [get?]
    · simp [get?]
    · rw [get?, if_neg same, ih]

theorem get?_put_other (other : k ≠ key) : ∀ t : Table α, (t.put key v).get? k = t.get? k
  | [] => by simp [put, get?, other]
  | (k', w) :: t => by
    have ih := get?_put_other other t
    rw [put]
    split_ifs with before same
    · rw [get?, if_neg other]
    · subst same
      rw [get?, get?, if_neg other, if_neg other]
    · rw [get?, get?, ih]

/-- A key that sorts before all others has no entry. -/
theorem get?_of_below : ∀ {t : Table α}, (∀ e ∈ t, key < e.1) → t.get? key = none
  | [], _ => rfl
  | (k, w) :: t, below => by
    obtain ⟨first, rest⟩ := List.forall_mem_cons.1 below
    have other : key ≠ k := first.ne
    rw [get?, if_neg other, get?_of_below rest]

/-! ### Order -/

theorem mem_put {e : String × α} : ∀ {t : Table α}, e ∈ t.put key v → e = (key, v) ∨ e ∈ t
  | [], h => .inl (List.mem_singleton.1 h)
  | (k, w) :: t, h => by
    rw [put] at h
    split_ifs at h with before same
    · exact List.mem_cons.1 h
    · exact (List.mem_cons.1 h).imp_right fun rest => List.mem_cons_of_mem _ rest
    · rcases List.mem_cons.1 h with rfl | rest
      · exact .inr List.mem_cons_self
      · exact (mem_put rest).imp_right fun rest => List.mem_cons_of_mem _ rest

/-- A table stays sorted. -/
theorem ascends_put : ∀ {t : Table α}, Ascends Prod.fst t → Ascends Prod.fst (t.put key v)
  | [], _ => List.pairwise_singleton _ _
  | (k, w) :: t, up => by
    obtain ⟨low, up'⟩ := List.pairwise_cons.1 up
    rw [put]
    split_ifs with before same
    · refine List.pairwise_cons.2 ⟨?_, up⟩
      intro e he
      rcases List.mem_cons.1 he with rfl | rest
      · exact before
      · exact before.trans (low e rest)
    · subst same
      exact List.pairwise_cons.2 ⟨low, up'⟩
    · have above : k < key := lt_of_le_of_ne (not_lt.1 before) (Ne.symm same)
      refine List.pairwise_cons.2 ⟨?_, ascends_put up'⟩
      intro e he
      rcases mem_put he with rfl | rest
      · exact above
      · exact low e rest

/-- A key is set once. -/
theorem mem_keys_put : ∀ {t : Table α},
    k ∈ (t.put key v).map Prod.fst ↔ k = key ∨ k ∈ t.map Prod.fst
  | [] => by simp [put]
  | (k', w) :: t => by
    have ih : k ∈ (put key v t).map Prod.fst ↔ k = key ∨ k ∈ t.map Prod.fst := mem_keys_put
    rw [put]
    split_ifs with before same
    · rw [List.map_cons, List.mem_cons]
    · subst same
      rw [List.map_cons, List.map_cons, List.mem_cons, ← or_assoc, or_self]
    · rw [List.map_cons, List.map_cons, List.mem_cons, List.mem_cons, ih, or_left_comm]

/-! ### Sums -/

/-- The sum of the counts. -/
def total (t : Table Nat) : Nat := (t.map Prod.snd).sum

@[simp] theorem total_cons (e : String × Nat) (t : Table Nat) :
    total (e :: t) = e.2 + total t := rfl

/-- The count that is set takes the place of the one that was there. -/
theorem total_put (key : String) (n : Nat) : ∀ {t : Table Nat}, Ascends Prod.fst t →
    (t.put key n).total + (t.get? key).getD 0 = t.total + n
  | [], _ => by simp [put, get?, total]
  | (k, w) :: t, up => by
    obtain ⟨low, up'⟩ := List.pairwise_cons.1 up
    have ih := total_put key n up'
    rw [put]
    split_ifs with before same
    · have none : get? key ((k, w) :: t) = none := by
        refine get?_of_below ?_
        intro e he
        rcases List.mem_cons.1 he with rfl | rest
        · exact before
        · exact before.trans (low e rest)
      rw [none, total_cons, Option.getD_none]
      omega
    · rw [get?, if_pos same, total_cons, total_cons, Option.getD_some]
      omega
    · rw [get?, if_neg same, total_cons, total_cons]
      omega

theorem total_add {n : Nat} {t : Table Nat} (up : Ascends Prod.fst t) :
    (t.add key n).total = t.total + n := by
  rw [add]
  have sums := total_put key ((t.get? key).getD 0 + n) up
  omega

end Table
end Order

namespace Report

open Attic.Order (Ascends Table)

/-- What counting more texts adds to a table. -/
theorem countFrom (names : List String) : ∀ {t : Table Nat}, Ascends Prod.fst t →
    (names.foldl (fun t name => t.add name 1) t).total = t.total + names.length ∧
      ∀ k, ((names.foldl (fun t name => t.add name 1) t).get? k).getD 0 =
        (t.get? k).getD 0 + names.count k := by
  induction names with
  | nil => intro t _; simp
  | cons name names ih =>
    intro t up
    obtain ⟨sum, each⟩ := ih (t := t.add name 1) (Table.ascends_put up)
    rw [List.foldl_cons]
    refine ⟨?_, fun k => ?_⟩
    · rw [sum, Table.total_add up, List.length_cons]
      omega
    · rw [each, Table.add]
      by_cases same : k = name
      · subst same
        rw [Table.get?_put_same, Option.getD_some, List.count_cons_self]
        omega
      · rw [Table.get?_put_other same, List.count_cons_of_ne (Ne.symm same)]

/-- **The counts add up to how many texts there are.** -/
theorem total_countEach (names : List String) : (countEach names).total = names.length := by
  have sum := (countFrom names (t := []) .nil).1
  rw [countEach, sum]
  exact Nat.zero_add _

/-- **The count of a text is how often it occurs.** -/
theorem get?_countEach (names : List String) (k : String) :
    ((countEach names).get? k).getD 0 = names.count k := by
  have each := (countFrom names (t := []) .nil).2 k
  rw [countEach, each]
  exact Nat.zero_add _

/-- Counting texts keeps a table sorted, and they become keys of it. -/
theorem keysFrom (names : List String) : ∀ {t : Table Nat}, Ascends Prod.fst t →
    Ascends Prod.fst (names.foldl (fun t name => Table.add name 1 t) t) ∧
      ∀ k, k ∈ (names.foldl (fun t name => t.add name 1) t).map Prod.fst ↔
        k ∈ t.map Prod.fst ∨ k ∈ names := by
  induction names with
  | nil => intro t up; simp [up]
  | cons name names ih =>
    intro t up
    obtain ⟨sorted, keys⟩ := ih (t := t.add name 1) (Table.ascends_put up)
    rw [List.foldl_cons]
    refine ⟨sorted, fun k => ?_⟩
    rw [keys, Table.add, Table.mem_keys_put, List.mem_cons, or_assoc, or_left_comm]

/-- **There is one count for each text that occurs.** -/
theorem length_countEach (names : List String) :
    (countEach names).length = names.toFinset.card := by
  obtain ⟨sorted, keys⟩ := keysFrom names (t := []) .nil
  have distinct : ((countEach names).map Prod.fst).Nodup :=
    List.pairwise_map.2 (sorted.imp fun lt => lt.ne)
  calc
    (countEach names).length = ((countEach names).map Prod.fst).length :=
      List.length_map _ |>.symm
    _ = ((countEach names).map Prod.fst).toFinset.card :=
      (List.toFinset_card_of_nodup distinct).symm
    _ = names.toFinset.card := by
      refine congrArg Finset.card (Finset.ext fun k => ?_)
      rw [List.mem_toFinset, List.mem_toFinset, countEach, keys]
      simp

end Report
end Attic
