import Attic.Json.Shape
import Attic.Proofs.Order.Counting
import Mathlib

/-!
# Values whose members are sorted

The members of an object that is read become a table: they are sorted by name, and of
members of one name the last is kept.

Key definition: `Json.Value.Tidy`.
Key theorem: `Json.tidy_readValue`.
-/

namespace Attic

open Attic.Order (Ascends Table)

theorem map_eq_ok {α β ε : Type} {f : α → β} {x : Except ε α} {b : β} :
    x.map f = .ok b ↔ ∃ a, x = .ok a ∧ f a = b := by
  cases x <;> simp [Except.map]

namespace Json

/-- A value in each of whose objects the members are sorted by name, each name once. -/
inductive Value.Tidy : Value → Prop where
  | null : Tidy .null
  | bool (b : Bool) : Tidy (.bool b)
  | number (n : Number) : Tidy (.number n)
  | text (s : String) : Tidy (.text s)
  | list {items : List Value} (each : ∀ v ∈ items, Tidy v) : Tidy (.list items)
  | object {ms : List (String × Value)} (sorted : Ascends Prod.fst ms)
      (each : ∀ m ∈ ms, Tidy m.2) : Tidy (.object ms)

theorem Value.tidy_list_iff {items : List Value} :
    (Value.list items).Tidy ↔ ∀ v ∈ items, v.Tidy :=
  ⟨fun | .list each => each, .list⟩

theorem Value.tidy_object_iff {ms : List (String × Value)} :
    (Value.object ms).Tidy ↔ Ascends Prod.fst ms ∧ ∀ m ∈ ms, m.2.Tidy :=
  ⟨fun | .object sorted each => ⟨sorted, each⟩, fun h => .object h.1 h.2⟩

mutual

theorem Node.tidy_value : ∀ {depth : Nat} {n : Node} {v : Value},
    n.value depth = .ok v → v.Tidy
  | _, .null, _, h => by
    obtain rfl := Except.ok.inj h
    exact .null
  | _, .bool b, _, h => by
    obtain rfl := Except.ok.inj h
    exact .bool b
  | _, .number (some n), _, h => by
    obtain rfl := Except.ok.inj h
    exact .number n
  | _, .text (some s), _, h => by
    obtain rfl := Except.ok.inj h
    exact .text s
  | depth, .list items, v, h => by
    rw [Node.value] at h
    split_ifs at h
    obtain ⟨vs, values, rfl⟩ := map_eq_ok.1 h
    exact .list (Items.tidy_values values)
  | depth, .object members, v, h => by
    rw [Node.value] at h
    split_ifs at h
    obtain ⟨ms, values, rfl⟩ := map_eq_ok.1 h
    obtain ⟨sorted, each⟩ := Members.tidy_values .nil (by simp) values
    exact .object sorted each

theorem Items.tidy_values : ∀ {depth : Nat} {items : Items} {vs : List Value},
    items.values depth = .ok vs → ∀ v ∈ vs, v.Tidy
  | _, .closed, _, h => by
    obtain rfl := Except.ok.inj h
    simp
  | depth, .more item rest, vs, h => by
    rw [Items.values] at h
    split at h
    · simp at h
    · next v value =>
      obtain ⟨ws, values, rfl⟩ := map_eq_ok.1 h
      exact List.forall_mem_cons.2 ⟨Node.tidy_value value, Items.tidy_values values⟩

theorem Members.tidy_values : ∀ {depth : Nat} {members : Members} {done ms : Table Value},
    Ascends Prod.fst done → (∀ m ∈ done, m.2.Tidy) → members.values depth done = .ok ms →
    Ascends Prod.fst ms ∧ ∀ m ∈ ms, m.2.Tidy
  | _, .closed, _, _, sorted, each, h => by
    obtain rfl := Except.ok.inj h
    exact ⟨sorted, each⟩
  | depth, .more name node rest, done, ms, sorted, each, h => by
    unfold Members.values at h
    split at h
    · simp at h
    split at h
    · simp at h
    · next v value =>
      refine Members.tidy_values (Table.ascends_put sorted) (fun m hm => ?_) h
      rcases Table.mem_put hm with rfl | before
      · exact Node.tidy_value value
      · exact each m before

end

/-- What is read of a text has its members sorted. -/
theorem tidy_readValue {cs : List Char} {v : Value} (h : readValue cs = .ok v) : v.Tidy := by
  unfold readValue Document.close at h
  dsimp only at h
  split at h
  · simp at h
  · next w value =>
    split_ifs at h
    obtain rfl := Except.ok.inj h
    exact Node.tidy_value value

end Json
end Attic
