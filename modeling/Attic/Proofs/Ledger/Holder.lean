import Attic.Ledger.Unreliable
import Mathlib

/-!
# Ledgers outside the tree

A ledger that is not kept in the tree stays when the tree changes, in whatever
way. The ledger in memory is such a ledger, and so it remains when its store
refuses some paths, or takes files away while it is written.

Key definitions: `Ledger.Holder`, `Ledger.Holder.memory`,
`Ledger.Holder.refusing`, `Ledger.Holder.spoiling`, `Ledger.Holder.losing`.
-/

namespace Attic
namespace Ledger

/-- How a store keeps its ledger outside the tree. -/
structure Holder (s : Store) where
  /-- Whether the ledger of a repository has these entries. -/
  holds : Repository → List Entry → Prop
  active : ∀ {r es}, holds r es → s.active r = .ok (es.filter Entry.isActive)
  steady : ∀ {r es}, holds r es → ∀ t, holds { r with tree := t } es
  /-- A mark is refused or made. -/
  mark : ∀ {r es}, holds r es → ∀ path moment,
    (∃ f r', s.markRestored path moment r = (.error f, r') ∧ holds r' es) ∨
    ∃ es' r', markFirst? path moment es = some es' ∧
      s.markRestored path moment r = (.ok (), r') ∧ holds r' es'

namespace Holder

/-- The ledger in memory. -/
def memory : Holder .memory where
  holds r es := r.entries = es
  active := @Store.memory_active
  steady h _ := h
  mark := by
    rintro r es rfl path moment
    cases h : markFirst? path moment r.entries with
    | none => exact .inl ⟨.notActive path, r, by simp only [Store.memory, h], rfl⟩
    | some es' =>
      exact .inr ⟨es', { r with entries := es' }, rfl, by simp only [Store.memory, h], rfl⟩

variable {s : Store} (k : Holder s)

/-- A store that refuses the marks of some paths. -/
def refusing (refused : Path → Bool) : Holder (.refusing refused s) where
  holds := k.holds
  active := k.active
  steady := k.steady
  mark := by
    intro r es holds path moment
    simp only [Store.refusing]
    split
    · exact .inl ⟨Store.refusal, r, rfl, holds⟩
    · exact k.mark holds path moment

/-- A store that takes the restored script away and refuses its mark. -/
def spoiling (root : Path) (spoiled : Path → Bool) : Holder (.spoiling root spoiled s) where
  holds := k.holds
  active := k.active
  steady := k.steady
  mark := by
    intro r es holds path moment
    simp only [Store.spoiling]
    split
    · exact .inl ⟨Store.refusal, _, rfl, k.steady holds _⟩
    · exact k.mark holds path moment

/-- A store that loses the archived copy of a script that it marks. -/
def losing (root : Path) (lost : Path → Bool) : Holder (.losing root lost s) where
  holds := k.holds
  active := k.active
  steady := k.steady
  mark := by
    intro r es holds path moment
    simp only [Store.losing, k.active holds]
    split
    · split
      · exact k.mark holds path moment
      · exact k.mark (k.steady holds _) path moment
    · exact k.mark holds path moment

end Holder
end Ledger
end Attic
