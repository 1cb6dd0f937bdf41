import Attic.Ledger.Journal
import Mathlib

/-!
# Marking an entry as restored

The first active entry of a path is marked and every other entry keeps its
place and its text.

Key theorems: `Ledger.markFirst?_first`, `Ledger.markFirst?_eq_some`.
-/

namespace Attic
namespace Ledger

theorem isActiveOf_congr {p q : Path} (h : p.same q = true) :
    Entry.isActiveOf p = Entry.isActiveOf q := by
  funext e
  rw [Entry.isActiveOf, Entry.isActiveOf]
  congr 1
  rw [Bool.eq_iff_iff]
  exact ⟨fun he => Path.same_trans he h, fun he => Path.same_trans he (Path.same_symm h)⟩

theorem markFirst?_congr {p q : Path} (h : p.same q = true) (moment : Timestamp) :
    ∀ es : List Entry, markFirst? p moment es = markFirst? q moment es
  | [] => rfl
  | e :: es => by rw [markFirst?, markFirst?, isActiveOf_congr h, markFirst?_congr h moment es]

/-- An entry is marked where one is active for the path. -/
theorem markFirst?_isSome (p : Path) (moment : Timestamp) : ∀ es : List Entry,
    (markFirst? p moment es).isSome = (es.find? (Entry.isActiveOf p)).isSome
  | [] => rfl
  | e :: es => by
    have ih := markFirst?_isSome p moment es
    rw [markFirst?, List.find?_cons]
    cases he : e.isActiveOf p with
    | true => rfl
    | false => simpa using ih

theorem exists_markFirst? {p : Path} {es : List Entry} (moment : Timestamp)
    (active : ∃ e ∈ es, e.isActiveOf p = true) : ∃ es', markFirst? p moment es = some es' := by
  rw [← Option.isSome_iff_exists, markFirst?_isSome, List.find?_isSome]
  exact active

/-- The entry that is marked is the first that is active for the path. -/
theorem markFirst?_first {p : Path} {moment : Timestamp} : ∀ {es es' : List Entry},
    markFirst? p moment es = some es' → ∃ j e, es[j]? = some e ∧ e.isActiveOf p = true ∧
      (∀ d ∈ es.take j, ¬ d.isActiveOf p = true) ∧ es' = es.set j (e.restore moment)
  | [], es', h => by simp [markFirst?] at h
  | e :: es, es', h => by
    rw [markFirst?] at h
    split at h
    · next active =>
      obtain rfl := Option.some.inj h
      exact ⟨0, e, rfl, active, by simp, rfl⟩
    · next idle =>
      obtain ⟨rest, hrest, rfl⟩ := Option.map_eq_some_iff.1 h
      obtain ⟨j, e', there, active, before, rfl⟩ := markFirst?_first hrest
      exact ⟨j + 1, e', there, active, List.forall_mem_cons.2 ⟨idle, before⟩, rfl⟩

/-- **One entry is marked**, which was active for the path. -/
theorem markFirst?_eq_some {p : Path} {moment : Timestamp} {es es' : List Entry}
    (h : markFirst? p moment es = some es') : ∃ j e, es[j]? = some e ∧ e.isActiveOf p = true ∧
      es' = es.set j (e.restore moment) := by
  obtain ⟨j, e, there, active, -, marked⟩ := markFirst?_first h
  exact ⟨j, e, there, active, marked⟩

end Ledger
end Attic
