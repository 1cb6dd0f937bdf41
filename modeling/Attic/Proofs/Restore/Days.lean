import Attic.Proofs.Restore.Accounts
import Attic.Proofs.Text.Ends
import Mathlib

/-!
# Ranges of days

A range of days is read as it is described: two days of the calendar as they are
written, with two dots between them and any blanks around each, are read as that range
if the first day is not after the last one, and are refused otherwise. A single day is
read as the range of that day. What a store lists for a range it has read is what it
lists as active and was archived neither before the first day nor after the last one.

A written day has no dot and no blank, be its year signed or not, so the first two dots
are those between the days, and trimming leaves the day.

Key definitions: `Date.order`, `Date.StandsIn`.
Key theorem: `Restore.readDates_described`.
-/

namespace Attic

namespace Date

variable {d e : Date} {cs : List Char} {c : Char}

/-- The place of a day in the calendar: days go by year, month and day of the month. -/
def order (d : Date) : ℤ ×ₗ ℕ ×ₗ ℕ := toLex (d.year, toLex (d.month, d.day))

theorem before_eq_false_iff : d.before e = false ↔ e.order ≤ d.order := by
  rw [← not_lt, ← Bool.not_eq_true]
  exact not_congr (before_byKey d e)

/-- Whether a text says a day and nothing else: the day as it is written, with blanks at
most around it. -/
def StandsIn (d : Date) (cs : List Char) : Prop :=
  ∃ a b, (∀ c ∈ a ++ b, Text.isBlank c = true) ∧ cs = a ++ d.write ++ b

theorem standsIn_write (d : Date) : d.StandsIn d.write := ⟨[], [], by simp, by simp⟩

theorem write_ne_nil (d : Date) : d.write ≠ [] := List.ne_nil_of_mem (dash_mem_write d)

theorem isBlank_of_mem_write (h : c ∈ d.write) : Text.isBlank c = false := by
  rcases mem_write h with digit | rfl | rfl
  · exact Text.isBlank_of_isDigit digit
  · rfl
  · rfl

theorem dot_not_mem_write (d : Date) : '.' ∉ d.write := by
  intro h
  rcases mem_write h with digit | dash | plus
  · exact absurd digit (by decide)
  · exact absurd dash (by decide)
  · exact absurd plus (by decide)

/-- The blanks around a day are trimmed off. -/
theorem StandsIn.trim (h : d.StandsIn cs) : Text.trim cs = d.write := by
  obtain ⟨a, b, blank, rfl⟩ := h
  exact Text.trim_blanks (write_ne_nil d) (fun _ => isBlank_of_mem_write)
    (fun c hc => blank c (List.mem_append_left b hc))
    (fun c hc => blank c (List.mem_append_right a hc))

theorem StandsIn.read? (h : d.StandsIn cs) (valid : d.isValid = true) :
    Date.read? (Text.trim cs) = some d := by
  rw [h.trim, read?_write valid]

/-- A text that says a day has no dot. -/
theorem StandsIn.dot_not_mem (h : d.StandsIn cs) : '.' ∉ cs := by
  obtain ⟨a, b, blank, rfl⟩ := h
  have dotless {u : List Char} (all : ∀ c ∈ u, Text.isBlank c = true) : '.' ∉ u :=
    fun there => absurd (all _ there) (by decide)
  rw [List.mem_append, List.mem_append, not_or, not_or]
  exact ⟨⟨dotless fun c hc => blank c (List.mem_append_left b hc), dot_not_mem_write d⟩,
    dotless fun c hc => blank c (List.mem_append_right a hc)⟩

end Date

namespace Restore

variable {first last : Date} {u v : List Char}

/-- Two days with two dots between them are read if the first one is not the later. -/
theorem readDates_pair (valid : first.isValid = true) (valid' : last.isValid = true)
    (hu : first.StandsIn u) (hv : last.StandsIn v) :
    readDates (String.ofList (u ++ ['.', '.'] ++ v)) =
      if first.order ≤ last.order then .ok (first, last)
      else .error (.badDates (String.ofList (u ++ ['.', '.'] ++ v))) := by
  have cut : Text.cutFirst? ['.', '.'] (u ++ ['.', '.'] ++ v) = some (u, v) := by
    rw [List.append_assoc]
    exact Text.cutFirst?_append ['.'] v hu.dot_not_mem
  unfold readDates
  rw [String.toList_ofList, cut]
  simp only [hu.read? valid, hv.read? valid', Option.bind_some, Option.map_some]
  by_cases sorted : first.order ≤ last.order
  · rw [if_pos sorted, Date.before_eq_false_iff.2 sorted, if_neg Bool.false_ne_true]
  · have turned : last.before first = true := by
      rw [← Bool.not_eq_false, Date.before_eq_false_iff]
      exact sorted
    rw [if_neg sorted, if_pos turned]

/-- One day is read as the range of that day. -/
theorem readDates_single (valid : first.isValid = true) (hu : first.StandsIn u) :
    readDates (String.ofList u) = .ok (first, first) := by
  have uncut : Text.cutFirst? ['.', '.'] u = none :=
    Text.cutFirst?_eq_none fun occurs => hu.dot_not_mem (occurs.subset List.mem_cons_self)
  unfold readDates
  rw [String.toList_ofList, uncut]
  simp only [hu.read? valid, Option.map_some]
  rw [Date.before_eq_false_iff.2 le_rfl, if_neg Bool.false_ne_true]

/-- The entries of a range were archived in the closed interval of its days. -/
theorem ofDates_eq (store : Ledger.Store) (first last : Date) (r : Repository) :
    store.ofDates first last r = (store.active r).map fun es =>
      es.filter fun e => e.archivedAt.date.order ∈ Set.Icc first.order last.order := by
  rw [Ledger.Store.ofDates]
  refine congrArg (fun f => (store.active r).map (List.filter f)) (funext fun e => ?_)
  rw [Bool.eq_iff_iff, decide_eq_true_eq, Set.mem_Icc, Ledger.Entry.archivedWithin,
    Bool.and_eq_true, Bool.not_eq_true', Bool.not_eq_true', Date.before_eq_false_iff,
    Date.before_eq_false_iff]

/-- **A range of days is read as it is described**, with or without blanks around its two
days, and refused if they are not in order; a single day is read as the range of that day.
A store lists for the range that was read the active entries archived on its days, both
ends included. -/
theorem readDates_described (valid : first.isValid = true) (valid' : last.isValid = true)
    (hu : first.StandsIn u) (hv : last.StandsIn v) :
    (Criteria.dates first last).describe =
      "dates " ++ String.ofList (first.write ++ ['.', '.'] ++ last.write) ∧
    first.StandsIn first.write ∧ last.StandsIn last.write ∧
    readDates (String.ofList (u ++ ['.', '.'] ++ v)) =
      (if first.order ≤ last.order then .ok (first, last)
        else .error (.badDates (String.ofList (u ++ ['.', '.'] ++ v)))) ∧
    readDates (String.ofList u) = .ok (first, first) ∧
    (first.order ≤ last.order → ∃ range, readDates (String.ofList (u ++ ['.', '.'] ++ v)) =
        .ok range ∧ ∀ (store : Ledger.Store) (r : Repository),
      store.ofDates range.1 range.2 r = (store.active r).map fun es =>
        es.filter fun e => e.archivedAt.date.order ∈ Set.Icc first.order last.order) := by
  have pair := readDates_pair valid valid' hu hv
  refine ⟨?_, first.standsIn_write, last.standsIn_write, pair, readDates_single valid hu,
    fun sorted => ⟨(first, last), ?_, fun store r => ofDates_eq store first last r⟩⟩
  · rw [Criteria.describe, String.ofList_append, String.ofList_append, String.append_assoc,
      String.append_assoc, String.append_assoc]
  · rw [pair, if_pos sorted]

def earlyEntry (path : String) (day : Date) : Ledger.Entry :=
  .fresh ⟨path⟩ ⟨path⟩ "b" ⟨day, 86399, 0⟩ "cleanup"

/-- Years before 0 and after 9999, with blanks around both days: the range is read, the
same days the other way round are refused, and the ledger in memory lists what was archived
on its first and last day but not what was archived the day before or after. -/
theorem readDates_described_signed :
    (Criteria.dates ⟨-5, 2, 28⟩ ⟨10000, 1, 1⟩).describe = "dates -0005-02-28..+10000-01-01" ∧
    readDates " -0005-02-28\t..\u3000+10000-01-01\n" = .ok (⟨-5, 2, 28⟩, ⟨10000, 1, 1⟩) ∧
    readDates "\u3000+10000-01-01\n.. -0005-02-28\t" =
      .error (.badDates "\u3000+10000-01-01\n.. -0005-02-28\t") ∧
    readDates " -0005-02-28\t" = .ok (⟨-5, 2, 28⟩, ⟨-5, 2, 28⟩) ∧
    ∃ range, readDates " -0005-02-28\t..\u3000+10000-01-01\n" = .ok range ∧
      Ledger.Store.memory.ofDates range.1 range.2 ⟨⟨[]⟩, [earlyEntry "a" ⟨-5, 2, 27⟩,
        earlyEntry "b" ⟨-5, 2, 28⟩, earlyEntry "c" ⟨10000, 1, 1⟩,
        earlyEntry "d" ⟨10000, 1, 2⟩]⟩ =
        .ok [earlyEntry "b" ⟨-5, 2, 28⟩, earlyEntry "c" ⟨10000, 1, 1⟩] := by
  have hu : Date.StandsIn ⟨-5, 2, 28⟩ " -0005-02-28\t".toList :=
    ⟨[' '], ['\t'], by simp [Text.isBlank], by decide +kernel⟩
  have hv : Date.StandsIn ⟨10000, 1, 1⟩ "\u3000+10000-01-01\n".toList :=
    ⟨['\u3000'], ['\n'], by simp [Text.isBlank], by decide +kernel⟩
  have valid : Date.isValid ⟨-5, 2, 28⟩ = true := by decide
  have valid' : Date.isValid ⟨10000, 1, 1⟩ = true := by decide
  have sorted : Date.order ⟨-5, 2, 28⟩ ≤ Date.order ⟨10000, 1, 1⟩ := by decide
  obtain ⟨said, -, -, read, single, listed⟩ := readDates_described valid valid' hu hv
  obtain ⟨range, reads, lists⟩ := listed sorted
  obtain ⟨-, -, -, turned, -⟩ := readDates_described valid' valid hv hu
  rw [if_pos sorted] at read
  rw [if_neg (by decide)] at turned
  refine ⟨said, read, turned, single, range, reads, ?_⟩
  rw [lists]
  decide +kernel

end Restore
end Attic
