import Attic.Proofs.Ledger.Single
import Mathlib

/-!
# Several writes in a row

Scripts that are recorded one after the other add their lines to the text of a
journal. What is read afterwards depends on how the text ended before the first of
them: where it had an end, their entries follow those that were there; where it had
none, nothing can be read any more, however many lines follow.

Key definition: `Ledger.Entry.event`.
Key theorems: `Ledger.readEvents_ended`, `Ledger.readEvents_unended`,
`Ledger.Store.record_holds`.
-/

namespace Attic
namespace Ledger

variable {path : Path} {t : Tree} {text : String} {events more : List Event} {e : Entry}
variable {es : List Entry} {f : Fault} {r : Repository}

/-! ### Events of archived scripts -/

/-- What is written of a script that has been archived. -/
def Entry.event (e : Entry) : Event :=
  .archived e.original e.archive e.batch e.archivedAt e.reason

theorem replay_archived (events : List Event) (new : ∀ e ∈ es, e.isNew = true) :
    replay (events ++ es.map Entry.event) = replay events ++ es := by
  induction es using List.reverseRecOn with
  | nil => simp
  | append_singleton es e ih =>
    have before := ih fun d hd => new d (List.mem_append_left _ hd)
    have last : applyEvent (replay events ++ es) e.event = replay events ++ es ++ [e] :=
      congrArg (replay events ++ es ++ [·]) (Entry.eq_fresh (new e (by simp)))
    rw [List.map_append, ← List.append_assoc, List.map_singleton, replay_append, before, last,
      List.append_assoc]

/-! ### Texts -/

/-- What cannot be read cannot be read with one more line. -/
theorem readEvents_malformed (flat : Text.unended text.toList = [])
    (malformed : readEvents path text = .error f) (e : Event) :
    readEvents path (text ++ e.line) = .error f := by
  have before : eventsOfLines path ((Text.endedLines text.toList).zipIdx 1) = .error f := by
    rw [readEvents, Text.lines_eq, if_pos flat, List.append_nil] at malformed
    exact malformed
  rw [readEvents, line_toList, Text.lines_append_line e.compact_no_line_feed, List.zipIdx_append,
    eventsOfLines_append, before]
  rfl

theorem textOf_append_line (text : String) (events : List Event) (e : Event) :
    text ++ textOf (events ++ [e]) = text ++ textOf events ++ e.line := by
  rw [textOf_concat, String.append_assoc]

/-- A text to which lines have been added has an end if it had one. -/
theorem ended_append_textOf (ended : Journal.Ended text) (events : List Event) :
    Journal.Ended (text ++ textOf events) := by
  rcases List.eq_nil_or_concat events with rfl | ⟨events, e, rfl⟩
  · rwa [textOf, List.foldl_nil, String.append_empty]
  · rw [List.concat_eq_append, textOf_append_line, Journal.Ended, Journal.unended_line]
    rfl

/-- **Behind a text that has an end all lines are read.** -/
theorem readEvents_ended (read : readEvents path text = .ok events) (ended : Journal.Ended text)
    (valid : ∀ e ∈ more, e.moment.isValid = true) :
    readEvents path (text ++ textOf more) = .ok (events ++ more) := by
  induction more using List.reverseRecOn with
  | nil => simpa [textOf] using read
  | append_singleton more e ih =>
    have before := ih fun d hd => valid d (List.mem_append_left _ hd)
    have blank : Text.trim (Text.unended (text ++ textOf more).toList) = [] :=
      ended_append_textOf ended more
    rw [textOf_append_line, readEvents_append_line before (valid e (by simp)), if_pos blank,
      List.append_assoc]

/-- **Behind a text that has no end nothing can be read.** -/
theorem readEvents_unended (read : readEvents path text = .ok events)
    (unended : ¬ Journal.Ended text) (valid : ∀ e ∈ more, e.moment.isValid = true)
    (hne : more ≠ []) : ∃ f, readEvents path (text ++ textOf more) = .error f := by
  induction more using List.reverseRecOn with
  | nil => exact absurd rfl hne
  | append_singleton more e ih =>
    rw [textOf_append_line]
    rcases List.eq_nil_or_concat more with rfl | ⟨before, d, rfl⟩
    · have event : Text.trim (Text.unended text.toList) ≠ [] := unended
      have last := readEvents_append_line read (valid e (by simp))
      rw [if_neg event] at last
      exact ⟨_, by rw [textOf, List.foldl_nil, String.append_empty, last]⟩
    · -- the first line was added to an event, and the later ones do not make up for that
      obtain ⟨f, malformed⟩ := ih (fun d hd => valid d (List.mem_append_left _ hd)) (by simp)
      rw [List.concat_eq_append, textOf_append_line] at malformed ⊢
      exact ⟨f, readEvents_malformed (Journal.unended_line _ d) malformed e⟩

/-! ### Journals -/

/-- A write puts a line behind the text, or leaves the text. -/
theorem Journal.Holds.append (h : Journal.Holds path t text) (event : Event) :
    (∃ t', Journal.append path event t = (.ok (), t') ∧
      Journal.Holds path t' (text ++ event.line)) ∨
    ∃ f t', Journal.append path event t = (.error f, t') ∧ Journal.Holds path t' text := by
  cases ha : Journal.append path event t with
  | mk result t' =>
  cases result with
  | ok => exact .inl ⟨t', rfl, .inl (Journal.readText_append h ha)⟩
  | error f =>
    refine .inr ⟨f, t', rfl, ?_⟩
    obtain rfl := Journal.append_error ha
    rcases h with there | ⟨-, still, empty⟩
    · have done := Journal.append_of_readText there event
      simp [ha] at done
    · exact .inr ⟨still, by rw [Journal.prepare_again, still], empty⟩

/-- A record puts the line of the entry behind the text, or leaves the text. -/
theorem Store.record_holds (h : Journal.Holds path r.tree text) (e : Entry) :
    (∃ r', (journal path).record e r = (.ok (), r') ∧
      Journal.Holds path r'.tree (text ++ e.event.line)) ∨
    ∃ f r', (journal path).record e r = (.error f, r') ∧ Journal.Holds path r'.tree text := by
  cases read : Journal.entries path r.tree with
  | error f => exact .inr ⟨f, r, by simp only [journal, read], h⟩
  | ok es =>
    rw [record_eq read]
    split
    · exact .inr ⟨_, r, rfl, h⟩
    · rcases h.append e.event with ⟨t', done, holds⟩ | ⟨f, t', failed, holds⟩
      · refine .inl ⟨{ r with tree := t' }, ?_, holds⟩
        rw [appendTo, ← Entry.event, done]
      · refine .inr ⟨f, { r with tree := t' }, ?_, holds⟩
        rw [appendTo, ← Entry.event, failed]

/-- **The entries of a journal to which lines have been added.** -/
theorem Journal.entries_holds {t' : Tree} (h : Journal.Holds path t text)
    (read : Journal.entries path t = .ok es) {new : List Entry}
    (fresh : ∀ e ∈ new, e.isNew = true) (valid : ∀ e ∈ new, e.archivedAt.isValid = true)
    (h' : Journal.Holds path t' (text ++ textOf (new.map Entry.event))) :
    (Journal.Ended text ∨ new = [] → Journal.entries path t' = .ok (es ++ new)) ∧
      (¬ (Journal.Ended text ∨ new = []) → ∃ f, Journal.entries path t' = .error f) := by
  rw [Journal.entries, Journal.events_of_holds h] at read
  rw [Journal.entries, Journal.events_of_holds h']
  have valid' : ∀ e ∈ new.map Entry.event, e.moment.isValid = true := by
    intro event hevent
    obtain ⟨e, he, rfl⟩ := List.mem_map.1 hevent
    exact valid e he
  cases events : readEvents path text with
  | error f => simp [events, Except.map] at read
  | ok evs =>
    simp only [events, Except.map, Except.ok.injEq] at read
    constructor
    · rintro (ended | rfl)
      · rw [readEvents_ended events ended valid', Except.map, replay_archived evs fresh, read]
      · simp [textOf, events, Except.map, read]
    · intro neither
      obtain ⟨unended, some⟩ := not_or.1 neither
      obtain ⟨f, malformed⟩ := readEvents_unended events unended valid' (by simpa using some)
      exact ⟨f, by rw [malformed]; rfl⟩

end Ledger
end Attic
