import Attic.Ledger.Store
import Attic.Proofs.Ledger.Lines
import Attic.Proofs.Ledger.Marking
import Attic.Proofs.Tree.Folders
import Attic.Text.Bytes
import Mathlib

/-!
# Writing to a journal and reading it again

A journal holds a text when its file has that text, or when there is no such
file and the text is empty. A write that succeeds appends a line to the text,
and what is read afterwards depends on how the text ended before it.

Key definitions: `Ledger.Journal.Holds`, `Ledger.Journal.Ended`.
Key theorems: `Ledger.Journal.readText_append`, `Ledger.journal_write`.
-/

namespace Attic

namespace Tree

theorem readText_eq_ok {t : Tree} {p : Path} {text : String} :
    t.readText p = .ok text ↔ ∃ mode, t.readFile p = .ok (mode, text.toByteArray) := by
  unfold readText read
  cases h : t.readFile p with
  | error f => simp [Except.map]
  | ok file =>
    obtain ⟨mode, bytes⟩ := file
    simp only [Except.map, Except.ok.injEq, Prod.mk.injEq]
    constructor
    · intro hs
      split at hs
      · next s hb =>
        obtain rfl := Except.ok.inj hs
        unfold String.fromUTF8? at hb
        split at hb
        · obtain rfl := Option.some.inj hb
          exact ⟨mode, rfl, rfl⟩
        · simp at hb
      · simp at hs
    · rintro ⟨-, -, rfl⟩
      rw [Text.fromUTF8?_toByteArray]

end Tree

namespace Ledger
namespace Journal

variable {path : Path} {t t' : Tree} {text : String}

/-- The file at a path has a text; or there is none, making the folder for it
brings none forth, and the text is empty. -/
def Holds (path : Path) (t : Tree) (text : String) : Prop :=
  t.readText path = .ok text ∨
    t.has path = false ∧ (prepare path t).2.has path = false ∧ text = ""

/-- Whether nothing but blanks follows the last line feed of a text. -/
def Ended (text : String) : Prop := Text.trim (Text.unended text.toList) = []

instance (text : String) : Decidable (Ended text) :=
  inferInstanceAs (Decidable (Text.trim (Text.unended text.toList) = []))

theorem not_ended_compact (e : Event) : ¬ Ended (String.ofList e.json.compact) := by
  obtain ⟨cs, braces⟩ := e.compact_braces
  rw [Ended, String.toList_ofList, Text.unended_of_not_mem e.compact_no_line_feed, trim_compact,
    braces]
  simp

theorem has_of_readText (h : t.readText path = .ok text) : t.has path = true := by
  obtain ⟨mode, h⟩ := Tree.readText_eq_ok.1 h
  rw [Tree.readFile_eq_ok] at h
  simp [Tree.has, h]

theorem events_of_holds (h : Holds path t text) : events path t = readEvents path text := by
  rcases h with h | ⟨none, -, rfl⟩
  · rw [events, has_of_readText h, h]
    rfl
  · rw [events, none]
    rfl

/-- The folder of a journal that is there is not made. -/
theorem prepare_of_readText (h : t.readText path = .ok text) : prepare path t = (.ok (), t) := by
  obtain ⟨mode, h⟩ := Tree.readText_eq_ok.1 h
  unfold prepare
  cases hp : path.parent? with
  | none => rfl
  | some q =>
    cases hq : q.isEmpty with
    | true => simp [hq]
    | false => simp [hq, Tree.makeFolders_of_isFolder (Tree.isFolder_parent h hp hq)]

theorem append_eq_ok {e : Event} (h : append path e t = (.ok (), t')) :
    ∃ t₁, prepare path t = (.ok (), t₁) ∧
      t₁.appendFile path e.line.toByteArray = (.ok (), t') := by
  unfold append at h
  cases hp : prepare path t with
  | mk result t₁ =>
    cases result with
    | error f => simp [hp] at h
    | ok =>
      refine ⟨t₁, rfl, ?_⟩
      simp only [hp] at h
      cases ha : t₁.appendFile path e.line.toByteArray with
      | mk result t₂ =>
        cases result with
        | error f => simp [ha] at h
        | ok => simpa [ha] using h

/-- A journal that is there can be written. -/
theorem append_of_readText (h : t.readText path = .ok text) (e : Event) :
    (append path e t).1 = .ok () := by
  obtain ⟨mode, hf⟩ := Tree.readText_eq_ok.1 h
  obtain ⟨t', ht'⟩ := Tree.updateFile_of_readFile hf (· ++ e.line.toByteArray)
  have : t.appendFile path e.line.toByteArray = (.ok (), t') := ht'
  simp [append, prepare_of_readText h, this]

/-- **An append puts the line of the event behind the text.** -/
theorem readText_append {e : Event} (h : Holds path t text)
    (ok : append path e t = (.ok (), t')) : t'.readText path = .ok (text ++ e.line) := by
  obtain ⟨t₁, hp, ha⟩ := append_eq_ok ok
  rw [Tree.readText_eq_ok, String.toByteArray_append]
  rcases Tree.readFile_updateFile ha with ⟨mode, bytes, hb, hw⟩ | ⟨none, hw⟩
  · rcases h with h | ⟨-, stays, rfl⟩
    · have same := prepare_of_readText h
      rw [hp] at same
      obtain rfl := (Prod.mk.inj same).2
      obtain ⟨m, hm⟩ := Tree.readText_eq_ok.1 h
      rw [hm] at hb
      obtain ⟨rfl, rfl⟩ := Prod.mk.inj (Except.ok.inj hb)
      exact ⟨_, hw⟩
    · rw [Tree.readFile_eq_ok] at hb
      simp [hp, Tree.has, hb] at stays
  · rcases h with h | ⟨-, -, rfl⟩
    · have same := prepare_of_readText h
      rw [hp] at same
      obtain rfl := (Prod.mk.inj same).2
      rw [has_of_readText h] at none
      exact Bool.noConfusion none
    · exact ⟨_, hw⟩

/-- A write that succeeds leaves a journal whose text ends with a line feed. -/
theorem unended_line (text : String) (e : Event) :
    Text.unended (text ++ e.line).toList = [] := by
  rw [line_toList]
  exact Text.unended_append_line e.compact_no_line_feed _

/-- The entries of a journal after a write: those that the event makes up, where
the text had an end, and none that can be read elsewhere. -/
theorem entries_append {e : Event} {es : List Entry} (h : Holds path t text)
    (read : entries path t = .ok es) (valid : e.moment.isValid = true)
    (ok : append path e t = (.ok (), t')) : entries path t' =
      if Ended text then .ok (applyEvent es e)
      else .error (.line path (lastLine text) .malformed) := by
  have after := readText_append h ok
  rw [entries, events_of_holds h] at read
  rw [entries, events_of_holds (.inl after)]
  cases hr : readEvents path text with
  | error f => simp [hr, Except.map] at read
  | ok evs =>
    simp only [hr, Except.map, Except.ok.injEq] at read
    rw [readEvents_append_line hr valid]
    by_cases ended : Ended text
    · have blank : Text.trim (Text.unended text.toList) = [] := ended
      rw [if_pos ended, if_pos blank, Except.map, replay_append, read]
    · have event : Text.trim (Text.unended text.toList) ≠ [] := ended
      rw [if_neg ended, if_neg event]
      rfl

end Journal

/-! ### Writes of a store -/

namespace Store

variable {path : Path} {r r' : Repository} {text : String} {es : List Entry}

theorem appendTo_fst (e : Event) : (appendTo path e r).1 = (Journal.append path e r.tree).1 := rfl

theorem record_eq (read : Journal.entries path r.tree = .ok es) (e : Entry) :
    (journal path).record e r =
      if es.any (Entry.isActiveOf e.original) then (.error (.alreadyActive e.original), r)
      else appendTo path (.archived e.original e.archive e.batch e.archivedAt e.reason) r := by
  simp only [journal, read]

theorem markRestored_of_none {original : Path} (read : Journal.entries path r.tree = .ok es)
    (h : es.find? (Entry.isActiveOf original) = none) (moment : Timestamp) :
    (journal path).markRestored original moment r = (.error (.notActive original), r) := by
  simp only [journal, read, h]

theorem markRestored_of_some {original : Path} {e : Entry}
    (read : Journal.entries path r.tree = .ok es)
    (h : es.find? (Entry.isActiveOf original) = some e) (moment : Timestamp) :
    (journal path).markRestored original moment r =
      appendTo path (.restored e.original e.batch moment) r := by
  simp only [journal, read, h]

theorem record_eq_ok {e : Entry} (read : Journal.entries path r.tree = .ok es)
    (h : (journal path).record e r = (.ok (), r')) :
    Journal.append path (.archived e.original e.archive e.batch e.archivedAt e.reason) r.tree =
      (.ok (), r'.tree) := by
  rw [record_eq read] at h
  split at h
  · simp at h
  · simp only [appendTo, Prod.mk.injEq] at h
    obtain ⟨ok, rfl⟩ := h
    exact Prod.ext ok rfl

theorem markRestored_eq_ok {original : Path} {moment : Timestamp}
    (read : Journal.entries path r.tree = .ok es)
    (h : (journal path).markRestored original moment r = (.ok (), r')) :
    ∃ e, es.find? (Entry.isActiveOf original) = some e ∧
      Journal.append path (.restored e.original e.batch moment) r.tree = (.ok (), r'.tree) := by
  cases found : es.find? (Entry.isActiveOf original) with
  | none =>
    rw [markRestored_of_none read found] at h
    simp at h
  | some e =>
    rw [markRestored_of_some read found] at h
    simp only [appendTo, Prod.mk.injEq] at h
    obtain ⟨ok, rfl⟩ := h
    exact ⟨e, rfl, Prod.ext ok rfl⟩

/-- What the event of a restoration makes of the entries. -/
theorem applyEvent_restored {original : Path} {moment : Timestamp} {e : Entry}
    (found : es.find? (Entry.isActiveOf original) = some e) :
    markFirst? original moment es = some (applyEvent es (.restored e.original e.batch moment)) := by
  have active := List.find?_some found
  simp only [Entry.isActiveOf, Bool.and_eq_true] at active
  have some := markFirst?_isSome original moment es
  rw [found, Option.isSome_some, Option.isSome_iff_exists] at some
  obtain ⟨es', h⟩ := some
  rw [applyEvent, markFirst?_congr active.2, h]
  rfl

/-- **What can be read of a journal after a write that succeeded.** Where the
text so far ended with a line feed, but for blanks, the entries are those before
with the new one at the end, or with the first active one of the path marked.
Where an event stood on a last line without an end, the journal cannot be read
any more: the line of the write has become part of that one. -/
theorem journal_after_write (holds : Journal.Holds path r.tree text)
    (read : Journal.entries path r.tree = .ok es) :
    (∀ e r', e.archivedAt.isValid = true → (journal path).record e r = (.ok (), r') →
      Journal.entries path r'.tree =
        if Journal.Ended text then
          .ok (es ++ [.fresh e.original e.archive e.batch e.archivedAt e.reason])
        else .error (.line path (lastLine text) .malformed)) ∧
    ∀ original moment r', moment.isValid = true →
      (journal path).markRestored original moment r = (.ok (), r') →
      ∃ es', markFirst? original moment es = some es' ∧
        Journal.entries path r'.tree =
          if Journal.Ended text then .ok es'
          else .error (.line path (lastLine text) .malformed) := by
  constructor
  · intro e r' valid ok
    have after := Journal.entries_append holds read (by exact valid) (record_eq_ok read ok)
    rw [applyEvent] at after
    exact after
  · intro original moment r' valid ok
    obtain ⟨e, found, append⟩ := markRestored_eq_ok read ok
    have after := Journal.entries_append holds read (by exact valid) append
    exact ⟨_, applyEvent_restored found, after⟩

/-- The entry of a script that was archived from `name`. -/
def sampleEntry (name : String) : Entry :=
  .fresh ⟨name⟩ ⟨".archived_scripts/" ++ name⟩ "b1" ⟨⟨2025, 6, 1⟩, 43200, 0⟩ "unused"

def sampleEvent (name : String) : Event :=
  .archived ⟨name⟩ ⟨".archived_scripts/" ++ name⟩ "b1" ⟨⟨2025, 6, 1⟩, 43200, 0⟩ "unused"

/-- The line of that script, without its end. -/
def sampleText (name : String) : String := String.ofList (sampleEvent name).json.compact

/-- A repository whose journal has one line, which does not end. -/
def sampleUnended : Repository := ⟨⟨[(["ledger"], .file 0o644 (sampleText "a").toByteArray)]⟩, []⟩

/-- There, recording another script succeeds and restoring the one that is
recorded does, and nothing can be read after either. -/
theorem journal_after_write_unended :
    Journal.entries ⟨"ledger"⟩ sampleUnended.tree = .ok [sampleEntry "a"] ∧
    (∃ r', (journal ⟨"ledger"⟩).record (sampleEntry "b") sampleUnended = (.ok (), r') ∧
      Journal.entries ⟨"ledger"⟩ r'.tree = .error (.line ⟨"ledger"⟩ 1 .malformed)) ∧
    ∃ r', (journal ⟨"ledger"⟩).markRestored ⟨"a"⟩ ⟨⟨2025, 6, 2⟩, 0, 0⟩ sampleUnended =
        (.ok (), r') ∧
      Journal.entries ⟨"ledger"⟩ r'.tree = .error (.line ⟨"ledger"⟩ 1 .malformed) := by
  have text : sampleUnended.tree.readText ⟨"ledger"⟩ = .ok (sampleText "a") :=
    Tree.readText_eq_ok.2 ⟨0o644, rfl⟩
  have holds : Journal.Holds ⟨"ledger"⟩ sampleUnended.tree (sampleText "a") := .inl text
  have read : Journal.entries ⟨"ledger"⟩ sampleUnended.tree = .ok [sampleEntry "a"] := by
    rw [Journal.entries, Journal.events_of_holds holds, sampleText, readEvents_compact _ (by decide)]
    rfl
  have number : lastLine (sampleText "a") = 1 := by
    rw [lastLine, sampleText, String.toList_ofList,
      Text.cutEach_of_not_mem (Event.compact_no_line_feed _)]
    rfl
  have unended : ¬ Journal.Ended (sampleText "a") := Journal.not_ended_compact _
  have writable (e : Event) : (Journal.append ⟨"ledger"⟩ e sampleUnended.tree).1 = .ok () :=
    Journal.append_of_readText text e
  have record : ((journal ⟨"ledger"⟩).record (sampleEntry "b") sampleUnended).1 = .ok () := by
    have new : [sampleEntry "a"].any (Entry.isActiveOf (sampleEntry "b").original) = false := by
      decide
    rw [record_eq read, new, if_neg Bool.false_ne_true, appendTo_fst]
    exact writable _
  have mark : ((journal ⟨"ledger"⟩).markRestored ⟨"a"⟩ ⟨⟨2025, 6, 2⟩, 0, 0⟩ sampleUnended).1 =
      .ok () := by
    have active : [sampleEntry "a"].find? (Entry.isActiveOf ⟨"a"⟩) = some (sampleEntry "a") := by
      decide
    rw [markRestored_of_some read active, appendTo_fst]
    exact writable _
  obtain ⟨recorded, marked⟩ := journal_after_write holds read
  rw [number] at recorded marked
  simp only [if_neg unended] at recorded marked
  have pair {x : Except Fault Unit × Repository} (h : x.1 = .ok ()) : x = (.ok (), x.2) := by
    rw [← h]
  have record := pair record
  have mark := pair mark
  obtain ⟨es', -, after⟩ := marked _ _ _ (by decide) mark
  exact ⟨read, ⟨_, record, recorded _ _ (by decide) record⟩, _, mark, after⟩

end Store
end Ledger
end Attic
