import Attic.Ledger.Event
import Attic.Proofs.Calendar.ReadBack
import Attic.Proofs.Json.ReadBack
import Attic.Proofs.Json.Trailing
import Attic.Text.Blank

/-!
# The line of an event

An event is written as one line, which is read as that event. The line starts
and ends with a brace, so nothing of it is trimmed, and there is no line feed
in it. Behind an event that stands there already it is no event any more.

Key definitions: `Ledger.Event.moment`, `Ledger.Event.texts`.
Key theorems: `Ledger.Event.read_compact`, `Ledger.Event.read_append`.
-/

namespace Attic
namespace Json

theorem writeText_no_line_feed (s : String) : '\n' ∉ writeText s := by
  intro h
  simp only [writeText, List.mem_cons, List.mem_append, List.mem_flatMap, List.not_mem_nil,
    or_false] at h
  rcases h with h | ⟨c, -, h⟩ | h
  · exact absurd h (by decide)
  · exact escapeChar_no_line_feed c h
  · exact absurd h (by decide)

theorem compactMembers_no_line_feed : ∀ ms : List (String × String),
    '\n' ∉ Value.compactMembers (ms.map fun m => (m.1, .text m.2))
  | [] => by simp [Value.compactMembers]
  | m :: ms => by
    have := compactMembers_no_line_feed ms
    simp [Value.compactMembers, Value.compact, writeText_no_line_feed, this]

theorem compact_ofTexts_no_line_feed : ∀ ms : List (String × String),
    '\n' ∉ (Value.ofTexts ms).compact
  | [] => by simp [Value.ofTexts, Value.compact]
  | m :: ms => by
    have := compactMembers_no_line_feed ms
    simp [Value.ofTexts, Value.compact, writeText_no_line_feed, this]

theorem compactMembers_brace : ∀ ms : List (String × Value),
    ∃ cs, Value.compactMembers ms = cs ++ ['\x7d']
  | [] => ⟨[], by simp [Value.compactMembers]⟩
  | (k, v) :: ms => by
    obtain ⟨cs, hcs⟩ := compactMembers_brace ms
    exact ⟨',' :: (writeText k ++ ':' :: (v.compact ++ cs)), by simp [Value.compactMembers, hcs]⟩

/-- An object is written between braces. -/
theorem compact_ofTexts_braces : ∀ ms : List (String × String),
    ∃ cs, (Value.ofTexts ms).compact = '\x7b' :: cs ++ ['\x7d']
  | [] => ⟨[], by simp [Value.ofTexts, Value.compact]⟩
  | m :: ms => by
    obtain ⟨cs, hcs⟩ := compactMembers_brace (ms.map fun m => (m.1, Value.text m.2))
    exact ⟨writeText m.1 ++ ':' :: (writeText m.2 ++ cs), by
      simp [Value.ofTexts, Value.compact, hcs]⟩

end Json

namespace Ledger
namespace Event

/-- The time of an event. -/
def moment : Event → Timestamp
  | .archived _ _ _ archivedAt _ => archivedAt
  | .restored _ _ restoredAt => restoredAt

/-- The members of an event, which are texts. -/
def texts : Event → List (String × String)
  | .archived original archive batch archivedAt reason =>
    [("event", "archived"), ("original_path", original.text), ("archive_path", archive.text),
      ("archive_batch_id", batch), ("archived_at", timeText archivedAt), ("reason", reason)]
  | .restored original batch restoredAt =>
    [("event", "restored"), ("original_path", original.text), ("archive_batch_id", batch),
      ("restored_at", timeText restoredAt)]

theorem json_eq_ofTexts : ∀ e : Event, e.json = Json.Value.ofTexts e.texts
  | .archived .. => rfl
  | .restored .. => rfl

theorem read_ofTexts (e : Event) : Json.Document.read e.json.compact =
    ⟨.object (.ofTexts e.texts), false⟩ := by
  rw [json_eq_ofTexts]
  cases e with
  | archived => exact Json.read_compact_ofTexts _ _ _
  | restored => exact Json.read_compact_ofTexts _ _ _

theorem valueTime_timeText {t : Timestamp} (h : t.isValid = true) :
    valueTime (.text (timeText t)) = .ok t := by
  simp [valueTime, timeText, Timestamp.read?_write h]

theorem ofNode_ofTexts : ∀ {e : Event}, e.moment.isValid = true →
    ofNode (.object (.ofTexts e.texts)) = .ok e
  | .archived original archive batch archivedAt reason, h => by
    have time : valueTime (.text (timeText archivedAt)) = .ok archivedAt := valueTime_timeText h
    have gathered : (Json.Members.ofTexts
        (texts (.archived original archive batch archivedAt reason))).fold Gathered.read
        ⟨none, []⟩ = .ok ⟨some .archived, [("original_path", .text original.text),
          ("archive_path", .text archive.text), ("archive_batch_id", .text batch),
          ("archived_at", .text (timeText archivedAt)), ("reason", .text reason)]⟩ := rfl
    rw [ofNode, gathered]
    simp [Json.required, EventName.fields, onlyMember, ofFields, valueText, time, bind,
      Except.bind, pure, Except.pure]
  | .restored original batch restoredAt, h => by
    have time : valueTime (.text (timeText restoredAt)) = .ok restoredAt := valueTime_timeText h
    have gathered : (Json.Members.ofTexts (texts (.restored original batch restoredAt))).fold
        Gathered.read ⟨none, []⟩ = .ok ⟨some .restored, [("original_path", .text original.text),
          ("archive_batch_id", .text batch), ("restored_at", .text (timeText restoredAt))]⟩ := rfl
    rw [ofNode, gathered]
    simp [Json.required, EventName.fields, onlyMember, ofFields, valueText, time, bind,
      Except.bind, pure, Except.pure]

/-- **An event's line is read as the event.** -/
theorem read_compact {e : Event} (h : e.moment.isValid = true) : read e.json.compact = .ok e := by
  unfold read
  rw [read_ofTexts]
  simp [Json.Document.close, ofNode_ofTexts h]

theorem compact_no_line_feed (e : Event) : '\n' ∉ e.json.compact := by
  rw [json_eq_ofTexts]
  exact Json.compact_ofTexts_no_line_feed _

theorem compact_braces (e : Event) : ∃ cs, e.json.compact = '\x7b' :: cs ++ ['\x7d'] := by
  rw [json_eq_ofTexts]
  exact Json.compact_ofTexts_braces _

/-! ### Events that were read to their end -/

theorem whole_of_fold {σ : Type} {step : σ → String → Json.Node → Except Json.Flaw σ} :
    ∀ {s s' : σ} {members : Json.Members}, members.fold step s = .ok s' → members.whole = true
  | _, _, .closed, _ => rfl
  | _, _, .cut f, h => by simp [Json.Members.fold] at h
  | s, s', .more name value rest, h => by
    unfold Json.Members.fold at h
    cases name with
    | error f => simp at h
    | ok name =>
      cases hs : step s name value with
      | error f => simp [hs] at h
      | ok next =>
        simp only [hs] at h
        rw [Json.Members.whole]
        exact whole_of_fold h

theorem whole_of_values {depth : Nat} : ∀ {items : Json.Items} {vs : List Json.Value},
    items.values depth = .ok vs → items.whole = true
  | .closed, _, _ => rfl
  | .cut f, _, h => by simp [Json.Items.values] at h
  | .more item rest, vs, h => by
    unfold Json.Items.values at h
    cases hi : item.value depth with
    | error f => simp [hi] at h
    | ok v =>
      cases hr : rest.values depth with
      | error f => simp [hi, hr, Except.map] at h
      | ok ws =>
        rw [Json.Items.whole]
        exact whole_of_values hr

/-- What makes up an event is a list or an object that was read to its end. -/
theorem whole_of_ofNode : ∀ {node : Json.Node} {e : Event}, ofNode node = .ok e →
    node.whole = true
  | .object members, e, h => by
    cases hf : members.fold Gathered.read ⟨none, []⟩ with
    | error f => simp [ofNode, hf, bind, Except.bind] at h
    | ok g => exact whole_of_fold hf
  | .list items, e, h => by
    cases items with
    | closed => rfl
    | cut f => simp [ofNode, Json.Items.take, Json.Items.next?, bind, Except.bind] at h
    | more item rest =>
      cases hn : EventName.read item with
      | error f =>
        simp [ofNode, Json.Items.take, Json.Items.next?, hn, bind, Except.bind, Except.map] at h
      | ok name =>
        cases hv : rest.values valueDepth with
        | error f =>
          simp [ofNode, Json.Items.take, Json.Items.next?, hn, hv, bind, Except.bind,
            Except.map] at h
        | ok vs =>
          rw [Json.Node.whole, Json.Items.whole]
          exact whole_of_values hv
  | .null, _, h => by simp [ofNode] at h
  | .bool _, _, h => by simp [ofNode] at h
  | .number _, _, h => by simp [ofNode] at h
  | .text _, _, h => by simp [ofNode] at h
  | .broken _ _, _, h => by simp [ofNode] at h

/-- **Behind an event nothing else may stand on a line.** -/
theorem read_append {cs ext : List Char} {e : Event} (h : read cs = .ok e)
    (more : Json.skipSpace ext ≠ []) : read (cs ++ ext) = .error .malformed := by
  unfold read at h ⊢
  cases hn : ofNode (Json.Document.read cs).root with
  | error f => simp [hn, Json.Document.close] at h
  | ok e' =>
    rw [Json.Document.read_append (whole_of_ofNode hn) more]
    simp [hn, Json.Document.close]

end Event
end Ledger
end Attic
