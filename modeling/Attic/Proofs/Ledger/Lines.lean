import Attic.Ledger.Journal
import Attic.Proofs.Ledger.Line
import Mathlib.Data.List.TakeWhile

/-!
# Appending a line to a journal's text

The line of an event that is appended stands on a line of its own where the
text before it ends with a line feed. Otherwise it goes on the last line: that
does no harm if the line is blank so far, and makes the journal unreadable if
an event stands there.

Key definition: `Text.unended`.
Key theorems: `Text.lines_append_line`, `Ledger.eventsOfLines_append`,
`Ledger.readEvents_append_line`.
-/

namespace Attic
namespace Text

/-- What follows the last line feed. -/
def unended (cs : List Char) : List Char := (cutEach '\n' cs).getLastD []

theorem cutEach_append_line {line : List Char} (h : '\n' ∉ line) : ∀ cs : List Char,
    cutEach '\n' (cs ++ (line ++ ['\n'])) =
      (cutEach '\n' cs).dropLast ++ [unended cs ++ line, []]
  | [] => by
    rw [List.nil_append, cutEach_append [] h]
    rfl
  | c :: cs => by
    have ih := cutEach_append_line h cs
    rw [List.cons_append, cutEach_cons, ih, unended, unended, cutEach_cons]
    cases hp : cutEach '\n' cs with
    | nil => exact absurd hp (cutEach_ne_nil '\n' cs)
    | cons p ps =>
      by_cases hc : c = '\n'
      · cases ps <;> simp [cutStep, hc]
      · cases ps <;> simp [cutStep, hc]

theorem dropLast_append_unended (cs : List Char) :
    (cutEach '\n' cs).dropLast ++ [unended cs] = cutEach '\n' cs := by
  cases hp : cutEach '\n' cs with
  | nil => exact absurd hp (cutEach_ne_nil '\n' cs)
  | cons p ps =>
    rw [unended, hp, List.getLastD_cons, ← List.getLast_eq_getLastD (List.cons_ne_nil p ps)]
    exact List.dropLast_concat_getLast (List.cons_ne_nil p ps)

/-- A line of the text that has an end. -/
def endedLines (cs : List Char) : List (List Char) := (cutEach '\n' cs).dropLast.map dropReturn

theorem lines_eq (cs : List Char) :
    lines cs = endedLines cs ++ if unended cs = [] then [] else [unended cs] := by
  have h := dropLast_append_unended cs
  have last : (cutEach '\n' cs).getLast? = some (unended cs) := by
    rw [← h]
    simp
  rw [lines, endedLines]
  simp only [last]
  cases unended cs <;> simp

/-- A text without line feeds is one line without an end. -/
theorem unended_of_not_mem {cs : List Char} (h : '\n' ∉ cs) : unended cs = cs := by
  simp [unended, cutEach_of_not_mem h]

theorem endedLines_of_not_mem {cs : List Char} (h : '\n' ∉ cs) : endedLines cs = [] := by
  simp [endedLines, cutEach_of_not_mem h]

theorem dropReturn_of_last {cs : List Char} {c : Char} (h : c ≠ '\r') :
    dropReturn (cs ++ [c]) = cs ++ [c] := by
  simp [dropReturn, h]

/-- A line that is appended goes on what follows the last line feed. -/
theorem lines_append_line {line : List Char} (h : '\n' ∉ line) (cs : List Char) :
    lines (cs ++ (line ++ ['\n'])) = endedLines cs ++ [dropReturn (unended cs ++ line)] := by
  simp [lines, endedLines, cutEach_append_line h]

theorem unended_append_line {line : List Char} (h : '\n' ∉ line) (cs : List Char) :
    unended (cs ++ (line ++ ['\n'])) = [] := by
  simp [unended, cutEach_append_line h]

/-- Nothing follows the line feed at the end of a text. -/
theorem unended_of_end (cs : List Char) : unended (cs ++ ['\n']) = [] := by
  have h := unended_append_line (List.not_mem_nil (a := '\n')) cs
  rwa [List.nil_append] at h

/-! ### Blanks around what is appended -/

/-- Trimming at the end takes nothing away that trimming at the start has kept. -/
theorem trim_eq_nil {cs : List Char} : trim cs = [] ↔ trimStart cs = [] := by
  constructor
  · intro h
    rw [trim, trimEnd, List.reverse_eq_nil_iff, List.dropWhile_eq_nil_iff] at h
    by_contra hne
    have head := List.head_dropWhile_not isBlank (l := cs) hne
    have blank := h _ (List.mem_reverse.2 (List.head_mem hne))
    unfold trimStart at blank
    rw [head] at blank
    exact absurd blank (by decide)
  · intro h
    rw [trim, h]
    rfl

/-- What is trimmed at the end are blanks. -/
theorem trimStart_eq_trim_append (cs : List Char) : ∃ ws, trimStart cs = trim cs ++ ws := by
  refine ⟨((trimStart cs).reverse.takeWhile isBlank).reverse, ?_⟩
  rw [trim, trimEnd, ← List.reverse_append, List.takeWhile_append_dropWhile, List.reverse_reverse]

/-- Blanks before a text that neither starts nor ends with one are trimmed, and
nothing else is. -/
theorem trim_append {us cs : List Char} {c d : Char} (hc : isBlank c = false)
    (hd : isBlank d = false) :
    trim (us ++ (c :: cs ++ [d])) = trimStart us ++ (c :: cs ++ [d]) := by
  have start : trimStart (us ++ (c :: cs ++ [d])) = trimStart us ++ (c :: cs ++ [d]) := by
    rw [trimStart, List.dropWhile_append]
    split
    · next h =>
      rw [List.isEmpty_iff] at h
      rw [trimStart, h, List.nil_append, List.cons_append, List.dropWhile_cons, hc]
      rfl
    · rfl
  rw [trim, start, ← List.append_assoc, trimEnd_of_last hd]

end Text

namespace Ledger

/-- The events of lines and of further lines. -/
theorem eventsOfLines_append (path : Path) (more : List (List Char × Nat)) :
    ∀ ls : List (List Char × Nat), eventsOfLines path (ls ++ more) =
      (eventsOfLines path ls).bind fun es => (eventsOfLines path more).map (es ++ ·)
  | [] => by
    cases hm : eventsOfLines path more <;> simp [eventsOfLines, hm, Except.bind, Except.map]
  | (l, n) :: ls => by
    have ih := eventsOfLines_append path more ls
    rw [List.cons_append, eventsOfLines, eventsOfLines, ih]
    cases Text.trim l with
    | nil => rfl
    | cons c cs =>
      cases hr : Event.read (c :: cs) with
      | error flaw => simp only [hr, Except.bind]
      | ok e =>
        simp only [hr]
        cases eventsOfLines path ls with
        | error f => rfl
        | ok es =>
          cases eventsOfLines path more with
          | error f => rfl
          | ok fs => rfl

/-- One line on its own. -/
theorem eventsOfLines_one {path : Path} {l cs : List Char} (n : Nat) (h : Text.trim l = cs)
    (hne : cs ≠ []) : eventsOfLines path [(l, n)] = match Event.read cs with
      | .error flaw => .error (.line path n flaw)
      | .ok e => .ok [e] := by
  obtain ⟨c, rest, rfl⟩ := List.exists_cons_of_ne_nil hne
  simp only [eventsOfLines, h]
  cases Event.read (c :: rest) <;> rfl

theorem eventsOfLines_blank {path : Path} {l : List Char} (n : Nat) (h : Text.trim l = []) :
    eventsOfLines path [(l, n)] = .ok [] := by
  simp [eventsOfLines, h]

/-- The number that the line after the last line feed has. -/
def lastLine (text : String) : Nat := (Text.cutEach '\n' text.toList).length

theorem lastLine_eq (text : String) : 1 + (Text.endedLines text.toList).length = lastLine text := by
  have := List.length_pos_iff.2 (Text.cutEach_ne_nil '\n' text.toList)
  simp only [Text.endedLines, lastLine, List.length_map, List.length_dropLast]
  omega

/-- What a journal's text says of its last line, which may have no end. -/
theorem readEvents_eq (path : Path) (text : String) : readEvents path text =
    (eventsOfLines path ((Text.endedLines text.toList).zipIdx 1)).bind fun es =>
      (eventsOfLines path [(Text.unended text.toList, lastLine text)]).map (es ++ ·) := by
  rw [readEvents, Text.lines_eq]
  split
  · next h =>
    rw [h, List.append_nil, eventsOfLines_blank _ (by rfl)]
    cases eventsOfLines path ((Text.endedLines text.toList).zipIdx 1) <;>
      simp [Except.bind, Except.map]
  · rw [List.zipIdx_append, eventsOfLines_append, lastLine_eq]
    rfl

theorem line_toList (text : String) (e : Event) :
    (text ++ e.line).toList = text.toList ++ (e.json.compact ++ ['\n']) := by
  simp [Event.line]

theorem trim_compact (e : Event) : Text.trim e.json.compact = e.json.compact := by
  obtain ⟨cs, braces⟩ := e.compact_braces
  rw [braces]
  exact Text.trim_of_ends (by decide) (by decide)

/-- A journal of one event whose line has no end. -/
theorem readEvents_compact (path : Path) {e : Event} (valid : e.moment.isValid = true) :
    readEvents path (String.ofList e.json.compact) = .ok [e] := by
  obtain ⟨cs, braces⟩ := e.compact_braces
  have flat := e.compact_no_line_feed
  rw [readEvents_eq, String.toList_ofList, Text.unended_of_not_mem flat,
    Text.endedLines_of_not_mem flat, eventsOfLines_one _ (trim_compact e) (by simp [braces]),
    Event.read_compact valid]
  rfl

/-- **A journal with one more line.** The event counts as the last one where
what follows the last line feed is blank; elsewhere the line is malformed. -/
theorem readEvents_append_line {path : Path} {text : String} {es : List Event} {e : Event}
    (h : readEvents path text = .ok es) (valid : e.moment.isValid = true) :
    readEvents path (text ++ e.line) =
      if Text.trim (Text.unended text.toList) = [] then .ok (es ++ [e])
      else .error (.line path (lastLine text) .malformed) := by
  obtain ⟨cs, braces⟩ := e.compact_braces
  have flat := e.compact_no_line_feed
  have open' : Text.isBlank '\x7b' = false := by decide
  have close' : Text.isBlank '\x7d' = false := by decide
  have kept : Text.dropReturn (Text.unended text.toList ++ e.json.compact) =
      Text.unended text.toList ++ e.json.compact := by
    rw [braces, ← List.append_assoc]
    exact Text.dropReturn_of_last (by decide)
  have trimmed : Text.trim (Text.unended text.toList ++ e.json.compact) =
      Text.trimStart (Text.unended text.toList) ++ e.json.compact := by
    rw [braces]
    exact Text.trim_append open' close'
  have appended : readEvents path (text ++ e.line) =
      (eventsOfLines path ((Text.endedLines text.toList).zipIdx 1)).bind fun es =>
        (eventsOfLines path [(Text.unended text.toList ++ e.json.compact, lastLine text)]).map
          (es ++ ·) := by
    rw [readEvents, line_toList, Text.lines_append_line flat, kept, List.zipIdx_append,
      eventsOfLines_append, lastLine_eq]
    rfl
  rw [readEvents_eq] at h
  rw [appended]
  cases hp : eventsOfLines path ((Text.endedLines text.toList).zipIdx 1) with
  | error f => simp [hp, Except.bind] at h
  | ok ps =>
    simp only [hp, Except.bind] at h ⊢
    split
    · next blank =>
      rw [eventsOfLines_blank _ blank] at h
      simp only [Except.map, List.append_nil, Except.ok.injEq] at h
      rw [Text.trim_eq_nil.1 blank, List.nil_append] at trimmed
      rw [eventsOfLines_one _ trimmed (by simp [braces]), Event.read_compact valid]
      simp [Except.map, h]
    · next event =>
      obtain ⟨ws, hws⟩ := Text.trimStart_eq_trim_append (Text.unended text.toList)
      rw [eventsOfLines_one _ rfl event] at h
      cases hr : Event.read (Text.trim (Text.unended text.toList)) with
      | error flaw => simp [hr, Except.map] at h
      | ok last =>
        have more : Json.skipSpace (ws ++ e.json.compact) ≠ [] := by
          intro h0
          rw [Json.skipSpace, List.dropWhile_eq_nil_iff] at h0
          exact absurd (h0 '\x7b' (by simp [braces])) (by decide)
        rw [hws, List.append_assoc] at trimmed
        rw [eventsOfLines_one _ trimmed (by simp [braces]), Event.read_append hr more]
        rfl

end Ledger
end Attic
