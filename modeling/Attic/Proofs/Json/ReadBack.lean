import Attic.Json.Shape
import Attic.Json.Write

/-!
# Written objects of texts are read back

What is written for a text is read as that text, whatever its characters are,
and the one line of an object whose members are texts is read as these members
in their order. Nothing that is written breaks the line.

Key definitions: `Json.Members.ofTexts`, `Json.Value.ofTexts`.
Key theorems: `Json.readText_writeText`, `Json.readMembers_write`,
`Json.read_compact_ofTexts`.
-/

namespace Attic
namespace Json

/-! ### Texts -/

theorem hexValue?_hexDigit : ∀ n < 16, hexValue? (hexDigit n) = some n := by decide

theorem hexWord?_control {n : Nat} (h : n < 32) :
    hexWord? '0' '0' (hexDigit (n / 16)) (hexDigit (n % 16)) = some n := by
  have zero : hexValue? '0' = some 0 := rfl
  simp only [hexWord?, zero, hexValue?_hexDigit (n / 16) (by omega),
    hexValue?_hexDigit (n % 16) (by omega), Option.bind_eq_bind, Option.bind_some]
  congr 1
  omega

/-- A code unit below the surrogates is a character. -/
theorem pushUnit_control (out : List Char) {c : Char} (h : c.toNat < 32) :
    Spelled.pushUnit ⟨out, none, none⟩ c.toNat = ⟨c :: out, none, none⟩ := by
  have low : ¬ 0xDC00 ≤ c.toNat := by omega
  have high : ¬ 0xD800 ≤ c.toNat := by omega
  simp [Spelled.pushUnit, low, high, Char.ofNat_toNat]

/-- A character that neither ends the text nor starts an escape. -/
theorem readText_plain (s : Spelled) {c : Char} (cs : List Char) (quote : c ≠ '\x22')
    (back : c ≠ '\\') : readText s (c :: cs) =
      if c.toNat < 32 then .error (s.break .malformed false) else readText (s.push c) cs := by
  rw [readText.eq_def]
  split <;> simp_all

/-- An escape of one letter. -/
theorem readText_letter (s : Spelled) {e : Char} (cs : List Char) (unit : e ≠ 'u') :
    readText s ('\\' :: e :: cs) = match simpleEscape? e with
      | some c => readText (s.push c) cs
      | none => .error (s.break .malformed false) := by
  rw [readText.eq_def]
  split
  case h_6 h =>
    obtain ⟨-, rfl, rfl⟩ : '\\' = '\\' ∧ _ = e ∧ _ = cs := by simpa [eq_comm] using h
    rfl
  case h_7 letter h =>
    obtain ⟨rfl, rfl⟩ := List.cons.inj h
    exact (letter _ _ rfl rfl).elim
  all_goals simp_all

/-- What is written for a character is read as that character. -/
theorem readText_escapeChar (out : List Char) (c : Char) (rest : List Char) :
    readText ⟨out, none, none⟩ (escapeChar c ++ rest) = readText ⟨c :: out, none, none⟩ rest := by
  unfold escapeChar
  split
  case h_8 quote back _ _ _ _ _ =>
    split
    · next control => simp [readText, hexWord?_control control, pushUnit_control out control]
    · next plain =>
      rw [List.singleton_append, readText_plain _ _ quote back, if_neg plain]
      rfl
  all_goals simp [readText, simpleEscape?, Spelled.push]

theorem readText_escaped (rest : List Char) : ∀ (cs out : List Char),
    readText ⟨out, none, none⟩ (cs.flatMap escapeChar ++ '\x22' :: rest) =
      .ok (some (String.ofList (out.reverse ++ cs)), rest)
  | [], out => by simp [readText]
  | c :: cs, out => by
    rw [List.flatMap_cons, List.append_assoc, readText_escapeChar, readText_escaped rest cs]
    simp

/-- A written text is read back from after its opening quote. -/
theorem readText_writeText (s : String) (rest : List Char) :
    ∃ body, writeText s ++ rest = '\x22' :: body ∧
      readText ⟨[], none, none⟩ body = .ok (some s, rest) := by
  refine ⟨s.toList.flatMap escapeChar ++ '\x22' :: rest, by simp [writeText], ?_⟩
  rw [readText_escaped]
  simp

/-! ### Objects whose members are texts -/

/-- The members of an object as they are read. -/
def Members.ofTexts : List (String × String) → Members
  | [] => .closed
  | (k, s) :: ms => .more (.ok k) (.text (some s)) (ofTexts ms)

/-- The object whose members are texts. -/
def Value.ofTexts (ms : List (String × String)) : Value :=
  .object (ms.map fun m => (m.1, .text m.2))

theorem skipSpace_of_head {c : Char} {cs : List Char} (h : isSpace c = false) :
    skipSpace (c :: cs) = c :: cs := by
  simp [skipSpace, h]

/-- The last member of an object. -/
theorem readMembers_last {fuel : Nat} {body cs rest : List Char} {k : String} {node : Node}
    (name : readText ⟨[], none, none⟩ body = .ok (some k, ':' :: cs))
    (value : readNode fuel (skipSpace cs) = (node, some ('\x7d' :: rest))) :
    readMembers (fuel + 1) ('\x22' :: body) = (.more (.ok k) node .closed, some rest) := by
  have colon : skipSpace (':' :: cs) = ':' :: cs := skipSpace_of_head rfl
  have brace : skipSpace ('\x7d' :: rest) = '\x7d' :: rest := skipSpace_of_head rfl
  simp [readMembers, name, value, colon, brace]

/-- A member that others follow. -/
theorem readMembers_more {fuel : Nat} {body cs next rest : List Char} {k : String} {node : Node}
    {members : Members} (name : readText ⟨[], none, none⟩ body = .ok (some k, ':' :: cs))
    (value : readNode fuel (skipSpace cs) = (node, some (',' :: '\x22' :: next)))
    (others : readMembers fuel ('\x22' :: next) = (members, some rest)) :
    readMembers (fuel + 1) ('\x22' :: body) = (.more (.ok k) node members, some rest) := by
  have colon : skipSpace (':' :: cs) = ':' :: cs := skipSpace_of_head rfl
  have comma : skipSpace (',' :: '\x22' :: next) = ',' :: '\x22' :: next := skipSpace_of_head rfl
  have quote : skipSpace ('\x22' :: next) = '\x22' :: next := skipSpace_of_head rfl
  simp [readMembers, name, value, colon, comma, quote, others]

/-- An object from its brace on. -/
theorem readNode_object {fuel : Nat} {body rest : List Char} {members : Members}
    (h : readMembers fuel ('\x22' :: body) = (members, some rest)) :
    readNode (fuel + 1) ('\x7b' :: '\x22' :: body) = (.object members, some rest) := by
  have quote : skipSpace ('\x22' :: body) = '\x22' :: body := skipSpace_of_head rfl
  simp [readNode, quote, h]

/-- Written members are read in order, whatever follows the object. -/
theorem readMembers_write (rest : List Char) : ∀ (ms : List (String × String)) (k s : String)
    (fuel : Nat), ms.length + 1 < fuel →
    readMembers fuel (writeText k ++ ':' :: (writeText s ++
      (Value.compactMembers (ms.map fun m => (m.1, .text m.2)) ++ rest))) =
      (Members.ofTexts ((k, s) :: ms), some rest)
  | ms, k, s, 0, h => by omega
  | ms, k, s, 1, h => by omega
  | ms, k, s, fuel + 2, h => by
    obtain ⟨name, hname, readName⟩ := readText_writeText k (':' :: (writeText s ++
      (Value.compactMembers (ms.map fun m => (m.1, .text m.2)) ++ rest)))
    obtain ⟨text, htext, readValue⟩ := readText_writeText s
      (Value.compactMembers (ms.map fun m => (m.1, .text m.2)) ++ rest)
    have value : readNode (fuel + 1) (skipSpace (writeText s ++
        (Value.compactMembers (ms.map fun m => (m.1, .text m.2)) ++ rest))) = (.text (some s),
        some (Value.compactMembers (ms.map fun m => (m.1, .text m.2)) ++ rest)) := by
      rw [htext, skipSpace_of_head rfl]
      simp [readNode, readValue]
    rw [hname]
    cases ms with
    | nil => exact readMembers_last readName value
    | cons m ms =>
      obtain ⟨body, hbody, -⟩ := readText_writeText m.1 (':' :: (writeText m.2 ++
        (Value.compactMembers (ms.map fun m => (m.1, .text m.2)) ++ rest)))
      have ih := readMembers_write rest ms m.1 m.2 (fuel + 1) (by simp at h; omega)
      simp only [List.map_cons, Value.compactMembers, Value.compact, List.cons_append,
        List.append_assoc, hbody] at ih value readName
      exact readMembers_more readName value ih

theorem length_compactMembers : ∀ ms : List (String × Value),
    ms.length < (Value.compactMembers ms).length
  | [] => by simp [Value.compactMembers]
  | (k, v) :: ms => by
    have := length_compactMembers ms
    simp only [Value.compactMembers, List.length_cons, List.length_append]
    omega

/-- **The line of an object of texts is read as its members**, and nothing is
left over. -/
theorem read_compact_ofTexts (k s : String) (ms : List (String × String)) :
    Document.read (Value.ofTexts ((k, s) :: ms)).compact =
      ⟨.object (.ofTexts ((k, s) :: ms)), false⟩ := by
  have members := readMembers_write [] ms k s
  obtain ⟨body, hbody, -⟩ := readText_writeText k (':' :: (writeText s ++
    (Value.compactMembers (ms.map fun m => (m.1, .text m.2)) ++ [])))
  have text : (Value.ofTexts ((k, s) :: ms)).compact = '\x7b' :: '\x22' :: body := by
    rw [← hbody]
    simp [Value.ofTexts, Value.compact]
  have fuel : ms.length + 1 < 2 * ('\x7b' :: '\x22' :: body).length + 1 := by
    have := length_compactMembers (ms.map fun m => (m.1, Value.text m.2))
    have hl := congrArg List.length hbody
    simp only [List.length_map, List.length_append, List.length_cons, List.length_nil] at this hl ⊢
    omega
  rw [hbody] at members
  rw [text, Document.read, skipSpace_of_head rfl, readNode_object (members _ fuel)]
  rfl

end Json
end Attic
