import Attic.Json.Shape
import Attic.Proofs.Json.ReadBack

/-!
# What follows a value does not change it

A value that ends is read the same way whatever is written after it, and with
any more fuel; only a number may go on. A list or an object that was read to
its end therefore stays what it is when more follows, and its text is then no
JSON text any more.

Key definitions: `Json.Ends`, `Json.Node.whole`.
Key theorems: `Json.read_append`, `Json.Document.read_append`.
-/

namespace Attic
namespace Json

theorem skipSpace_append {cs rest : List Char} {c : Char} (ext : List Char)
    (h : skipSpace cs = c :: rest) : skipSpace (cs ++ ext) = c :: (rest ++ ext) := by
  unfold skipSpace at *
  rw [List.dropWhile_append, h]
  simp

theorem skipSpace_append_of_ne {cs : List Char} (ext : List Char) (h : skipSpace cs ≠ []) :
    skipSpace (cs ++ ext) = skipSpace cs ++ ext := by
  obtain ⟨c, rest, hc⟩ := List.exists_cons_of_ne_nil h
  rw [skipSpace_append ext hc, hc, List.cons_append]

theorem readWord_append (ext : List Char) : ∀ {ws cs rest : List Char},
    readWord ws cs = .ok rest → readWord ws (cs ++ ext) = .ok (rest ++ ext)
  | [], cs, rest, h => by
    simp only [readWord, Except.ok.injEq] at h ⊢
    rw [h]
  | w :: ws, [], rest, h => by simp [readWord] at h
  | w :: ws, c :: cs, rest, h => by
    by_cases hw : w = c
    · simp only [readWord, hw, if_true, List.cons_append] at h ⊢
      exact readWord_append ext h
    · simp [readWord, hw] at h

theorem readText_append (ext : List Char) {s : Spelled} {cs : List Char} {value : Option String}
    {rest : List Char} (h : readText s cs = .ok (value, rest)) :
    readText s (cs ++ ext) = .ok (value, rest ++ ext) := by
  fun_induction readText s cs with
  | case1 => simp at h
  | case2 s cs whole =>
    simp only [Except.ok.injEq, Prod.mk.injEq] at h
    obtain ⟨rfl, rfl⟩ := h
    simp only [List.cons_append, readText]
    rfl
  | case3 => simp at h
  | case4 s a b c d cs n hn ih =>
    simp only [List.cons_append, readText, hn]
    exact ih h
  | case5 => simp at h
  | case6 => simp at h
  | case7 s e cs _ unit c hc ih =>
    simp only [List.cons_append, readText_letter s _ unit, hc]
    exact ih h
  | case8 => simp at h
  | case9 => simp at h
  | case10 s c cs quote alone _ _ back hc ih =>
    have : c ≠ '\\' := by
      rintro rfl
      cases cs with
      | nil => exact alone rfl rfl
      | cons e cs => exact back e cs rfl rfl
    rw [List.cons_append, readText_plain s _ quote this, if_neg hc]
    exact ih h

/-! ### Numbers -/

theorem takeWhile_digits_append {cs : List Char} (ext : List Char)
    (h : cs.dropWhile Char.isDigit ≠ []) :
    (cs ++ ext).takeWhile Char.isDigit = cs.takeWhile Char.isDigit ∧
      (cs ++ ext).dropWhile Char.isDigit = cs.dropWhile Char.isDigit ++ ext := by
  induction cs with
  | nil => exact absurd rfl h
  | cons c cs ih =>
    by_cases hc : c.isDigit
    · simp only [List.dropWhile_cons, hc, if_true] at h
      have := ih h
      simp [hc, this]
    · simp [hc]

/-! The lexer stops before a character that is no part of the number. If there
is such a character, more text behind it is not looked at. -/

theorem lexExponentDigits_append (ext : List Char) {l m : Lexeme} {minus : Bool}
    {cs rest : List Char} (h : lexExponentDigits l minus cs = .done m rest) (hr : rest ≠ []) :
    lexExponentDigits l minus (cs ++ ext) = .done m (rest ++ ext) := by
  unfold lexExponentDigits at h ⊢
  cases ht : cs.takeWhile Char.isDigit with
  | nil => simp [ht] at h
  | cons d ds =>
    simp only [ht, Lexed.done.injEq] at h
    obtain ⟨rfl, rfl⟩ := h
    obtain ⟨ht', hd⟩ := takeWhile_digits_append ext hr
    simp only [ht', ht, hd]

theorem lexExponent_append (ext : List Char) {l m : Lexeme} : ∀ {cs rest : List Char},
    lexExponent l cs = .done m rest → rest ≠ [] → lexExponent l (cs ++ ext) = .done m (rest ++ ext)
  | [], rest, h, _ => by simp [lexExponent, lexExponentDigits] at h
  | c :: cs, rest, h, hr => by
    by_cases plus : c = '+'
    · subst plus
      exact lexExponentDigits_append ext h hr
    by_cases minus : c = '-'
    · subst minus
      exact lexExponentDigits_append ext h hr
    · have same (cs : List Char) :
          lexExponent l (c :: cs) = lexExponentDigits l false (c :: cs) := by
        simp [lexExponent, plus, minus]
      rw [List.cons_append, same, ← List.cons_append]
      rw [same] at h
      exact lexExponentDigits_append ext h hr

theorem lexAfterDigits_append (ext : List Char) {l m : Lexeme} : ∀ {cs rest : List Char},
    lexAfterDigits l cs = .done m rest → rest ≠ [] →
      lexAfterDigits l (cs ++ ext) = .done m (rest ++ ext)
  | [], rest, h, hr => by
    simp only [lexAfterDigits, Lexed.done.injEq] at h
    exact absurd h.2.symm hr
  | c :: cs, rest, h, hr => by
    by_cases lower : c = 'e'
    · subst lower
      exact lexExponent_append ext h hr
    by_cases upper : c = 'E'
    · subst upper
      exact lexExponent_append ext h hr
    · have same (cs : List Char) : lexAfterDigits l (c :: cs) = .done l (c :: cs) := by
        simp [lexAfterDigits, lower, upper]
      rw [same, Lexed.done.injEq] at h
      rw [List.cons_append, same, ← h.1, ← h.2, List.cons_append]

theorem lexAfterWhole_append (ext : List Char) {l m : Lexeme} : ∀ {cs rest : List Char},
    lexAfterWhole l cs = .done m rest → rest ≠ [] →
      lexAfterWhole l (cs ++ ext) = .done m (rest ++ ext)
  | [], rest, h, hr => by
    simp only [lexAfterWhole, lexAfterDigits, Lexed.done.injEq] at h
    exact absurd h.2.symm hr
  | c :: cs, rest, h, hr => by
    by_cases point : c = '.'
    · subst point
      simp only [List.cons_append, lexAfterWhole] at h ⊢
      cases ht : cs.takeWhile Char.isDigit with
      | nil => simp [ht] at h
      | cons d ds =>
        simp only [ht] at h
        have hne : cs.dropWhile Char.isDigit ≠ [] := by
          intro h0
          simp only [h0, lexAfterDigits, Lexed.done.injEq] at h
          exact hr h.2.symm
        obtain ⟨ht', hd⟩ := takeWhile_digits_append ext hne
        simp only [ht', ht, hd]
        exact lexAfterDigits_append ext h hr
    · have same (cs : List Char) : lexAfterWhole l (c :: cs) = lexAfterDigits l (c :: cs) := by
        simp [lexAfterWhole, point]
      rw [List.cons_append, same, ← List.cons_append]
      rw [same] at h
      exact lexAfterDigits_append ext h hr

theorem lexUnsigned_append (ext : List Char) {negative : Bool} {m : Lexeme} {cs rest : List Char}
    (h : lexUnsigned negative cs = .done m rest) (hr : rest ≠ []) :
    lexUnsigned negative (cs ++ ext) = .done m (rest ++ ext) := by
  have after {l : Lexeme} (h : lexAfterWhole l (cs.dropWhile Char.isDigit) = .done m rest) :
      (cs ++ ext).takeWhile Char.isDigit = cs.takeWhile Char.isDigit ∧
        lexAfterWhole l ((cs ++ ext).dropWhile Char.isDigit) = .done m (rest ++ ext) := by
    have hne : cs.dropWhile Char.isDigit ≠ [] := by
      intro h0
      simp only [h0, lexAfterWhole, lexAfterDigits, Lexed.done.injEq] at h
      exact hr h.2.symm
    obtain ⟨ht, hd⟩ := takeWhile_digits_append ext hne
    exact ⟨ht, hd ▸ lexAfterWhole_append ext h hr⟩
  unfold lexUnsigned at h ⊢
  split at h
  · simp at h
  · next zero => 
    obtain ⟨ht, hd⟩ := after h
    rw [ht, zero]
    exact hd
  · simp at h
  · next some zero more =>
    obtain ⟨ht, hd⟩ := after h
    rw [ht]
    split
    · next h0 => exact absurd h0 some
    · next h0 => exact absurd h0 zero
    · next h0 => exact absurd h0 (more _ _)
    · exact hd

theorem lexNumber_append (ext : List Char) {m : Lexeme} : ∀ {cs rest : List Char},
    lexNumber cs = .done m rest → rest ≠ [] → lexNumber (cs ++ ext) = .done m (rest ++ ext)
  | [], rest, h, _ => by simp [lexNumber, lexUnsigned] at h
  | c :: cs, rest, h, hr => by
    by_cases minus : c = '-'
    · subst minus
      exact lexUnsigned_append ext h hr
    · have same (cs : List Char) : lexNumber (c :: cs) = lexUnsigned false (c :: cs) := by
        simp [lexNumber, minus]
      rw [List.cons_append, same, ← List.cons_append]
      rw [same] at h
      exact lexUnsigned_append ext h hr

/-! ### Values

One lemma a reader, over what it reads inside; values inside lists and objects
are followed by a comma or a bracket, so that their numbers end. -/

/-- A node that ends by itself, or that something follows. A number ends only
where another character stands. -/
def Ends (node : Node) (rest : List Char) : Prop := rest ≠ [] ∨ ∀ v, node ≠ .number v

theorem ends_of_skipSpace {node : Node} {rest tail : List Char} {c : Char}
    (h : skipSpace rest = c :: tail) : Ends node rest := by
  left
  rintro rfl
  simp [skipSpace] at h

theorem node_ne_nil {fuel : Nat} {cs rest : List Char} {node : Node}
    (h : readNode fuel cs = (node, some rest)) : cs ≠ [] := by
  rintro rfl
  cases fuel <;> simp [readNode] at h

/-- What reading one kind of thing makes of a longer text. -/
def Extends {α : Type} (short long : List Char → α × Rest) (ext : List Char) : Prop :=
  ∀ cs a rest, short cs = (a, some rest) → long (cs ++ ext) = (a, some (rest ++ ext))

/-- A word that was read to its end is read again. -/
theorem word_append (ext : List Char) {ws cs rest : List Char} {value node : Node}
    (h : (match readWord ws cs with
      | .ok rest => (value, some rest)
      | .error f => (.broken f f, none)) = (node, some rest)) :
    node = value ∧ readWord ws (cs ++ ext) = .ok (rest ++ ext) := by
  cases word : readWord ws cs with
  | error f => simp [word] at h
  | ok r =>
    simp only [word, Prod.mk.injEq, Option.some.injEq] at h
    obtain ⟨rfl, rfl⟩ := h
    exact ⟨rfl, readWord_append ext word⟩

/-- What stands in brackets goes on as it did, unless they close at once. -/
theorem Extends.inside {α : Type} {short long : List Char → α × Rest} {ext cs rest : List Char}
    {a : α} {close : Char} (reads : Extends short long ext)
    (opens : ∀ tail, skipSpace cs = close :: tail → False) (more : skipSpace cs = [] → False)
    (h : short (skipSpace cs) = (a, some rest)) :
    ∃ c tail, skipSpace (cs ++ ext) = c :: tail ∧ c ≠ close ∧
      long (c :: tail) = (a, some (rest ++ ext)) := by
  obtain ⟨c, tail, head⟩ := List.exists_cons_of_ne_nil more
  have longer := reads _ _ _ h
  rw [head, List.cons_append] at longer
  exact ⟨c, tail ++ ext, skipSpace_append ext head, fun e => opens tail (by rw [head, e]), longer⟩

section

variable {ext : List Char} {fuel fuel' : Nat}

theorem readNode_append (items : Extends (readItems fuel) (readItems fuel') ext)
    (members : Extends (readMembers fuel) (readMembers fuel') ext) {cs rest : List Char}
    {node : Node} (h : readNode (fuel + 1) cs = (node, some rest)) (ends : Ends node rest) :
    readNode (fuel' + 1) (cs ++ ext) = (node, some (rest ++ ext)) := by
  cases cs with
  | nil => simp [readNode] at h
  | cons c cs =>
    rw [List.cons_append]
    unfold readNode at h
    split at h
    case h_1 | h_2 | h_3 =>
      obtain ⟨rfl, word⟩ := word_append ext h
      simp [readNode, word]
    case h_4 =>
      cases ht : readText ⟨[], none, none⟩ cs with
      | error f => simp [ht] at h
      | ok r =>
        simp only [ht, Prod.mk.injEq, Option.some.injEq] at h
        obtain ⟨rfl, rfl⟩ := h
        simp [readNode, readText_append ext ht]
    case h_5 =>
      split at h
      · next r hs =>
        simp only [Prod.mk.injEq, Option.some.injEq] at h
        obtain ⟨rfl, rfl⟩ := h
        simp [readNode, skipSpace_append ext hs]
      · simp at h
      · next opens more =>
        cases read : readItems fuel (skipSpace cs) with
        | mk inside r =>
          simp only [read, Prod.mk.injEq] at h
          obtain ⟨rfl, rfl⟩ := h
          obtain ⟨d, ds, head, apart, longer⟩ := items.inside opens more read
          simp [readNode, head, apart, longer]
    case h_6 =>
      split at h
      · next r hs =>
        simp only [Prod.mk.injEq, Option.some.injEq] at h
        obtain ⟨rfl, rfl⟩ := h
        simp [readNode, skipSpace_append ext hs]
      · simp at h
      · next opens more =>
        cases read : readMembers fuel (skipSpace cs) with
        | mk inside r =>
          simp only [read, Prod.mk.injEq] at h
          obtain ⟨rfl, rfl⟩ := h
          obtain ⟨d, ds, head, apart, longer⟩ := members.inside opens more read
          simp [readNode, head, apart, longer]
    case h_7 =>
      split at h
      · next digit =>
        cases hl : lexNumber (c :: cs) with
        | broken r s => simp [hl] at h
        | done l r =>
          simp only [hl, Prod.mk.injEq, Option.some.injEq] at h
          obtain ⟨rfl, rfl⟩ := h
          have more : r ≠ [] := ends.resolve_right fun number => number _ rfl
          have := lexNumber_append ext hl more
          rw [List.cons_append] at this
          simp_all [readNode]
      · simp at h

theorem readItems_append
    (nodes : ∀ cs node rest, readNode fuel cs = (node, some rest) → Ends node rest →
      readNode fuel' (cs ++ ext) = (node, some (rest ++ ext)))
    (items : Extends (readItems fuel) (readItems fuel') ext) {cs rest : List Char} {read : Items}
    (h : readItems (fuel + 1) cs = (read, some rest)) :
    readItems (fuel' + 1) (cs ++ ext) = (read, some (rest ++ ext)) := by
  unfold readItems at h
  split at h
  · simp at h
  · next item r hn =>
    split at h
    · simp at h
    · next r' hs =>
      simp only [Prod.mk.injEq, Option.some.injEq] at h
      obtain ⟨rfl, rfl⟩ := h
      simp [readItems, nodes _ _ _ hn (ends_of_skipSpace hs), skipSpace_append ext hs]
    · next r' hs =>
      have first := nodes _ _ _ hn (ends_of_skipSpace hs)
      split at h
      · simp at h
      · simp at h
      · next more opens =>
        cases read : readItems fuel (skipSpace r') with
        | mk others r'' =>
          simp only [read, Prod.mk.injEq] at h
          obtain ⟨rfl, rfl⟩ := h
          obtain ⟨d, ds, head, apart, longer⟩ := items.inside opens more read
          simp [readItems, first, skipSpace_append ext hs, head, apart, longer]
    · simp at h

theorem readMembers_append
    (nodes : ∀ cs node rest, readNode fuel cs = (node, some rest) → Ends node rest →
      readNode fuel' (cs ++ ext) = (node, some (rest ++ ext)))
    (members : Extends (readMembers fuel) (readMembers fuel') ext) {cs rest : List Char}
    {read : Members} (h : readMembers (fuel + 1) cs = (read, some rest)) :
    readMembers (fuel' + 1) (cs ++ ext) = (read, some (rest ++ ext)) := by
  cases cs with
  | nil => simp [readMembers] at h
  | cons c cs =>
    rw [List.cons_append]
    by_cases quote : c = '\x22'
    case neg => simp [readMembers, quote] at h
    unfold readMembers at h
    simp only [quote, ne_eq, not_true_eq_false, if_false] at h
    cases ht : readText ⟨[], none, none⟩ cs with
    | error f => simp [ht] at h
    | ok r =>
      obtain ⟨value, r⟩ := r
      simp only [ht] at h
      have name := readText_append ext ht
      split at h
      · simp at h
      · next r' colon =>
        split at h
        · simp at h
        · next item r hn =>
          split at h
          · simp at h
          · next r' hs =>
            simp only [Prod.mk.injEq, Option.some.injEq] at h
            obtain ⟨rfl, rfl⟩ := h
            have value := nodes _ _ _ hn (ends_of_skipSpace hs)
            rw [← skipSpace_append_of_ne ext (node_ne_nil hn)] at value
            simp [readMembers, quote, name, skipSpace_append ext colon, value,
              skipSpace_append ext hs]
          · next r' hs =>
            have value := nodes _ _ _ hn (ends_of_skipSpace hs)
            rw [← skipSpace_append_of_ne ext (node_ne_nil hn)] at value
            split at h
            · simp at h
            · simp at h
            · next more opens =>
              cases read : readMembers fuel (skipSpace r') with
              | mk others r'' =>
                simp only [read, Prod.mk.injEq] at h
                obtain ⟨rfl, rfl⟩ := h
                obtain ⟨d, ds, head, apart, longer⟩ := members.inside opens more read
                simp [readMembers, quote, name, skipSpace_append ext colon, value,
                  skipSpace_append ext hs, head, apart, longer]
          · simp at h
      · simp at h

end

/-- **Reading goes on as before when more text follows.** The induction is on
the fuel, over the three readers at once. -/
theorem read_append (ext : List Char) : ∀ fuel fuel' : Nat, fuel ≤ fuel' →
    (∀ cs node rest, readNode fuel cs = (node, some rest) → Ends node rest →
      readNode fuel' (cs ++ ext) = (node, some (rest ++ ext))) ∧
    Extends (readItems fuel) (readItems fuel') ext ∧
    Extends (readMembers fuel) (readMembers fuel') ext
  | 0, _, _ => by simp [readNode, readItems, readMembers, Extends]
  | fuel + 1, 0, h => by omega
  | fuel + 1, fuel' + 1, h => by
    obtain ⟨nodes, items, members⟩ := read_append ext fuel fuel' (by omega)
    exact ⟨fun _ _ _ => readNode_append items members, fun _ _ _ => readItems_append nodes items,
      fun _ _ _ => readMembers_append nodes members⟩

/-! ### Whole texts -/

/-- Whether a list was read to its bracket. -/
def Items.whole : Items → Bool
  | .closed => true
  | .cut _ => false
  | .more _ rest => rest.whole

/-- Whether an object was read to its bracket. -/
def Members.whole : Members → Bool
  | .closed => true
  | .cut _ => false
  | .more _ _ rest => rest.whole

/-- Whether a node is a list or an object that was read to its end. -/
def Node.whole : Node → Bool
  | .list items => items.whole
  | .object members => members.whole
  | _ => false

theorem readItems_broken : ∀ {fuel : Nat} {cs : List Char} {items : Items},
    readItems fuel cs = (items, none) → items.whole = false
  | 0, cs, items, h => by
    simp only [readItems, Prod.mk.injEq] at h
    rw [← h.1, Items.whole]
  | fuel + 1, cs, items, h => by
    unfold readItems at h
    split at h
    · rw [← (Prod.mk.inj h).1, Items.whole, Items.whole]
    · next item r hn =>
      split at h
      · rw [← (Prod.mk.inj h).1, Items.whole, Items.whole]
      · simp at h
      · next r' hs =>
        split at h
        · rw [← (Prod.mk.inj h).1, Items.whole, Items.whole, Items.whole]
        · rw [← (Prod.mk.inj h).1, Items.whole, Items.whole]
        · cases hi : readItems fuel (skipSpace r') with
          | mk more r =>
            simp only [hi, Prod.mk.injEq] at h
            obtain ⟨rfl, rfl⟩ := h
            rw [Items.whole, readItems_broken hi]
      · rw [← (Prod.mk.inj h).1, Items.whole, Items.whole]

theorem readMembers_broken : ∀ {fuel : Nat} {cs : List Char} {members : Members},
    readMembers fuel cs = (members, none) → members.whole = false
  | 0, cs, members, h => by
    simp only [readMembers, Prod.mk.injEq] at h
    rw [← h.1, Members.whole]
  | fuel + 1, [], members, h => by
    simp only [readMembers, Prod.mk.injEq] at h
    rw [← h.1, Members.whole]
  | fuel + 1, c :: cs, members, h => by
    unfold readMembers at h
    split at h
    · rw [← (Prod.mk.inj h).1, Members.whole]
    cases ht : readText ⟨[], none, none⟩ cs with
    | error f =>
      simp only [ht] at h
      rw [← (Prod.mk.inj h).1, Members.whole, Members.whole]
    | ok r =>
      simp only [ht] at h
      split at h
      · rw [← (Prod.mk.inj h).1, Members.whole, Members.whole]
      · next r' colon =>
        split at h
        · rw [← (Prod.mk.inj h).1, Members.whole, Members.whole]
        · next node r hn =>
          split at h
          · rw [← (Prod.mk.inj h).1, Members.whole, Members.whole]
          · simp at h
          · next r' hs =>
            split at h
            · rw [← (Prod.mk.inj h).1, Members.whole, Members.whole, Members.whole]
            · rw [← (Prod.mk.inj h).1, Members.whole, Members.whole]
            · cases hm : readMembers fuel (skipSpace r') with
              | mk more r =>
                simp only [hm, Prod.mk.injEq] at h
                obtain ⟨rfl, rfl⟩ := h
                rw [Members.whole, readMembers_broken hm]
          · rw [← (Prod.mk.inj h).1, Members.whole, Members.whole]
      · rw [← (Prod.mk.inj h).1, Members.whole, Members.whole]

/-- A list or an object that was broken off was not read to its end. -/
theorem readNode_broken {fuel : Nat} {cs : List Char} {node : Node}
    (h : readNode fuel cs = (node, none)) : node.whole = false := by
  cases node with
  | list items =>
    cases fuel with
    | zero => simp [readNode] at h
    | succ fuel =>
      cases cs with
      | nil => simp [readNode] at h
      | cons c cs =>
        unfold readNode at h
        split at h
        case h_5 =>
          split at h
          · simp at h
          · simp only [Prod.mk.injEq, Node.list.injEq, and_true] at h
            rw [← h, Node.whole, Items.whole]
          · simp only [Prod.mk.injEq, Node.list.injEq] at h
            rw [Node.whole]
            exact readItems_broken (Prod.ext h.1 h.2)
        all_goals repeat' split at h
        all_goals simp at h
  | object members =>
    cases fuel with
    | zero => simp [readNode] at h
    | succ fuel =>
      cases cs with
      | nil => simp [readNode] at h
      | cons c cs =>
        unfold readNode at h
        split at h
        case h_6 =>
          split at h
          · simp at h
          · simp only [Prod.mk.injEq, Node.object.injEq, and_true] at h
            rw [← h, Node.whole, Members.whole]
          · simp only [Prod.mk.injEq, Node.object.injEq] at h
            rw [Node.whole]
            exact readMembers_broken (Prod.ext h.1 h.2)
        all_goals repeat' split at h
        all_goals simp at h
  | _ => simp [Node.whole]

namespace Document

/-- **A text whose value is followed by more is read as the same value with more
behind it**, where the value is a list or an object and the rest is no blank. -/
theorem read_append {cs ext : List Char} (whole : (Document.read cs).root.whole = true)
    (more : skipSpace ext ≠ []) :
    Document.read (cs ++ ext) = ⟨(Document.read cs).root, true⟩ := by
  unfold Document.read at whole ⊢
  cases hn : readNode (2 * cs.length + 2) (skipSpace cs) with
  | mk node r =>
    rw [hn] at whole
    cases r with
    | none => simp [readNode_broken hn] at whole
    | some rest =>
      simp only at whole
      have ends : Ends node rest := .inr fun v e => by simp [e, Node.whole] at whole
      have := (Json.read_append ext (2 * cs.length + 2) (2 * (cs ++ ext).length + 2)
        (by rw [List.length_append]; omega)).1 _ _ _ hn ends
      rw [skipSpace_append_of_ne ext (node_ne_nil hn), this]
      have : skipSpace (rest ++ ext) ≠ [] := by
        unfold skipSpace at more ⊢
        rw [List.dropWhile_append]
        split
        · exact more
        · next h => exact List.append_ne_nil_of_left_ne_nil (by simpa using h) _
      simp [this]

end Document
end Json
end Attic
