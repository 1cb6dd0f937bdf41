import Attic.Proofs.Reference.Scanning
import Mathlib

/-!
# What opens a command

The start of the line, an operator, `$(` and a few words open a command, told here as a
relation beside the function that looks for them. At a place of a line there is one of them,
apart from the line's start, and none starts in one text and ends in the next when the texts
stand apart.

Key definitions: `Reference.Opens`, `Reference.Breaks`, `Reference.Apart`.
Key theorems: `Reference.mem_commandStarts_iff`, `Reference.Opens.eq_of_append`,
`Reference.Opens.breaks`.
-/

namespace Attic
namespace Reference

variable {before cs lead rest start u v o o' : List Char} {c : Char}

theorem literal?_eq_some_iff {word : String} :
    literal? word cs = some rest ↔ cs = word.toList ++ rest := by
  constructor
  · intro h
    unfold literal? at h
    split at h
    · next starts =>
      obtain ⟨tail, rfl⟩ := List.isPrefixOf_iff_prefix.1 starts
      rw [← String.length_toList, List.drop_left] at h
      rw [Option.some.inj h]
    · exact absurd h (by simp)
  · rintro rfl
    exact literal?_append word rest

/-! ### Openings -/

def isOperator (c : Char) : Bool := c == ';' || c == '&' || c == '|' || c == '(' || c == '\x60'

/-- What stands right before a command. -/
inductive Opens (before : List Char) : List Char → Prop
  | line (h : before = []) : Opens before []
  | operator {c : Char} (h : isOperator c = true) : Opens before [c]
  | substitution : Opens before ['$', '(']
  | word {w : String} {b : Char} (known : w ∈ leadingWords) (starts : startsWord before = true)
      (blank : Text.isBlank b = true) : Opens before (w.toList ++ [b])

/-- A command starts behind what opens one. -/
theorem mem_commandStarts_iff :
    start ∈ commandStarts before cs ↔ ∃ o, Opens before o ∧ cs = o ++ start := by
  constructor
  · intro h
    simp only [commandStarts, List.mem_append] at h
    rcases h with ((line | operator) | substitution) | word
    · split at line
      · next empty =>
        rw [List.mem_singleton.1 line]
        exact ⟨[], .line (List.isEmpty_iff.1 empty), rfl⟩
      · simp at line
    · cases cs with
      | nil => simp at operator
      | cons c cs =>
        simp only at operator
        split at operator
        · next is =>
          rw [List.mem_singleton.1 operator]
          exact ⟨[c], .operator is, rfl⟩
        · simp at operator
    · rw [Option.mem_toList, literal?_eq_some_iff] at substitution
      exact ⟨_, .substitution, substitution⟩
    · split at word
      · next starts =>
        obtain ⟨w, known, read⟩ := List.mem_filterMap.1 word
        split at read
        · next b rest literal =>
          split at read
          · next blank =>
            rw [literal?_eq_some_iff] at literal
            rw [← Option.some.inj read]
            exact ⟨_, .word known starts blank, by simpa using literal⟩
          · simp at read
        · simp at read
      · simp at word
  · rintro ⟨o, opens, rfl⟩
    simp only [commandStarts, List.mem_append]
    cases opens with
    | line h =>
      left; left; left
      simp [h]
    | @operator c is =>
      left; left; right
      show start ∈ if isOperator c then [start] else []
      rw [if_pos is]
      exact List.mem_singleton_self start
    | substitution =>
      left; right
      rw [Option.mem_toList, literal?_eq_some_iff]
      rfl
    | @word w b known starts blank =>
      right
      rw [if_pos starts, List.mem_filterMap]
      refine ⟨w, known, ?_⟩
      rw [List.append_assoc, literal?_append]
      exact if_pos blank

/-! ### Their characters -/

theorem not_isWordChar_of_isOperator (h : isOperator c = true) : Text.isWordChar c = false := by
  simp only [isOperator, Bool.or_eq_true, beq_iff_eq] at h
  rcases h with (((rfl | rfl) | rfl) | rfl) | rfl
  all_goals decide

theorem plain_of_isWordChar (h : Text.isWordChar c = true) :
    Text.isBlank c = false ∧ isQuote c = false := by
  refine ⟨Text.not_isBlank_of_isWordChar h, ?_⟩
  by_contra quote
  simp only [isQuote, Bool.not_eq_false, Bool.or_eq_true, beq_iff_eq] at quote
  rcases quote with rfl | rfl
  all_goals exact absurd h (by decide)

theorem plain_of_isOperator (h : isOperator c = true) :
    Text.isBlank c = false ∧ isQuote c = false := by
  simp only [isOperator, Bool.or_eq_true, beq_iff_eq] at h
  rcases h with (((rfl | rfl) | rfl) | rfl) | rfl
  all_goals decide

/-- The words before a command are made of word characters. -/
theorem all_leadingWords {w : String} (h : w ∈ leadingWords) :
    w.toList.all Text.isWordChar = true ∧ w.toList ≠ [] := by
  have all : ∀ w ∈ leadingWords, w.toList.all Text.isWordChar = true ∧ w.toList ≠ [] := by
    decide +kernel
  exact all w h

/-- A word before a command starts with a word character. -/
theorem ne_word_append {w : String} (known : w ∈ leadingWords) (hc : Text.isWordChar c = false)
    (ds es : List Char) : c :: ds ≠ w.toList ++ es := by
  intro h
  obtain ⟨letters, some⟩ := all_leadingWords known
  obtain ⟨d, cs, start⟩ := List.exists_cons_of_ne_nil some
  rw [start] at h letters
  obtain ⟨rfl, -⟩ := List.cons.inj h
  rw [List.all_cons, hc, Bool.false_and] at letters
  exact Bool.noConfusion letters

/-- A word is told by the blank behind it. -/
theorem eq_of_append_blank {s t : List Char} {b b' : Char}
    (hs : ∀ c ∈ s, Text.isBlank c = false) (ht : ∀ c ∈ t, Text.isBlank c = false)
    (hb : Text.isBlank b = true) (hb' : Text.isBlank b' = true) (h : s ++ b :: u = t ++ b' :: v) :
    s = t ∧ b = b' := by
  have word {s : List Char} {b : Char} {u : List Char} (hs : ∀ c ∈ s, Text.isBlank c = false)
      (hb : Text.isBlank b = true) : (s ++ b :: u).takeWhile (fun c => !Text.isBlank c) = s :=
    takeWhile_append_stop (fun c hc => by rw [hs c hc, Bool.not_false])
      fun c hc => by
        obtain rfl : b = c := by simpa using hc
        rw [hb, Bool.not_true]
  have same : s = t := by rw [← word (u := u) hs hb, h, word ht hb']
  subst same
  exact ⟨rfl, (List.cons.inj (List.append_cancel_left h)).1⟩

/-! ### One at a place -/

/-- At a place there is one thing that opens a command, apart from the start of the line. -/
theorem Opens.eq_of_append (opens : Opens before o) (opens' : Opens before o') (ho : o ≠ [])
    (ho' : o' ≠ []) (h : o ++ u = o' ++ v) : o = o' := by
  have sign : Text.isWordChar '$' = false ∧ isOperator '$' = false := by decide
  have unblank {w : String} (known : w ∈ leadingWords) : ∀ c ∈ w.toList, Text.isBlank c = false :=
    fun c hc => Text.not_isBlank_of_isWordChar (List.all_eq_true.1 (all_leadingWords known).1 c hc)
  have operatorSign {c : Char} {x y : List Char} (is : isOperator c = true) :
      c :: x ≠ '$' :: y := by
    intro same
    rw [(List.cons.inj same).1, sign.2] at is
    exact Bool.noConfusion is
  cases opens with
  | line => exact absurd rfl ho
  | operator is =>
    cases opens' with
    | line => exact absurd rfl ho'
    | operator => rw [(List.cons.inj h).1]
    | substitution => exact absurd h (operatorSign is)
    | word known =>
      rw [List.append_assoc] at h
      exact absurd h (ne_word_append known (not_isWordChar_of_isOperator is) _ _)
  | substitution =>
    cases opens' with
    | line => exact absurd rfl ho'
    | operator is => exact absurd h.symm (operatorSign is)
    | substitution => rfl
    | word known =>
      rw [List.append_assoc] at h
      exact absurd h (ne_word_append known sign.1 _ _)
  | word known _ blank =>
    rw [List.append_assoc] at h
    cases opens' with
    | line => exact absurd rfl ho'
    | operator is =>
      exact absurd h.symm (ne_word_append known (not_isWordChar_of_isOperator is) _ _)
    | substitution => exact absurd h.symm (ne_word_append known sign.1 _ _)
    | word known' _ blank' =>
      rw [List.append_assoc] at h
      obtain ⟨word, rfl⟩ := eq_of_append_blank (unblank known) (unblank known') blank blank' h
      rw [word]

theorem Opens.eq_nil (opens : Opens before []) : before = [] := by
  generalize ho : [] = o at opens
  cases opens with
  | line h => exact h
  | operator => simp at ho
  | substitution => simp at ho
  | word => simp at ho

/-! ### Texts apart -/

/-- A character that the start of a path does not hold. -/
def isBreak (c : Char) : Bool := Text.isBlank c || isOperator c

/-- A text that breaks off what stands before it: a blank or an operator comes before any
slash in it. -/
def Breaks (cs : List Char) : Prop := ∃ t c ds, cs = t ++ c :: ds ∧ '/' ∉ t ∧ isBreak c = true

/-- What opens a command breaks off a path before it, and no blank or quote of it is passed
over. -/
theorem Opens.breaks (opens : Opens before o) (ho : o ≠ []) (rest : List Char) :
    (∀ c ∈ (o ++ rest).head?, Text.isBlank c = false ∧ isQuote c = false) ∧
      Breaks (o ++ rest) := by
  cases opens with
  | line => exact absurd rfl ho
  | @operator c is =>
    refine ⟨fun d hd => ?_, [], c, rest, rfl, List.not_mem_nil, by rw [isBreak, is, Bool.or_true]⟩
    obtain rfl : c = d := by simpa using hd
    exact plain_of_isOperator is
  | substitution =>
    refine ⟨fun d hd => ?_, ['$'], '(', rest, rfl, by decide, rfl⟩
    obtain rfl : '$' = d := by simpa using hd
    decide
  | @word w b known starts blank =>
    obtain ⟨letters, some⟩ := all_leadingWords known
    have letters := List.all_eq_true.1 letters
    refine ⟨fun d hd => plain_of_isWordChar (letters d ?_), w.toList, b, rest, by simp,
      fun slash => ?_, by rw [isBreak, blank, Bool.true_or]⟩
    · obtain ⟨e, es, start⟩ := List.exists_cons_of_ne_nil some
      obtain rfl : e = d := by simpa [start] using hd
      simp [start]
    · exact absurd (letters '/' slash) (by decide)

theorem startsWord_reverse_iff :
    startsWord lead.reverse = true ↔ ∀ c ∈ lead.getLast?, Text.isWordChar c = false := by
  rw [← List.head?_reverse]
  cases lead.reverse <;> simp [startsWord]

/-- What opens a command does not start in one text and end in the next. -/
structure Apart (lead rest : List Char) : Prop where
  plain : ∀ c ∈ rest.head?, Text.isBlank c = false ∧ isQuote c = false
  breaks : Breaks rest
  substitution : lead.getLast? = some '$' → rest.head? ≠ some '('
  word : startsWord lead.reverse = true ∨ ∀ c ∈ rest.head?, Text.isWordChar c = false

theorem Apart.of_append (apart : Apart (u ++ v) rest) (hv : v ≠ []) : Apart v rest := by
  have last : (u ++ v).getLast? = v.getLast? := List.getLast?_append_of_ne_nil u hv
  refine ⟨apart.plain, apart.breaks, fun h => apart.substitution (last.trans h), ?_⟩
  have word := apart.word
  rw [startsWord_reverse_iff, last] at word
  rwa [startsWord_reverse_iff]

theorem Apart.of_cons (plain : Text.isBlank c = false ∧ isQuote c = false)
    (word : Text.isWordChar c = false) (breaks : Breaks (c :: rest))
    (substitution : c = '(' → lead.getLast? ≠ some '$') : Apart lead (c :: rest) := by
  refine ⟨fun d hd => ?_, breaks, fun last first => ?_, .inr fun d hd => ?_⟩
  · obtain rfl : c = d := by simpa using hd
    exact plain
  · exact substitution (by simpa using first) last
  · obtain rfl : c = d := by simpa using hd
    exact word

/-- A word with the blank behind it does not start in the first of two texts that stand apart
and end in the second. -/
theorem Apart.ne_append_blank {s z : List Char} {b d : Char} (apart : Apart v rest) (hv : v ≠ [])
    (letters : s.all Text.isWordChar = true) (blank : Text.isBlank b = true)
    (first : rest.head? = some d) : v ++ d :: z ≠ s ++ [b] := by
  intro h
  have unlike : d ≠ b := by
    rintro rfl
    rw [(apart.plain d first).1] at blank
    exact Bool.noConfusion blank
  have letters := List.all_eq_true.1 letters
  rcases List.append_eq_append_iff.1 h with ⟨y, hs, hd⟩ | ⟨y, -, hb⟩
  · cases y with
    | nil => exact unlike (List.cons.inj hd).1
    | cons f y =>
      obtain ⟨rfl, -⟩ := List.cons.inj hd
      rcases apart.word with ends | other
      · obtain ⟨x, hx⟩ := Option.isSome_iff_exists.1 (List.getLast?_isSome.2 hv)
        have outside := startsWord_reverse_iff.1 ends x hx
        rw [letters x (hs ▸ List.mem_append_left _ (List.mem_of_getLast? hx))] at outside
        exact Bool.noConfusion outside
      · have outside := other d first
        rw [letters d (hs ▸ by simp)] at outside
        exact Bool.noConfusion outside
  · cases y with
    | nil => exact unlike (List.cons.inj hb).1.symm
    | cons f y => simp at hb

/-- What opens a command in the first of two texts that stand apart ends there too. -/
theorem Opens.exists_of_append (opens : Opens before o) (apart : Apart v rest) (hv : v ≠ [])
    (whole : v ++ rest = o ++ start) : ∃ z, v = o ++ z ∧ start = z ++ rest := by
  rcases List.append_eq_append_iff.1 whole with ⟨z, ho, hrest⟩ | ⟨z, hz, hstart⟩
  · cases z with
    | nil => exact ⟨[], by simpa using ho.symm, hrest.symm⟩
    | cons d z =>
      -- it would end in the second one
      exfalso
      have first : rest.head? = some d := by rw [hrest]; rfl
      obtain ⟨e, t, rfl⟩ := List.exists_cons_of_ne_nil hv
      cases opens with
      | line => simp at ho
      | operator => simp at ho
      | substitution =>
        obtain ⟨rfl, ht⟩ := List.cons.inj ho
        cases t with
        | nil =>
          obtain ⟨rfl, -⟩ := List.cons.inj ht
          exact apart.substitution rfl first
        | cons => simp at ht
      | word known _ blank =>
        exact apart.ne_append_blank hv (all_leadingWords known).1 blank first ho.symm
  · exact ⟨z, hz, hstart⟩

end Reference
end Attic
