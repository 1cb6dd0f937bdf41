import Attic.Proofs.Reference.PathStart
import Mathlib

/-!
# Paths in command position

A path that starts like one is found where a command starts: at the start of the line,
behind an operator, and behind the words of `leadingWords`. A shell also starts a command
behind the other words that open a condition or a group, behind a `!` and a brace, and a path
there is not found. What is found is dropped again when the text before its command ends with
a call that imports, whatever opens the command.

Key definitions: `Reference.Opening`, `Reference.Command`.
Key theorems: `Reference.Unread.quiet`, `Reference.Command.mem_occurrences`,
`Reference.Command.eq_or_infix_of_mem`, `Reference.Command.infix_of_mem`,
`Reference.mem_shellRuns_iff`, `Reference.detect_command`.
-/

namespace Attic
namespace Reference

/-! ### Commands -/

variable {lead : List Char}

/-- The other words behind which a shell starts a command. -/
def unreadWords : List String := ["if", "elif", "while", "until", "!", "\x7b"]

/-- What puts a command in its position behind a text. -/
inductive Opening (lead : List Char)
  | line (empty : lead = [])
  /-- One of `;`, `&`, `|`, `(` and a backquote, where no `$` stands before the `(`. -/
  | operator (c : Char) (known : isOperator c = true)
      (plain : c = '(' → lead.getLast? ≠ some '$')
  /-- The operators `&&` and `||`. -/
  | list (c : Char) (known : c = '&' ∨ c = '|')
  | substitution
  /-- A word, which stands apart, and the first blank behind it. -/
  | word (w : String) (known : w ∈ leadingWords ++ unreadWords)
      (starts : startsWord lead.reverse = true) (b : Char) (blank : Text.isBlank b = true)

namespace Opening

def text : Opening lead → List Char
  | line _ => []
  | operator c _ _ => [c]
  | list c _ => [c, c]
  | substitution => ['$', '(']
  | word w _ _ b _ => w.toList ++ [b]

/-- Whether a path behind it is found. -/
def isRead : Opening lead → Bool
  | word w _ _ _ _ => leadingWords.contains w
  | _ => true

/-- The part of it that is passed over. -/
def prior : Opening lead → List Char
  | list c _ => [c]
  | _ => []

/-- The part of it that the path is found behind. -/
def token : Opening lead → List Char
  | line _ => []
  | operator c _ _ => [c]
  | list c _ => [c]
  | substitution => ['$', '(']
  | word w _ _ b _ => w.toList ++ [b]

variable (x : Opening lead)

theorem text_eq : x.text = x.prior ++ x.token := by cases x <;> rfl

theorem opens (read : x.isRead = true) : Opens (lead ++ x.prior).reverse x.token := by
  cases x with
  | line empty => exact .line (by simp [prior, empty])
  | operator c known => exact .operator known
  | list c known =>
    refine .operator ?_
    rcases known with rfl | rfl <;> rfl
  | substitution => exact .substitution
  | word w known starts b blank =>
    refine .word (by simpa [isRead] using read) ?_ blank
    show startsWord (lead ++ []).reverse = true
    rwa [List.append_nil]

theorem apart (read : x.isRead = true) (ho : x.token ≠ []) (rest : List Char) :
    Apart (lead ++ x.prior) (x.token ++ rest) := by
  obtain ⟨plain, breaks⟩ := (x.opens read).breaks ho rest
  cases x with
  | line => exact absurd rfl ho
  | operator c known substitution =>
    refine .of_cons (plain_of_isOperator known) (not_isWordChar_of_isOperator known) breaks ?_
    show c = '(' → (lead ++ []).getLast? ≠ some '$'
    rwa [List.append_nil]
  | list c known =>
    refine .of_cons (plain c rfl) ?_ breaks ?_
    · rcases known with rfl | rfl <;> decide
    · rcases known with rfl | rfl <;> simp
  | substitution => exact .of_cons (by decide) (by decide) breaks (by simp)
  | word w known starts b blank =>
    refine ⟨plain, breaks, fun _ first => ?_, .inl ?_⟩
    · rw [token, List.append_assoc] at first
      obtain ⟨ds, start⟩ := List.head?_eq_some_iff.1 first
      exact ne_word_append (by simpa [isRead] using read) (by decide) _ _ start.symm
    · show startsWord (lead ++ []).reverse = true
      rwa [List.append_nil]

/-- The first of two operators is passed over. -/
theorem quiet_prior (quiet : occurrences pathForm lead = []) :
    occurrences pathForm (lead ++ x.prior) = [] := by
  have same : lead ++ [] = lead := List.append_nil lead
  cases x with
  | list c known =>
    have is : isOperator c = true := by rcases known with rfl | rfl <;> rfl
    have plain := plain_of_isOperator is
    have apart : Apart lead [c] := by
      refine .of_cons plain (not_isWordChar_of_isOperator is) ?_ ?_
      · exact ⟨[], c, [], rfl, List.not_mem_nil, by rw [isBreak, is, Bool.or_true]⟩
      · rcases known with rfl | rfl <;> simp
    have none : pathForm lead.reverse [c] = none := by
      rw [pathForm_eq_none_iff]
      intro o start opens whole
      cases o with
      | nil =>
        obtain rfl : [c] = start := whole
        rcases known with rfl | rfl <;> rfl
      | cons d o =>
        obtain ⟨-, rfl⟩ := List.append_eq_nil_iff.1 (List.cons.inj whole).2.symm
        rfl
    rw [prior, occurrences_append quiet apart, occurrencesFrom, none]
    rfl
  | line => exact same.symm ▸ quiet
  | operator => exact same.symm ▸ quiet
  | substitution => exact same.symm ▸ quiet
  | word => exact same.symm ▸ quiet

end Opening

/-! ### Words that are not known -/

/-- A character that neither opens a command, nor ends a word, nor is passed over. -/
def isInert (c : Char) : Bool :=
  !(Text.isBlank c || isQuote c || isOperator c || c == '$' || c == '/')

theorem of_isInert {c : Char} (h : isInert c = true) :
    (Text.isBlank c = false ∧ isQuote c = false) ∧ isOperator c = false ∧ c ≠ '$' ∧ c ≠ '/' := by
  simp only [isInert, Bool.not_eq_true', Bool.or_eq_false_iff, beq_eq_false_iff_ne] at h
  obtain ⟨⟨⟨⟨blank, quote⟩, operator⟩, sign⟩, slash⟩ := h
  exact ⟨⟨blank, quote⟩, operator, sign, slash⟩

/-- A word that is not known: no other one starts in it. -/
structure Unread (w : String) : Prop where
  unknown : w ∉ leadingWords
  some : w.toList ≠ []
  inert : w.toList.all isInert = true
  letters : w.toList.length = 1 ∨ w.toList.all Text.isWordChar = true

theorem unread_of_mem {w : String} (h : w ∈ unreadWords) : Unread w := by
  simp only [unreadWords, List.mem_cons, List.not_mem_nil, or_false] at h
  rcases h with rfl | rfl | rfl | rfl | rfl | rfl
  all_goals exact ⟨by decide, by decide, by decide, by decide⟩

theorem Unread.breaks {w : String} {b : Char} (unread : Unread w) (blank : Text.isBlank b = true)
    (rest : List Char) : Breaks (w.toList ++ b :: rest) := by
  refine ⟨w.toList, b, rest, rfl, fun slash => ?_, by rw [isBreak, blank, Bool.true_or]⟩
  exact (of_isInert (List.all_eq_true.1 unread.inert '/' slash)).2.2.2 rfl

section

variable {w : String} {start before cs u v y r rest : List Char} {b c d : Char}

/-- No path in command position starts in such a word. -/
theorem Unread.pathForm_eq_none (unread : Unread w) (blank : Text.isBlank b = true)
    (place : w.toList = u ++ d :: y) :
    pathForm (u.reverse ++ before) (d :: y ++ b :: rest) = none := by
  rw [pathForm_eq_none_iff]
  intro o z opens whole
  have inside : ∀ e ∈ u ++ d :: y, e ∈ w.toList := fun e he => place ▸ he
  have inert (e : Char) (he : e ∈ w.toList) := of_isInert (List.all_eq_true.1 unread.inert e he)
  obtain ⟨plain, operator, sign, -⟩ := inert d (inside d (by simp))
  by_cases ho : o = []
  · subst ho
    have none := (List.append_eq_nil_iff.1 opens.eq_nil).1
    obtain rfl := List.reverse_eq_nil_iff.1 none
    obtain rfl : d :: y ++ b :: rest = z := whole
    have breaks := unread.breaks blank rest
    rw [place, List.nil_append] at breaks
    rw [begun_of_plain fun e he => ?_]
    · exact pathLead?_of_breaks breaks
    · obtain rfl : d = e := by simpa using he
      exact plain
  · exfalso
    cases opens with
    | line => exact ho rfl
    | operator is =>
      rw [← (List.cons.inj whole).1, operator] at is
      exact Bool.noConfusion is
    | substitution => exact sign (List.cons.inj whole).1
    | @word w' b' known starts blank' =>
      cases u using List.reverseRecOn with
      | nil =>
        -- the word would be a known one
        rw [List.append_assoc] at whole
        have same := (eq_of_append_blank (fun e he => (inert e (inside e he)).1.1)
          (fun e he => Text.not_isBlank_of_isWordChar
            (List.all_eq_true.1 (all_leadingWords known).1 e he)) blank blank' whole).1
        rw [List.nil_append] at place
        exact unread.unknown (String.toList_injective (place.trans same) ▸ known)
      | append_singleton u e =>
        -- a known word would start in the word
        rcases unread.letters with short | letters
        · have := congrArg List.length place
          simp at this
          omega
        · rw [List.reverse_concat, List.cons_append, startsWord,
            List.all_eq_true.1 letters e (inside e (by simp))] at starts
          exact Bool.noConfusion starts

/-- Nor does one start in the blanks behind it, or with the path itself. -/
theorem LeadsPath.pathForm_eq_none (leads : LeadsPath start) (hb : before ≠ []) (g : Gap)
    (r : List Char) : pathForm before (g.chars ++ (start ++ '/' :: r)) = none := by
  rw [pathForm_eq_none_iff]
  intro o z opens whole
  by_cases ho : o = []
  · subst ho
    exact absurd opens.eq_nil hb
  · exact absurd whole (leads.ne_opens opens ho g r z)

/-- What is left of blanks and a character before its end is blanks and the character. -/
theorem Gap.exists_of_append (g : Gap) (h : g.chars ++ [c] = y ++ v) (hv : v ≠ []) :
    ∃ g' : Gap, v = g'.chars ++ [c] := by
  rcases List.append_eq_append_iff.1 h with ⟨t, -, ht⟩ | ⟨t, ht, rfl⟩
  · cases t with
    | nil => exact ⟨Gap.none, ht.symm⟩
    | cons d t => simp [hv] at ht
  · have blank := g.blank
    rw [ht, List.all_append] at blank
    exact ⟨⟨t, (Bool.and_eq_true_iff.1 blank).2⟩, rfl⟩

/-- From such a word up to a path behind it, no path in command position starts. -/
theorem Unread.quiet (unread : Unread w) (g : Gap) (blank : Text.isBlank b = true)
    (leads : LeadsPath start) (path : start ++ '/' :: r = c :: cs)
    (place : w.toList ++ (b :: g.chars ++ [c]) = u ++ v) (hv : v ≠ []) :
    pathForm (u.reverse ++ before) (v ++ cs) = none := by
  have behind {y : List Char} (hy : b :: g.chars ++ [c] = y ++ v) (hu : u = w.toList ++ y) :
      pathForm (u.reverse ++ before) (v ++ cs) = none := by
    have blanks : (b :: g.chars).all Text.isBlank = true := by
      rw [List.all_cons, blank, g.blank, Bool.and_true]
    obtain ⟨g', rfl⟩ := Gap.exists_of_append ⟨b :: g.chars, blanks⟩ hy hv
    rw [List.append_assoc, List.singleton_append, ← path]
    exact leads.pathForm_eq_none (by simp [hu, unread.some]) g' r
  rcases List.append_eq_append_iff.1 place with ⟨y, hu, hy⟩ | ⟨y, hw, rfl⟩
  · exact behind hy hu
  · cases y with
    | nil => exact behind (y := []) rfl (by simpa using hw.symm)
    | cons d y =>
      rw [List.append_assoc]
      exact unread.pathForm_eq_none blank hw

end

theorem Opening.exists_unread (x : Opening lead) (unread : x.isRead = false) :
    ∃ w b, Unread w ∧ Text.isBlank b = true ∧ startsWord lead.reverse = true ∧
      x.text = w.toList ++ [b] := by
  cases x with
  | line => exact Bool.noConfusion unread
  | operator => exact Bool.noConfusion unread
  | list => exact Bool.noConfusion unread
  | substitution => exact Bool.noConfusion unread
  | word w known starts b blank =>
    have unknown : w ∉ leadingWords := by simpa [isRead] using unread
    have other := (List.mem_append.1 known).resolve_left unknown
    exact ⟨w, b, unread_of_mem other, blank, starts, rfl⟩

/-- A path in command position, with arguments or whatever else behind it. -/
structure Command where
  lead : List Char
  /-- The text before the command holds no path in command position. -/
  quiet : occurrences pathForm lead = []
  opening : Opening lead
  gap : Gap
  start : List Char
  leads : LeadsPath start
  more : List Char
  inside : more.all isShellChar = true
  after : List Char
  stop : ∀ c ∈ after.head?, isShellChar c = false

namespace Command

variable (s : Command)

def word : List Char := s.start ++ '/' :: s.more

def line : List Char := s.lead ++ (s.opening.text ++ (s.gap.chars ++ (s.word ++ s.after)))

/-- What stands before what is found, last character first. -/
def before : List Char := (s.lead ++ s.opening.prior).reverse

def placed : Placed := ⟨s.word, s.before, s.after⟩

/-- The path behind the opening. -/
def path : List Char := s.gap.chars ++ (s.word ++ s.after)

theorem path_eq : s.path = s.gap.chars ++ (s.start ++ '/' :: (s.more ++ s.after)) := by
  rw [path, word, List.append_assoc, List.cons_append]

theorem begun_path : begun s.path = s.start ++ '/' :: (s.more ++ s.after) := by
  obtain ⟨c, cs, start, plain, -⟩ := s.leads.exists_cons (s.more ++ s.after)
  have blank : skipBlanks s.gap.chars = [] := List.dropWhile_eq_nil_iff.2 s.gap.all
  rw [path_eq, begun_append, begun, blank]
  · rfl
  · intro d hd
    rw [start] at hd
    obtain rfl : c = d := by simpa using hd
    exact plain

/-- A path behind an opening that is known is found there. -/
theorem pathForm_token (read : s.opening.isRead = true) :
    pathForm s.before (s.opening.token ++ s.path) = some (s.placed, s.after) := by
  have opens := s.opening.opens read
  refine pathForm_eq_some opens s.begun_path s.leads (List.all_eq_true.1 s.inside) s.stop
    fun o start opens' whole => ?_
  by_cases ho : s.opening.token = []
  · by_cases ho' : o = []
    · exact .inl (ho'.trans ho.symm)
    · rw [ho, List.nil_append, path_eq] at whole
      exact absurd whole (s.leads.ne_opens opens' ho' s.gap _ _)
  · by_cases ho' : o = []
    · subst ho'
      obtain rfl : s.opening.token ++ s.path = start := whole
      obtain ⟨plain, breaks⟩ := opens.breaks ho s.path
      right
      rw [begun_of_plain plain]
      exact pathLead?_of_breaks breaks
    · exact .inl (opens.eq_of_append opens' ho ho' whole).symm

/-- The scan comes to the opening with nothing found. -/
theorem occurrences_line (read : s.opening.isRead = true) :
    occurrences pathForm s.line =
      occurrencesFrom pathForm s.before 0 (s.opening.token ++ s.path) := by
  have whole : s.line = (s.lead ++ s.opening.prior) ++ (s.opening.token ++ s.path) := by
    rw [line, s.opening.text_eq, path, List.append_assoc, List.append_assoc]
  rw [whole]
  by_cases ho : s.opening.token = []
  · have opens := s.opening.opens read
    rw [ho] at opens
    have none := List.reverse_eq_nil_iff.1 opens.eq_nil
    rw [none, before, none]
    rfl
  · exact occurrences_append (s.opening.quiet_prior s.quiet) (s.opening.apart read ho s.path)

/-- What opens the command and the path are read up to what follows them. -/
theorem exists_cons : ∃ c cs, s.opening.token ++ s.path = c :: (cs ++ s.after) := by
  have whole : s.opening.token ++ s.path =
      (s.opening.token ++ (s.gap.chars ++ s.word)) ++ s.after := by
    rw [path, List.append_assoc, List.append_assoc]
  have some : s.opening.token ++ (s.gap.chars ++ s.word) ≠ [] := by simp [word]
  obtain ⟨c, cs, h⟩ := List.exists_cons_of_ne_nil some
  exact ⟨c, cs, by rw [whole, h, List.cons_append]⟩

theorem mem_occurrences (read : s.opening.isRead = true) :
    s.placed ∈ occurrences pathForm s.line := by
  have here := s.pathForm_token read
  obtain ⟨c, cs, h⟩ := s.exists_cons
  rw [h] at here
  rw [s.occurrences_line read, h]
  exact mem_occurrencesFrom here

/-- What else is found stands behind the path. -/
theorem eq_or_infix_of_mem (read : s.opening.isRead = true) {p : Placed}
    (hp : p ∈ occurrences pathForm s.line) : p = s.placed ∨ p.word <:+: s.after := by
  have here := s.pathForm_token read
  obtain ⟨c, cs, h⟩ := s.exists_cons
  rw [h] at here
  rw [s.occurrences_line read, h] at hp
  exact infix_of_mem_after pathForm Placed.word (fun _ _ _ _ => infix_of_pathForm) here
    (List.suffix_append cs s.after) hp

theorem shell : ∀ c ∈ s.word, isShellChar c = true := by
  intro c hc
  rcases List.mem_append.1 hc with first | rest
  · exact isShellChar_of_isLeadChar (List.all_eq_true.1 s.leads.all c first)
  · rcases List.mem_cons.1 rest with rfl | later
    · rfl
    · exact List.all_eq_true.1 s.inside c later

/-- Behind a word that is not known, the path is not found. -/
theorem infix_of_mem (unread : s.opening.isRead = false) {p : Placed}
    (hp : p ∈ occurrences pathForm s.line) (same : p.word = s.word) : s.word <:+: s.after := by
  obtain ⟨w, b, hw, blank, starts, text⟩ := s.opening.exists_unread unread
  obtain ⟨c, cs, path, -⟩ := s.leads.exists_cons (s.more ++ s.after)
  have word : s.word ++ s.after = c :: cs := by
    rw [← path, Command.word, List.append_assoc, List.cons_append]
  have whole : s.line = s.lead ++ ((w.toList ++ (b :: s.gap.chars ++ [c])) ++ cs) := by
    rw [line, text, word]
    simp
  have apart : Apart s.lead ((w.toList ++ (b :: s.gap.chars ++ [c])) ++ cs) := by
    obtain ⟨d, ds, first⟩ := List.exists_cons_of_ne_nil hw.some
    have inert := of_isInert (List.all_eq_true.1 hw.inert d (by simp [first]))
    have breaks := hw.breaks blank (s.gap.chars ++ [c] ++ cs)
    rw [← List.cons_append, ← List.append_assoc] at breaks
    refine ⟨fun e he => ?_, breaks, fun _ paren => ?_, .inl starts⟩
    · obtain rfl : d = e := by simpa [first] using he
      exact inert.1
    · obtain rfl : d = '(' := by simpa [first] using paren
      exact absurd inert.2.1 (by decide)
  have none : ∀ u v, w.toList ++ (b :: s.gap.chars ++ [c]) = u ++ v → v ≠ [] →
      pathForm (u.reverse ++ s.lead.reverse) (v ++ cs) = none := fun u v place hv =>
    hw.quiet s.gap blank s.leads path place hv
  rw [whole, occurrences_append s.quiet apart, occurrencesFrom_append pathForm none] at hp
  have part : s.word <:+: cs :=
    same ▸ infix_of_mem_occurrencesFrom Placed.word (fun _ _ _ _ => infix_of_pathForm) hp
  -- it is longer than what is left of it
  obtain ⟨ws, hws, rfl⟩ : ∃ ws, s.word = c :: ws ∧ cs = ws ++ s.after := by
    cases h : s.word with
    | nil => exact absurd h (by simp [Command.word])
    | cons e ws =>
      rw [h] at word
      obtain ⟨rfl, rfl⟩ := List.cons.inj word
      exact ⟨ws, rfl, rfl⟩
  have stop : ∀ e ∈ s.after.head?, e ∉ s.word := by
    intro e he inside
    have outside := s.stop e he
    rw [s.shell e inside] at outside
    exact Bool.noConfusion outside
  refine (infix_append_stop part stop).resolve_left fun short => ?_
  have := short.length_le
  rw [hws, List.length_cons] at this
  omega

end Command

/-! ### Runs of scripts -/

theorem mem_shellRuns_iff {line word : List Char} :
    .path (String.ofList word) ∈ shellRuns line ↔
      (word ∈ occurrences interpreterForm line ∧ looksLikePath word = true) ∨
      (∃ p ∈ occurrences pathForm line, isCallArgument p.before = false ∧ p.word = word) ∨
      ∃ p ∈ occurrences bareForm line, (isCallArgument p.before = false ∧
        isBareCommand p.word p.after = true) ∧ p.word = word := by
  have said {word' : List Char} :
      Specifier.path (String.ofList word') = .path (String.ofList word) ↔ word' = word := by
    rw [Specifier.path.injEq, String.ofList_inj]
  rw [shellRuns, mem_foldl_addNew_iff, List.mem_map, List.mem_map]
  simp only [said, List.mem_append, List.mem_filter, Bool.and_eq_true, Bool.not_eq_true',
    or_and_right, exists_or, exists_eq_right_right, and_assoc]

/-- A path that starts like a word does not start like a path. -/
theorem ne_of_mem_bareForm {start r line : List Char} (leads : LeadsPath start) {p : Placed}
    (hp : p ∈ occurrences bareForm line) : p.word ≠ start ++ '/' :: r := by
  obtain ⟨b, ds, rest, here⟩ := exists_of_mem_occurrencesFrom hp
  obtain ⟨text, -, found⟩ := exists_of_firstOf? here
  intro same
  split at found
  · exact absurd found (by simp)
  · next c cs _ =>
    split at found
    · next bare =>
      obtain ⟨rfl, -⟩ := Prod.mk.inj (Option.some.inj found)
      rw [leads.not_bare same.symm, Bool.false_and] at bare
      exact Bool.noConfusion bare
    · exact absurd found (by simp)

/-- **A path in command position is found behind the start of the line, an operator or one of
the words that are known**, unless the text before it ends with a call that imports. Behind
any other word it is not found: only the argument of an interpreter, or the same path
again further on, is. -/
theorem detect_command (s : Command) :
    (s.opening.isRead = true ∧ isCallArgument s.before = false →
      (.shellExec, .path (String.ofList s.word)) ∈ detect .other s.line) ∧
    ((.shellExec, .path (String.ofList s.word)) ∈ detect .other s.line →
      (s.opening.isRead = true ∧ isCallArgument s.before = false) ∨ s.word <:+: s.after ∨
        s.word ∈ occurrences interpreterForm s.line) := by
  have found : (.shellExec, .path (String.ofList s.word)) ∈ detect .other s.line ↔ _ :=
    mem_detect_iff.trans mem_shellRuns_iff
  rw [found]
  constructor
  · rintro ⟨read, call⟩
    exact .inr (.inl ⟨s.placed, s.mem_occurrences read, call, rfl⟩)
  · rintro (⟨argument, -⟩ | ⟨p, hp, call, same⟩ | ⟨p, hp, -, same⟩)
    · exact .inr (.inr argument)
    · cases read : s.opening.isRead with
      | false => exact .inr (.inl (s.infix_of_mem read hp same))
      | true =>
        rcases s.eq_or_infix_of_mem read hp with rfl | later
        · exact .inl ⟨rfl, call⟩
        · exact .inr (.inl (same ▸ later))
    · exact absurd same (ne_of_mem_bareForm s.leads hp)

/-- A script is found behind `then`, and neither behind `if` nor behind the operator after a
text that ends like a call. -/
theorem detect_command_condition :
    (.shellExec, .path "./scripts/a.sh") ∈ detect .other "then ./scripts/a.sh; fi".toList ∧
    (.shellExec, .path "./scripts/a.sh") ∉ detect .other "if ./scripts/a.sh; then".toList ∧
    (.shellExec, .path "./scripts/a.sh") ∉
      detect .other "npm run import; ./scripts/a.sh".toList := by
  refine ⟨?_, fun there => ?_, fun there => ?_⟩
  · exact (detect_command {
      lead := [], quiet := rfl, opening := .word "then" (by decide) rfl ' ' rfl, gap := .none,
      start := ['.'], leads := .here, more := "scripts/a.sh".toList, inside := by decide,
      after := "; fi".toList, stop := by simp [isShellChar] }).1 ⟨by decide, by decide⟩
  · rcases (detect_command {
      lead := [], quiet := rfl, opening := .word "if" (by decide) rfl ' ' rfl, gap := .none,
      start := ['.'], leads := .here, more := "scripts/a.sh".toList, inside := by decide,
      after := "; then".toList, stop := by simp [isShellChar] }).2 there
      with ⟨read, -⟩ | again | argument
    · exact absurd read (by decide)
    · exact absurd again (by decide)
    · exact absurd argument (by decide)
  · rcases (detect_command {
      lead := "npm run import".toList, quiet := by decide, opening := .operator ';' rfl (by simp),
      gap := ⟨[' '], rfl⟩, start := ['.'], leads := .here, more := "scripts/a.sh".toList,
      inside := by decide, after := [], stop := by simp }).2 there
      with ⟨-, call⟩ | again | argument
    · exact absurd call (by decide)
    · exact absurd again (by decide)
    · exact absurd argument (by decide)

end Reference
end Attic
