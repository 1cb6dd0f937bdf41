import Attic.Proofs.Reference.Openings
import Mathlib

/-!
# Where paths in command position start

What a path in command position starts with, as a relation beside the function that looks for
it. The start of a path goes up to its first slash and holds neither a blank nor an
operator, so it does not reach over what opens a command.

Key definitions: `Reference.LeadsPath`, `Reference.begun`.
Key theorems: `Reference.pathLead?_eq_some_iff`, `Reference.pathLead?_append`,
`Reference.pathForm_eq_some`, `Reference.pathForm_append_eq_none`,
`Reference.occurrences_append`.
-/

namespace Attic
namespace Reference

variable {before cs ds lead rest start u v o : List Char} {c : Char}

/-! ### Path starts -/

/-- What stands before the first slash of a path in command position. -/
inductive LeadsPath : List Char → Prop
  | root : LeadsPath []
  | here : LeadsPath ['.']
  | parent : LeadsPath ['.', '.']
  | home : LeadsPath ['~']
  | named {o e : List Char} (opening : o = [] ∨ o = ['\x7b']) (name : Run Text.isWordChar)
      (closing : e = [] ∨ e = ['\x7d']) : LeadsPath ('$' :: (o ++ (name.chars ++ e)))

/-- A character of such a start. -/
def isLeadChar (c : Char) : Bool :=
  Text.isWordChar c || c == '.' || c == '~' || c == '$' || c == '\x7b' || c == '\x7d'

theorem isShellChar_of_isLeadChar (h : isLeadChar c = true) : isShellChar c = true := by
  have plain (h : Text.isWordChar c = true) : isShellChar c = true := by
    by_contra other
    simp only [isShellChar, isAnyQuote, isQuote, Bool.not_eq_true, Bool.not_eq_false',
      Bool.or_eq_true, beq_iff_eq, Text.not_isBlank_of_isWordChar h, Bool.false_eq_true,
      false_or] at other
    rcases other with ((((((((rfl | rfl) | rfl) | rfl) | rfl) | rfl) | rfl) | rfl) | rfl)
    all_goals exact absurd h (by decide)
  simp only [isLeadChar, Bool.or_eq_true, beq_iff_eq] at h
  rcases h with ((((word | rfl) | rfl) | rfl) | rfl) | rfl
  · exact plain word
  all_goals decide

namespace LeadsPath

variable {b : List Char}

theorem all (h : LeadsPath b) : b.all isLeadChar = true := by
  cases h with
  | root => rfl
  | here => rfl
  | parent => rfl
  | home => rfl
  | @named o e opening name closing =>
    have braces : o.all isLeadChar = true ∧ e.all isLeadChar = true := by
      constructor
      · rcases opening with rfl | rfl <;> rfl
      · rcases closing with rfl | rfl <;> rfl
    have word : name.chars.all isLeadChar = true := by
      rw [List.all_eq_true]
      intro c hc
      simp [isLeadChar, name.all c hc]
    have sign : isLeadChar '$' = true := rfl
    rw [List.all_cons, List.all_append, List.all_append, sign, braces.1, word, braces.2]
    rfl

theorem slash_not_mem (h : LeadsPath b) : '/' ∉ b := fun hc =>
  absurd (List.all_eq_true.1 h.all '/' hc) (by decide)

end LeadsPath

theorem eq_append_of_run? {p : Char → Bool} (h : run? p cs = some (ds, rest)) :
    cs = ds ++ rest ∧ ds ≠ [] ∧ ds.all p = true := by
  unfold run? at h
  split at h
  · exact absurd h (by simp)
  · next some =>
    obtain ⟨rfl, rfl⟩ := Prod.mk.inj (Option.some.inj h)
    exact ⟨List.takeWhile_append_dropWhile.symm, some, List.all_takeWhile⟩

theorem variableSlash?_eq_some_iff : variableSlash? cs = some rest ↔
    ∃ o e, (o = [] ∨ o = ['\x7b']) ∧ (e = [] ∨ e = ['\x7d']) ∧ ∃ name : Run Text.isWordChar,
      cs = '$' :: (o ++ (name.chars ++ (e ++ '/' :: rest))) := by
  constructor
  · intro h
    rw [variableSlash?, Option.bind_eq_some_iff] at h
    obtain ⟨behind, sign, h⟩ := h
    rw [literal?_eq_some_iff] at sign
    subst sign
    -- the brace before the name, and the one behind it
    have opened : ∃ o, (o = [] ∨ o = ['\x7b']) ∧ ∃ named, behind = o ++ named ∧
        ∃ name tail, run? Text.isWordChar named = some (name, tail) ∧
          ∃ e, (e = [] ∨ e = ['\x7d']) ∧ tail = e ++ '/' :: rest := by
      simp only at h
      split at h
      all_goals
        rw [Option.bind_eq_some_iff] at h
        obtain ⟨⟨name, tail⟩, read, ended⟩ := h
        have closed : ∃ e, (e = [] ∨ e = ['\x7d']) ∧ tail = e ++ '/' :: rest := by
          simp only at ended
          split at ended
          all_goals rw [literal?_eq_some_iff] at ended
          · exact ⟨['\x7d'], .inr rfl, by rw [ended]; rfl⟩
          · exact ⟨[], .inl rfl, by rw [ended]; rfl⟩
      · exact ⟨['\x7b'], .inr rfl, _, rfl, name, tail, read, closed⟩
      · exact ⟨[], .inl rfl, _, rfl, name, tail, read, closed⟩
    obtain ⟨o, ho, named, rfl, name, tail, read, e, he, rfl⟩ := opened
    obtain ⟨rfl, nonempty, word⟩ := eq_append_of_run? read
    exact ⟨o, e, ho, he, ⟨name, nonempty, word⟩, rfl⟩
  · rintro ⟨o, e, ho, he, name, rfl⟩
    have read : run? Text.isWordChar (name.chars ++ (e ++ '/' :: rest)) =
        some (name.chars, e ++ '/' :: rest) := by
      refine name.run? fun c hc => ?_
      rcases he with rfl | rfl
      all_goals
        simp only [List.nil_append, List.cons_append, List.head?_cons, Option.mem_def,
          Option.some.injEq] at hc
        subst hc
        rfl
    have unopened : ∀ r, name.chars ++ (e ++ '/' :: rest) ≠ '\x7b' :: r := by
      intro r same
      obtain ⟨c, tail, start, word⟩ := name.exists_cons
      rw [start, List.cons_append] at same
      obtain rfl : c = '\x7b' := (List.cons.inj same).1
      exact absurd word (by decide)
    have sign (ds : List Char) : literal? "$" ('$' :: ds) = some ds :=
      literal?_eq_some_iff.2 rfl
    have slash : literal? "/" ('/' :: rest) = some rest := literal?_eq_some_iff.2 rfl
    rw [variableSlash?, sign, Option.bind_some]
    rcases ho with rfl | rfl
    all_goals
      simp only [List.nil_append, List.cons_append]
      rw [read, Option.bind_some]
      rcases he with rfl | rfl
      · exact slash
      · exact slash

/-- The ways in which the start of a path is looked for are its starts. -/
theorem literal?_or_iff : (literal? "../" cs = some rest ∨ literal? "./" cs = some rest ∨
    literal? "/" cs = some rest ∨ literal? "~/" cs = some rest ∨
      variableSlash? cs = some rest) ↔ ∃ b, LeadsPath b ∧ cs = b ++ '/' :: rest := by
  simp only [literal?_eq_some_iff]
  constructor
  · rintro (parent | here | root | home | named)
    · exact ⟨_, .parent, parent⟩
    · exact ⟨_, .here, here⟩
    · exact ⟨_, .root, root⟩
    · exact ⟨_, .home, home⟩
    · obtain ⟨o, e, ho, he, name, rfl⟩ := variableSlash?_eq_some_iff.1 named
      exact ⟨_, .named ho name he, by simp⟩
  · rintro ⟨b, leads, rfl⟩
    cases leads with
    | parent => exact .inl rfl
    | here => exact .inr (.inl rfl)
    | root => exact .inr (.inr (.inl rfl))
    | home => exact .inr (.inr (.inr (.inl rfl)))
    | @named o e ho name he =>
      refine .inr (.inr (.inr (.inr (variableSlash?_eq_some_iff.2 ⟨o, e, ho, he, name, ?_⟩))))
      simp only [List.cons_append, List.append_assoc]

/-- A path in command position starts with one of its starts and a slash. -/
theorem pathLead?_eq_some_iff :
    pathLead? cs = some rest ↔ ∃ b, LeadsPath b ∧ cs = b ++ '/' :: rest := by
  have each {rest : List Char} : (∃ x ∈ [literal? "../" cs, literal? "./" cs, literal? "/" cs,
      literal? "~/" cs, variableSlash? cs], id x = some rest) ↔
        ∃ b, LeadsPath b ∧ cs = b ++ '/' :: rest := by
    simp only [List.mem_cons, List.not_mem_nil, or_false, exists_eq_or_imp, exists_eq_left, id]
    exact literal?_or_iff
  constructor
  · exact fun h => each.1 (exists_of_firstOf? h)
  · intro h
    obtain ⟨x, hx, found⟩ := each.2 h
    refine firstOf?_eq_some hx found fun y hy rest' found' => ?_
    -- the first slash is the same one
    obtain ⟨b, leads, whole⟩ := h
    obtain ⟨b', leads', whole'⟩ := each.1 ⟨y, hy, found'⟩
    have behind {b : List Char} (rest : List Char) (leads : LeadsPath b) :
        (b ++ '/' :: rest).dropWhile (fun c => c != '/') = '/' :: rest := by
      refine dropWhile_append_stop (fun c hc => ?_) (by simp)
      simpa using fun e : c = '/' => leads.slash_not_mem (e ▸ hc)
    have same := behind rest leads
    rw [← whole, whole', behind rest' leads'] at same
    exact (List.cons.inj same).2

/-! ### Paths behind openings -/

theorem not_isLeadChar_of_isBreak (h : isBreak c = true) : isLeadChar c = false := by
  rcases Bool.or_eq_true_iff.1 h with blank | operator
  · have others : ((c == '.') || (c == '~') || (c == '$') || (c == '\x7b') ||
        (c == '\x7d')) = false :=
      Text.of_isBlank (p := fun c => ((c == '.') || (c == '~') || (c == '$') || (c == '\x7b') ||
        (c == '\x7d')) = false) (by decide) blank
    simpa [isLeadChar, Text.not_isWordChar_of_isBlank blank] using others
  · simp only [isOperator, Bool.or_eq_true, beq_iff_eq] at operator
    rcases operator with (((rfl | rfl) | rfl) | rfl) | rfl
    all_goals decide

/-- A path does not start before a break and go on behind it. -/
theorem pathLead?_append (breaks : Breaks rest) (h : pathLead? cs = none) :
    pathLead? (cs ++ rest) = none := by
  obtain ⟨t, c, ds, rfl, inside, isBreak⟩ := breaks
  have slash : c ≠ '/' := by
    rintro rfl
    exact absurd isBreak (by decide)
  have before {b r : List Char} (same : t ++ c :: ds = b ++ '/' :: r) : c ∈ b := by
    rcases List.append_eq_append_iff.1 same with ⟨u, rfl, behind⟩ | ⟨u, rfl, behind⟩
    · cases u with
      | nil => exact absurd (List.cons.inj behind).1 slash
      | cons d u => simp [(List.cons.inj behind).1]
    · cases u with
      | nil => exact absurd (List.cons.inj behind).1.symm slash
      | cons d u =>
        rw [← (List.cons.inj behind).1] at inside
        exact absurd (List.mem_append_right b List.mem_cons_self) inside
  by_contra found
  obtain ⟨r, found⟩ := Option.ne_none_iff_exists'.1 found
  obtain ⟨b, leads, whole⟩ := pathLead?_eq_some_iff.1 found
  have outside : c ∉ b := fun hc => by
    have lead := List.all_eq_true.1 leads.all c hc
    rw [not_isLeadChar_of_isBreak isBreak] at lead
    exact Bool.noConfusion lead
  rcases List.append_eq_append_iff.1 whole with ⟨u, rfl, behind⟩ | ⟨u, hcs, behind⟩
  · exact outside (List.mem_append_right cs (before behind))
  · cases u with
    | nil => exact absurd (before (b := []) behind.symm) List.not_mem_nil
    | cons d u =>
      obtain ⟨rfl, rfl⟩ := List.cons.inj behind
      rw [pathLead?_eq_some_iff.2 ⟨b, leads, hcs⟩] at h
      exact absurd h (by simp)

theorem pathLead?_of_breaks (breaks : Breaks rest) : pathLead? rest = none := by
  show pathLead? ([] ++ rest) = none
  exact pathLead?_append breaks rfl

/-- What a path in command position is looked for in, behind an opening. -/
def begun (cs : List Char) : List Char := skipQuote (skipBlanks cs)

/-- Only blanks and a quote are passed over. -/
theorem begun_append (plain : ∀ c ∈ rest.head?, Text.isBlank c = false ∧ isQuote c = false)
    (cs : List Char) : begun (cs ++ rest) = begun cs ++ rest := by
  have still : skipBlanks rest = rest ∧ skipQuote rest = rest := by
    cases rest with
    | nil => exact ⟨rfl, rfl⟩
    | cons c rest =>
      obtain ⟨blank, quote⟩ := plain c rfl
      exact ⟨skipBlanks_of_head blank, by rw [skipQuote, quote, if_neg Bool.false_ne_true]⟩
  have skipped : skipBlanks (cs ++ rest) = skipBlanks cs ++ rest := by
    show (cs ++ rest).dropWhile Text.isBlank = cs.dropWhile Text.isBlank ++ rest
    rw [List.dropWhile_append]
    split
    · next none =>
      rw [List.isEmpty_iff.1 none]
      exact still.1
    · rfl
  unfold begun
  rw [skipped]
  cases skipBlanks cs with
  | nil => exact still.2
  | cons c ds =>
    rw [List.cons_append, skipQuote, skipQuote]
    split <;> rfl

theorem begun_of_plain (plain : ∀ c ∈ cs.head?, Text.isBlank c = false ∧ isQuote c = false) :
    begun cs = cs := begun_append plain []

theorem pathForm_eq_none_iff : pathForm before cs = none ↔
    ∀ o start, Opens before o → cs = o ++ start → pathLead? (begun start) = none := by
  rw [pathForm, firstOf?_eq_none_iff]
  simp only [Option.map_eq_none_iff, mem_commandStarts_iff]
  constructor
  · intro h o start opens whole
    exact h start ⟨o, opens, whole⟩
  · rintro h start ⟨o, opens, whole⟩
    exact h o start opens whole

/-- What is found stands behind an opening, up to where its characters end. -/
theorem exists_of_pathForm {p : Placed} (h : pathForm before cs = some (p, rest)) :
    ∃ o start, Opens before o ∧ cs = o ++ start ∧ begun start = p.word ++ rest := by
  obtain ⟨start, hstart, found⟩ := exists_of_firstOf? h
  obtain ⟨o, opens, whole⟩ := mem_commandStarts_iff.1 hstart
  obtain ⟨r, lead, placed⟩ := Option.map_eq_some_iff.1 found
  obtain ⟨rfl, rfl⟩ := Prod.mk.inj placed
  obtain ⟨b, -, split⟩ := pathLead?_eq_some_iff.1 lead
  refine ⟨o, start, opens, whole, ?_⟩
  have left : r.dropWhile isShellChar <:+ begun start := by
    refine (List.dropWhile_suffix _).trans ?_
    rw [begun, split]
    exact (List.suffix_cons '/' r).trans (List.suffix_append b _)
  have behind := List.suffix_iff_eq_drop.1 left
  calc begun start = _ ++ _ := (List.take_append_drop _ _).symm
    _ = _ := by rw [← behind]; rfl

/-- What is found is a part of the text. -/
theorem infix_of_pathForm {p : Placed} (h : pathForm before cs = some (p, rest)) :
    p.word <:+: cs := by
  obtain ⟨o, start, -, rfl, path⟩ := exists_of_pathForm h
  have quote (cs : List Char) : skipQuote cs <:+ cs := by
    cases cs with
    | nil => exact List.suffix_rfl
    | cons c cs =>
      rw [skipQuote]
      split
      · exact List.suffix_cons c cs
      · exact List.suffix_rfl
  calc p.word <:+: p.word ++ rest := (List.prefix_append _ _).isInfix
    _ = begun start := path.symm
    _ <:+: start := ((quote _).trans (List.dropWhile_suffix _)).isInfix
    _ <:+: o ++ start := (List.suffix_append o start).isInfix

variable {b more after : List Char}

/-- A path is found behind an opening, when none is behind another one at the same
place. -/
theorem pathForm_eq_some (opens : Opens before o)
    (path : begun start = b ++ '/' :: (more ++ after)) (leads : LeadsPath b)
    (inside : ∀ c ∈ more, isShellChar c = true) (stop : ∀ c ∈ after.head?, isShellChar c = false)
    (only : ∀ o' start', Opens before o' → o ++ start = o' ++ start' →
      o' = o ∨ pathLead? (begun start') = none) :
    pathForm before (o ++ start) = some (⟨b ++ '/' :: more, before, after⟩, after) := by
  have lead : pathLead? (begun start) = some (more ++ after) :=
    pathLead?_eq_some_iff.2 ⟨b, leads, path⟩
  have word : (begun start).take ((begun start).length - after.length) = b ++ '/' :: more := by
    have whole : begun start = (b ++ '/' :: more) ++ after := by rw [path]; simp
    rw [whole, List.length_append, Nat.add_sub_cancel, List.take_left]
  have found : ((pathLead? (begun start)).map fun rest =>
      let after := rest.dropWhile isShellChar
      ((⟨(begun start).take ((begun start).length - after.length), before, after⟩ : Placed),
        after)) = some (⟨b ++ '/' :: more, before, after⟩, after) := by
    rw [lead, Option.map_some]
    simp only [dropWhile_append_stop inside stop, word]
  refine firstOf?_eq_some (mem_commandStarts_iff.2 ⟨o, opens, rfl⟩) found fun x hx y hy => ?_
  obtain ⟨o', opens', whole⟩ := mem_commandStarts_iff.1 hx
  rcases only o' x opens' whole with rfl | none
  · obtain rfl := List.append_cancel_left whole
    exact Option.some.inj (hy.symm.trans found)
  · obtain ⟨r, lead, -⟩ := Option.map_eq_some_iff.1 hy
    rw [← begun, none] at lead
    exact absurd lead (by simp)

/-! ### Paths and texts apart -/

/-- Where no path stands in a text, none that starts there ends behind it. -/
theorem pathForm_append_eq_none (apart : Apart v rest) (hv : v ≠ [])
    (quiet : pathForm before v = none) : pathForm before (v ++ rest) = none := by
  rw [pathForm_eq_none_iff] at quiet ⊢
  intro o start opens whole
  obtain ⟨z, hz, rfl⟩ := opens.exists_of_append apart hv whole
  rw [begun_append apart.plain]
  exact pathLead?_append apart.breaks (quiet o z opens hz)

/-- Behind a text that holds no path, the scan goes on as if it started there. -/
theorem occurrences_append (quiet : occurrences pathForm lead = []) (apart : Apart lead rest) :
    occurrences pathForm (lead ++ rest) = occurrencesFrom pathForm lead.reverse 0 rest := by
  have none : ∀ u v, lead = u ++ v → v ≠ [] → pathForm (u.reverse ++ []) (v ++ rest) = none := by
    intro u v whole hv
    rw [List.append_nil]
    exact pathForm_append_eq_none ((whole ▸ apart).of_append hv) hv
      (occurrences_eq_nil_iff.1 quiet u v whole hv)
  have scanned := occurrencesFrom_append pathForm none
  rwa [List.append_nil] at scanned

/-- A path starts with no character that opens a command, and with none that is passed
over. -/
theorem LeadsPath.exists_cons {b : List Char} (leads : LeadsPath b) (r : List Char) :
    ∃ c cs, b ++ '/' :: r = c :: cs ∧ (Text.isBlank c = false ∧ isQuote c = false) ∧
      Text.isWordChar c = false ∧ isOperator c = false ∧ (c = '$' → cs.head? ≠ some '(') := by
  cases leads with
  | root => exact ⟨'/', r, rfl, by decide, by decide, by decide, by simp⟩
  | here => exact ⟨'.', '/' :: r, rfl, by decide, by decide, by decide, by simp⟩
  | parent => exact ⟨'.', '.' :: '/' :: r, rfl, by decide, by decide, by decide, by simp⟩
  | home => exact ⟨'~', '/' :: r, rfl, by decide, by decide, by decide, by simp⟩
  | @named o e opening name closing =>
    refine ⟨'$', _, rfl, by decide, by decide, by decide, fun _ => ?_⟩
    rcases opening with rfl | rfl
    · obtain ⟨c, cs, start, word⟩ := name.exists_cons
      rw [start]
      rintro same
      obtain rfl : c = '(' := by simpa using same
      exact absurd word (by decide)
    · simp

theorem LeadsPath.not_bare {b r cs : List Char} (leads : LeadsPath b)
    (h : b ++ '/' :: r = c :: cs) :
    (Text.isWordChar c || c == '@' || c == '+' || c == '-') = false := by
  cases leads
  all_goals
    obtain ⟨rfl, -⟩ := List.cons.inj h
    decide

/-- What a path starts with opens no command, and neither do the blanks before it. -/
theorem LeadsPath.ne_opens {b : List Char} (leads : LeadsPath b) (opens : Opens before o)
    (ho : o ≠ []) (g : Gap) (r v : List Char) : g.chars ++ (b ++ '/' :: r) ≠ o ++ v := by
  have first : ∃ c cs, g.chars ++ (b ++ '/' :: r) = c :: cs ∧ Text.isWordChar c = false ∧
      isOperator c = false ∧ (c = '$' → cs.head? ≠ some '(') := by
    cases h : g.chars with
    | nil =>
      obtain ⟨c, cs, start, -, facts⟩ := leads.exists_cons r
      exact ⟨c, cs, start, facts⟩
    | cons d ds =>
      have blank := g.all d (h ▸ List.mem_cons_self)
      refine ⟨d, _, rfl, Text.not_isWordChar_of_isBlank blank, ?_, ?_⟩
      · by_contra operator
        rw [(plain_of_isOperator (by simpa using operator)).1] at blank
        exact Bool.noConfusion blank
      · rintro rfl
        exact absurd blank (by decide)
  obtain ⟨c, cs, start, word, operator, sign⟩ := first
  rw [start]
  intro h
  cases opens with
  | line => exact ho rfl
  | operator is =>
    rw [← (List.cons.inj h).1, operator] at is
    exact Bool.noConfusion is
  | substitution =>
    obtain ⟨rfl, behind⟩ := List.cons.inj h
    exact sign rfl (by rw [behind]; rfl)
  | word known =>
    rw [List.append_assoc] at h
    exact ne_word_append known word _ _ h

end Reference
end Attic
