import Attic.Proofs.Text.Ends
import Attic.Reference.Detect
import Mathlib

/-!
# The plain forms of references

The plainest line of each kind of reference to a script: an import or a call
with the quoted relative path of the script, or a command with the path from the
root. Where the path is made of letters, digits, underscores, dots, dashes and
slashes, the kind is found in its line, with the path as it is written.

Key definitions: `Reference.isPathChar`, `Reference.Kind.line`,
`Reference.Kind.said`.
Key theorem: `Reference.mem_specifiersOf`.
-/

namespace Attic
namespace Reference

/-- A character of a plain name. -/
def isPlain (c : Char) : Bool := c.isAlphanum || c == '_' || c == '.' || c == '-'

/-- A character of a path of plain names. -/
def isPathChar (c : Char) : Bool := isPlain c || c == '/'

namespace Kind

/-- The plainest line of a kind, for the relative path of a script and for the one
from the root. -/
def line (kind : Kind) (relative script : List Char) : List Char :=
  match kind with
  | .staticImport => "import x from \x27".toList ++ (relative ++ ['\x27'])
  | .dynamicImport => "await import(\x27".toList ++ (relative ++ ['\x27', ')'])
  | .require => "require(\x27".toList ++ (relative ++ ['\x27', ')'])
  | .shellSource => "source ".toList ++ script
  | .shellExec => "./".toList ++ script

/-- The path that the line says. -/
def said (kind : Kind) (relative script : List Char) : List Char :=
  match kind with
  | .shellSource => script
  | .shellExec => "./".toList ++ script
  | _ => relative

end Kind

/-! ### Path characters -/

/-- What a path character is not. -/
structure Unmarked (c : Char) : Prop where
  blank : Text.isBlank c = false
  quote : isAnyQuote c = false
  shell : isShellChar c = true
  angle : c ≠ '<' ∧ c ≠ '>'
  feed : c ≠ '\n'
  mark : c ≠ '?' ∧ c ≠ '#'
  hole : c ≠ '$'
  lead : c ≠ '~' ∧ c ≠ '@'

instance (c : Char) : Decidable (Unmarked c) :=
  decidable_of_iff (Text.isBlank c = false ∧ isAnyQuote c = false ∧ isShellChar c = true ∧
    (c ≠ '<' ∧ c ≠ '>') ∧ c ≠ '\n' ∧ (c ≠ '?' ∧ c ≠ '#') ∧ c ≠ '$' ∧ c ≠ '~' ∧ c ≠ '@')
    ⟨fun ⟨a, b, c, d, e, f, g, h⟩ => ⟨a, b, c, d, e, f, g, h⟩,
      fun ⟨a, b, c, d, e, f, g, h⟩ => ⟨a, b, c, d, e, f, g, h⟩⟩

theorem lt_of_isPathChar {c : Char} (h : isPathChar c = true) : c.toNat < 128 := by
  have ends : 'Z'.val.toNat = 90 ∧ 'z'.val.toNat = 122 ∧ '9'.val.toNat = 57 := by decide
  have num : c.toNat = c.val.toNat := rfl
  simp only [isPathChar, isPlain, Bool.or_eq_true, beq_iff_eq] at h
  rcases h with (((h | rfl) | rfl) | rfl) | rfl
  · simp only [Char.isAlphanum, Char.isAlpha, Char.isUpper, Char.isLower, Char.isDigit,
      Bool.or_eq_true, Bool.and_eq_true, decide_eq_true_eq, UInt32.le_iff_toNat_le] at h
    omega
  all_goals decide

theorem unmarked {c : Char} (h : isPathChar c = true) : Unmarked c := by
  have all : ∀ n < 128, isPathChar (Char.ofNat n) = true → Unmarked (Char.ofNat n) := by
    decide +kernel
  have same : Char.ofNat c.toNat = c := Char.ofNat_toNat c
  have := all c.toNat (lt_of_isPathChar h)
  rw [same] at this
  exact this h

/-! ### Finding a form -/

section

variable {α : Type} {form : Form α} {before cs rest raw : List Char} {c : Char} {a : α}

theorem mem_detect_iff {kind : Kind} {flavor : Flavor} {line : List Char} {x : Specifier} :
    (kind, x) ∈ detect flavor line ↔ x ∈ specifiersOf kind flavor line := by
  rw [detect, List.mem_flatMap]
  constructor
  · rintro ⟨k, -, there⟩
    obtain ⟨y, hy, same⟩ := List.mem_map.1 there
    obtain ⟨rfl, rfl⟩ := Prod.mk.inj same
    exact hy
  · intro hx
    have known : kind ∈ Kind.all := by cases kind <;> decide
    exact ⟨kind, known, List.mem_map_of_mem hx⟩

/-- A form is found at the place where it stands. -/
theorem mem_occurrencesFrom (h : form before (c :: cs) = some (a, rest)) :
    a ∈ occurrencesFrom form before 0 (c :: cs) := by
  rw [occurrencesFrom, h]
  exact List.mem_cons_self

theorem skipBlanks_of_head (h : Text.isBlank c = false) : skipBlanks (c :: cs) = c :: cs :=
  Text.trimStart_of_head h

theorem takeWhile_append_stop {p : Char → Bool} (all : ∀ c ∈ raw, p c = true)
    (stop : ∀ c ∈ rest.head?, p c = false) : (raw ++ rest).takeWhile p = raw := by
  rw [List.takeWhile_append_of_pos all]
  cases rest with
  | nil => simp
  | cons d ds => simp [stop d (by simp)]

theorem dropWhile_append_stop {p : Char → Bool} (all : ∀ c ∈ raw, p c = true)
    (stop : ∀ c ∈ rest.head?, p c = false) : (raw ++ rest).dropWhile p = rest := by
  rw [List.dropWhile_append_of_pos all]
  cases rest with
  | nil => rfl
  | cons d ds => simp [stop d (by simp)]

theorem run?_append (p : Char → Bool) (rest : List Char) (hne : raw ≠ [])
    (all : ∀ c ∈ raw, p c = true) (stop : ∀ c ∈ rest.head?, p c = false) :
    run? p (raw ++ rest) = some (raw, rest) := by
  rw [run?, takeWhile_append_stop all stop, dropWhile_append_stop all stop]
  cases raw with
  | nil => exact absurd rfl hne
  | cons d ds => rfl

end

/-! ### The five lines -/

variable {raw relative script : List Char}

/-- A quoted path is read whole. -/
theorem between?_quoted (opens inside closes : Char → Bool) (rest : List Char) (hne : raw ≠ [])
    (plain : ∀ c ∈ raw, isPathChar c = true) (open' : opens '\x27' = true)
    (close : closes '\x27' = true) (stop : inside '\x27' = false)
    (all : ∀ c, Unmarked c → inside c = true) :
    between? opens inside closes ('\x27' :: (raw ++ '\x27' :: rest)) = some (raw, rest) := by
  have run := run?_append inside ('\x27' :: rest) hne
    (fun c hc => all c (unmarked (plain c hc))) (by simpa using stop)
  rw [between?, if_pos open', run]
  simp only [close, if_true]

theorem Unmarked.isQuote {c : Char} (h : Unmarked c) : isQuote c = false := by
  have := h.quote
  simp only [isAnyQuote, Bool.or_eq_false_iff] at this
  exact this.1

theorem mem_importForm (hne : raw ≠ []) (plain : ∀ c ∈ raw, isPathChar c = true) :
    raw ∈ occurrences importForm (Kind.line .staticImport raw []) := by
  have form : importForm " x tropmi".toList ("from \x27".toList ++ (raw ++ ['\x27'])) =
      some (raw, []) := by
    refine between?_quoted (fun c => isQuote c || c == '<')
      (fun c => !(isQuote c || c == '<' || c == '>' || c == '\n'))
      (fun c => isQuote c || c == '>') [] hne plain rfl rfl rfl fun c h => ?_
    simp [h.isQuote, h.angle, h.feed]
  have behind : occurrences importForm (Kind.line .staticImport raw []) =
      occurrencesFrom importForm " x tropmi".toList 0
        ("from \x27".toList ++ (raw ++ ['\x27'])) := rfl
  rw [behind]
  exact mem_occurrencesFrom form

/-- The argument of a call is read whole. -/
theorem callArgument?_quoted (hne : raw ≠ []) (plain : ∀ c ∈ raw, isPathChar c = true) :
    callArgument? ("(\x27".toList ++ (raw ++ ['\x27', ')'])) = some (raw, [')']) := by
  refine between?_quoted isAnyQuote (fun c => !(isAnyQuote c || c == '\n')) isAnyQuote [')'] hne
    plain rfl rfl rfl fun c h => ?_
  simp [h.quote, h.feed]

theorem mem_dynamicForm (hne : raw ≠ []) (plain : ∀ c ∈ raw, isPathChar c = true) :
    raw ∈ occurrences dynamicForm (Kind.line .dynamicImport raw []) := by
  have form : dynamicForm " tiawa".toList ("import(\x27".toList ++ (raw ++ ['\x27', ')'])) =
      some (raw, [')']) := callArgument?_quoted hne plain
  have behind : occurrences dynamicForm (Kind.line .dynamicImport raw []) =
      occurrencesFrom dynamicForm " tiawa".toList 0
        ("import(\x27".toList ++ (raw ++ ['\x27', ')'])) := rfl
  rw [behind]
  exact mem_occurrencesFrom form

theorem mem_requireForm (hne : raw ≠ []) (plain : ∀ c ∈ raw, isPathChar c = true) :
    raw ∈ occurrences requireForm (Kind.line .require raw []) := by
  have form : requireForm [] ("require(\x27".toList ++ (raw ++ ['\x27', ')'])) =
      some (raw, [')']) := callArgument?_quoted hne plain
  exact mem_occurrencesFrom form

/-- A path is a word of a command. -/
theorem shellWord?_plain (hne : raw ≠ []) (plain : ∀ c ∈ raw, isPathChar c = true) :
    shellWord? raw = some (raw, []) := by
  obtain ⟨c, cs, rfl⟩ := List.exists_cons_of_ne_nil hne
  have first := unmarked (plain c List.mem_cons_self)
  have quoted : skipQuote (c :: cs) = c :: cs := by
    rw [skipQuote, first.isQuote, if_neg Bool.false_ne_true]
  have run := run?_append isShellChar [] hne (fun d hd => (unmarked (plain d hd)).shell) (by simp)
  rw [List.append_nil] at run
  rw [shellWord?, quoted, run]

theorem mem_sourceForm (hne : raw ≠ []) (plain : ∀ c ∈ raw, isPathChar c = true) :
    raw ∈ occurrences sourceForm (Kind.line .shellSource [] raw) := by
  have word := shellWord?_plain hne plain
  obtain ⟨c, cs, rfl⟩ := List.exists_cons_of_ne_nil hne
  have first := unmarked (plain c List.mem_cons_self)
  have blanks : blanks? (' ' :: c :: cs) = some (c :: cs) := by
    rw [blanks?, if_pos (by rfl), skipBlanks_of_head first.blank]
  have form : sourceForm [] ("source ".toList ++ (c :: cs)) = some (c :: cs, []) := by
    have start : commandStarts [] ("source ".toList ++ (c :: cs)) =
        ["source ".toList ++ (c :: cs)] := rfl
    have read : (literal? "source" ("source ".toList ++ (c :: cs))).or
        (literal? "." ("source ".toList ++ (c :: cs))) = some (' ' :: c :: cs) := rfl
    have still : skipBlanks ("source ".toList ++ (c :: cs)) = "source ".toList ++ (c :: cs) := rfl
    rw [sourceForm, start]
    simp only [firstOf?, still, read, Option.bind_some, blanks, word, Option.or_none]
  exact mem_occurrencesFrom form

theorem mem_addNew_iff {x s : Specifier} {specs : List Specifier} :
    x ∈ addNew specs s ↔ x ∈ specs ∨ x = s := by
  unfold addNew
  split
  · next there =>
    have there : s ∈ specs := by simpa using there
    exact ⟨.inl, fun h => h.elim id fun e => e ▸ there⟩
  · rw [List.mem_append, List.mem_singleton]

/-- What is added to specifiers is there, and so are those it is added to. -/
theorem mem_foldl_addNew_iff {x : Specifier} : ∀ {new specs : List Specifier},
    x ∈ new.foldl addNew specs ↔ x ∈ specs ∨ x ∈ new
  | [], specs => by simp
  | s :: new, specs => by
    rw [List.foldl_cons, mem_foldl_addNew_iff, mem_addNew_iff, List.mem_cons, or_assoc]

theorem mem_pathForm (plain : ∀ c ∈ raw, isPathChar c = true) :
    ⟨"./".toList ++ raw, [], []⟩ ∈ occurrences pathForm (Kind.line .shellExec [] raw) := by
  have all : raw.dropWhile isShellChar = [] :=
    List.dropWhile_eq_nil_iff.2 fun c hc => (unmarked (plain c hc)).shell
  have form : pathForm [] ("./".toList ++ raw) = some (⟨"./".toList ++ raw, [], []⟩, []) := by
    have start : commandStarts [] ("./".toList ++ raw) = ["./".toList ++ raw] := rfl
    have still : skipQuote (skipBlanks ("./".toList ++ raw)) = "./".toList ++ raw := rfl
    have lead : pathLead? ("./".toList ++ raw) = some raw := rfl
    rw [pathForm, start]
    simp only [firstOf?, still, lead, Option.map_some, all, List.length_nil, Nat.sub_zero,
      List.take_length, Option.or_none]
  exact mem_occurrencesFrom form

/-- **The plain line of a kind says its path in a reference of that kind.** -/
theorem mem_specifiersOf (kind : Kind) (hr : relative ≠ []) (hs : script ≠ [])
    (plainR : ∀ c ∈ relative, isPathChar c = true) (plainS : ∀ c ∈ script, isPathChar c = true) :
    .path (String.ofList (kind.said relative script)) ∈
      specifiersOf kind .other (kind.line relative script) := by
  have whole {raw : List Char} (plain : ∀ c ∈ raw, isPathChar c = true) :
      pathOrComputed raw = .path (String.ofList raw) := by
    have closed : Text.occursIn ['$', '\x7b'] raw = false :=
      Text.occursIn_of_not_mem ['\x7b'] fun h => (unmarked (plain _ h)).hole rfl
    rw [pathOrComputed, closed, if_neg Bool.false_ne_true]
  cases kind with
  | staticImport => exact List.mem_map.2 ⟨relative, mem_importForm hr plainR, rfl⟩
  | dynamicImport => exact List.mem_map.2 ⟨relative, mem_dynamicForm hr plainR, whole plainR⟩
  | require => exact List.mem_map.2 ⟨relative, mem_requireForm hr plainR, whole plainR⟩
  | shellSource => exact List.mem_map.2 ⟨script, mem_sourceForm hs plainS, rfl⟩
  | shellExec =>
    have there := (List.mem_filter (p := fun p => !isCallArgument p.before)).2
      ⟨mem_pathForm plainS, rfl⟩
    exact mem_foldl_addNew_iff.2 (.inr (List.mem_map.2 ⟨_, List.mem_append_left _ there, rfl⟩))

end Reference
end Attic
