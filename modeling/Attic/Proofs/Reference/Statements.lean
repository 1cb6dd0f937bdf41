import Attic.Proofs.Path.Parts
import Attic.Proofs.Reference.Pieces
import Mathlib

/-!
# Import statements

A `from` statement says its module and each listed name as a module in it, with as many
leading dots as it is written with, whatever blanks, aliases and parentheses stand around
the names. An `import` statement says the names that it lists up to the first one with an
alias: what an alias follows is not read.

Key definitions: `Reference.Listed`, `Reference.FromStatement`,
`Reference.ImportStatement`, `Reference.upToAlias`.
Key theorems: `Reference.Listed.firstWord?_text`, `Reference.FromStatement.fromImport?_line`,
`Reference.specifiersOf_fromStatement`, `Reference.ImportStatement.importNames?_line`,
`Reference.mem_detect_importStatement_iff`.
-/

namespace Attic

/-- A first piece goes on from what stands before it. -/
theorem Text.glue_append_cons {sep : Char} (u piece : List Char) (ps : List (List Char)) :
    glue sep ((u ++ piece) :: ps) = u ++ glue sep (piece :: ps) := by
  cases ps with
  | nil => rfl
  | cons q ps => rw [glue, glue, List.append_assoc]

namespace Reference

variable {p : Char → Bool} {c : Char}

/-! ### Modules and blanks -/

theorem not_isModuleChar_of_isBlank (h : Text.isBlank c = true) : isModuleChar c = false := by
  have dot : (c == '.') = false := Text.of_isBlank (p := fun c => (c == '.') = false) (by decide) h
  rw [isModuleChar, Text.not_isWordChar_of_isBlank h, dot, Bool.or_false]

theorem not_isBlank_of_isModuleChar (h : isModuleChar c = true) : Text.isBlank c = false := by
  by_contra blank
  rw [Bool.not_eq_false] at blank
  rw [not_isModuleChar_of_isBlank blank] at h
  exact Bool.noConfusion h

/-! ### Lists of names -/

/-- Another name for what a statement imports, after `as`. -/
structure Alias where
  before : Run Text.isBlank
  between : Run Text.isBlank
  name : Run Text.isWordChar

def Alias.text (a : Alias) : List Char :=
  a.before.chars ++ ("as".toList ++ (a.between.chars ++ a.name.chars))

/-- A name in a list, between blanks and perhaps with an alias. -/
structure Listed (p : Char → Bool) where
  before : Gap
  name : Run p
  alias? : Option Alias
  after : Gap

namespace Listed

/-- What follows the name up to the next comma. -/
def behind (i : Listed p) : List Char := i.alias?.elim [] Alias.text ++ i.after.chars

def text (i : Listed p) : List Char := i.before.chars ++ (i.name.chars ++ i.behind)

/-- The same item without the blanks before it. -/
def bare (i : Listed p) : Listed p := { i with before := .none }

/-- A name ends where its class does, since only a blank can follow. -/
theorem head?_behind (i : Listed p) : ∀ c ∈ i.behind.head?, Text.isBlank c = true := by
  intro c hc
  unfold behind at hc
  cases h : i.alias? with
  | none =>
    rw [h] at hc
    exact i.after.all c (List.mem_of_mem_head? hc)
  | some a =>
    rw [h, Option.elim_some, Alias.text, List.append_assoc] at hc
    exact a.before.head?_append _ c hc

/-- The blanks around a listed word and its alias are the only other characters. -/
theorem of_mem_text {i : Listed Text.isWordChar} (hc : c ∈ i.text) :
    Text.isWordChar c = true ∨ Text.isBlank c = true := by
  have told {a : Alias} (hc : c ∈ a.text) : Text.isWordChar c = true ∨ Text.isBlank c = true := by
    simp only [Alias.text, List.mem_append] at hc
    rcases hc with blank | keyword | blank | word
    · exact .inr (a.before.all c blank)
    · have word : "as".toList.all Text.isWordChar = true := rfl
      exact .inl (List.all_eq_true.1 word c keyword)
    · exact .inr (a.between.all c blank)
    · exact .inl (a.name.all c word)
  simp only [text, behind, List.mem_append] at hc
  rcases hc with blank | word | aliased | blank
  · exact .inr (i.before.all c blank)
  · exact .inl (i.name.all c word)
  · cases h : i.alias? with
    | none => simp [h] at aliased
    | some a => exact told (by simpa [h] using aliased)
  · exact .inr (i.after.all c blank)

/-- An item's first word is its name. -/
theorem firstWord?_text (i : Listed Text.isWordChar) :
    Text.firstWord? i.text = some i.name.chars := by
  have trimmed : Text.trimStart i.text = i.name.chars ++ i.behind :=
    (i.before.skipBlanks _).trans
      (i.name.skipBlanks (fun _ => Text.not_isBlank_of_isWordChar) i.behind)
  have taken : (i.name.chars ++ i.behind).takeWhile (fun c => !Text.isBlank c) = i.name.chars :=
    takeWhile_append_stop
      (fun c hc => by rw [Text.not_isBlank_of_isWordChar (i.name.all c hc), Bool.not_false])
      (fun c hc => by rw [i.head?_behind c hc, Bool.not_true])
  obtain ⟨c, cs, start, -⟩ := i.name.exists_cons
  rw [Text.firstWord?, trimmed]
  rw [start] at taken ⊢
  exact congrArg some taken

end Listed

/-! ### From statements -/

/-- A statement that imports some names from a module, which is written with word
characters and dots. -/
structure FromStatement where
  indent : Gap
  gap : Run Text.isBlank
  dots : ℕ
  module : List Char
  inside : module.all isModuleChar = true := by decide
  start : module.head? ≠ some '.' := by decide
  /-- There is a module, or there are dots in its place. -/
  somewhere : 0 < dots ∨ module ≠ [] := by decide
  gap' : Run Text.isBlank
  /-- The blanks before an opening parenthesis. -/
  opening? : Option Gap
  first : Listed Text.isWordChar
  more : List (Listed Text.isWordChar)
  /-- The blanks behind a comma after the last name. -/
  trailing? : Option Gap
  /-- What follows a closing parenthesis. -/
  closing? : Option (List Char)

namespace FromStatement

variable (s : FromStatement)

/-- The dots and the module, which are one run. -/
def reach : Run isModuleChar where
  chars := List.replicate s.dots '.' ++ s.module
  nonempty := by
    intro none
    obtain ⟨noDots, noModule⟩ := List.append_eq_nil_iff.1 none
    rcases s.somewhere with some | some
    · rw [List.replicate_eq_nil_iff] at noDots
      omega
    · exact some noModule
  inside := by
    rw [List.all_append, s.inside, Bool.and_true, List.all_eq_true]
    intro c hc
    rw [List.eq_of_mem_replicate hc]
    rfl

/-- The pieces between the commas, from a first item on. -/
def pieces (first : Listed Text.isWordChar) : List (List Char) :=
  (first :: s.more).map Listed.text ++ s.trailing?.toList.map Gap.chars

/-- What follows the last piece. -/
def ending : List Char := s.closing?.elim [] (fun rest => ')' :: rest)

/-- What follows `import`. -/
def list : List Char :=
  s.opening?.elim [] (fun g => g.chars ++ ['(']) ++ (Text.glue ',' (s.pieces s.first) ++ s.ending)

def line : List Char :=
  s.indent.chars ++ ("from".toList ++ (s.gap.chars ++ (s.reach.chars ++
    (s.gap'.chars ++ ("import".toList ++ s.list)))))

/-- A listed name as a module in the module. -/
def member (i : Listed Text.isWordChar) : List Char :=
  if s.module = [] then i.name.chars else s.module ++ '.' :: i.name.chars

/-- The names with what stands between them. -/
def names : List Char := Text.glue ',' (s.pieces s.first.bare)

theorem glue_pieces : Text.glue ',' (s.pieces s.first) = s.first.before.chars ++ s.names :=
  Text.glue_append_cons _ _ _

theorem exists_names : ∃ c cs, s.names = c :: cs ∧ Text.isWordChar c = true := by
  obtain ⟨c, cs, start, word⟩ := s.first.name.exists_cons
  refine ⟨c, cs ++ Text.glue ',' (s.first.behind ::
    (s.more.map Listed.text ++ s.trailing?.toList.map Gap.chars)), ?_, word⟩
  rw [← List.cons_append, ← start]
  show Text.glue ',' ((s.first.name.chars ++ s.first.behind) :: _) = _
  exact Text.glue_append_cons _ _ _

/-- A piece is made of words and blanks. -/
theorem of_mem_pieces {i : Listed Text.isWordChar} {piece : List Char} (hp : piece ∈ s.pieces i)
    (hc : c ∈ piece) : Text.isWordChar c = true ∨ Text.isBlank c = true := by
  rcases List.mem_append.1 hp with item | last
  · obtain ⟨j, -, rfl⟩ := List.mem_map.1 item
    exact Listed.of_mem_text hc
  · obtain ⟨g, -, rfl⟩ := List.mem_map.1 last
    exact .inr (g.all c hc)

/-- The names are read up to a closing parenthesis or the end of the line. -/
theorem importedNames_list : importedNames s.list = s.names := by
  obtain ⟨c, cs, start, word⟩ := s.exists_names
  have blank : Text.isBlank c = false := Text.not_isBlank_of_isWordChar word
  have open' : c ≠ '(' := by
    rintro rfl
    exact absurd word (by decide)
  have inner : skipBlanks (Text.glue ',' (s.pieces s.first) ++ s.ending) =
      c :: (cs ++ s.ending) := by
    rw [glue_pieces, List.append_assoc, s.first.before.skipBlanks, start]
    exact skipBlanks_of_head blank
  have taken : (s.names ++ s.ending).takeWhile
      (fun c => Text.isWordChar c || Text.isBlank c || c == ',') = s.names := by
    refine takeWhile_append_stop (fun d hd => ?_) fun d hd => ?_
    · rcases Text.mem_glue hd with rfl | ⟨piece, hp, hd⟩
      · rfl
      · rcases s.of_mem_pieces hp hd with word | blank
        · rw [word, Bool.true_or, Bool.true_or]
        · rw [blank, Bool.or_true, Bool.true_or]
    · unfold ending at hd
      cases h : s.closing? with
      | none => simp [h] at hd
      | some rest =>
        obtain rfl : ')' = d := by simpa [h] using hd
        rfl
  rw [start, List.cons_append] at taken
  rw [start, list]
  cases s.opening? with
  | none =>
    rw [importedNames, Option.elim_none, List.nil_append, inner]
    split
    · next opened => exact absurd (List.cons.inj opened).1 open'
    · exact taken
  | some g =>
    have outer (rest : List Char) : skipBlanks (g.chars ++ ['('] ++ rest) = '(' :: rest := by
      rw [List.append_assoc, g.skipBlanks]
      exact skipBlanks_of_head rfl
    rw [importedNames, Option.elim_some, outer]
    simp only [inner, taken]

/-- The dots end at the module, and without one at a blank. -/
theorem undotted {tail : List Char} (gap : ∀ c ∈ tail.head?, Text.isBlank c = true) :
    ∀ c ∈ (s.module ++ tail).head?, decide (c = '.') = false := by
  intro c hc
  refine decide_eq_false ?_
  rintro rfl
  cases h : s.module with
  | nil =>
    rw [h] at hc
    exact absurd (gap '.' hc) (by decide)
  | cons d ds =>
    rw [h] at hc
    exact s.start (by simpa [h] using hc)

/-- The dots, the module and the names of a `from` statement are told apart. -/
theorem fromImport?_line : fromImport? s.line = some (s.dots, s.module, s.names) := by
  obtain ⟨tail, htail⟩ : ∃ tail, tail = s.gap'.chars ++ ("import".toList ++ s.list) := ⟨_, rfl⟩
  have gap : ∀ c ∈ tail.head?, Text.isBlank c = true := htail ▸ s.gap'.head?_append _
  have from? : literal? "from" (skipBlanks s.line) =
      some (s.gap.chars ++ (s.reach.chars ++ tail)) := by
    rw [line, ← htail]
    exact s.indent.literal? (by decide) (by decide) _
  have reached : s.reach.chars ++ tail = List.replicate s.dots '.' ++ (s.module ++ tail) :=
    List.append_assoc ..
  have dotted : ∀ c ∈ List.replicate s.dots '.', decide (c = '.') = true := fun c hc =>
    decide_eq_true (List.eq_of_mem_replicate hc)
  have moduled : ∀ c ∈ s.module, isModuleChar c = true := List.all_eq_true.1 s.inside
  have ended : ∀ c ∈ tail.head?, isModuleChar c = false := fun c hc =>
    not_isModuleChar_of_isBlank (gap c hc)
  have import? : (blanks? tail).bind (literal? "import") = some s.list := by
    rw [htail, s.gap'.blanks?]
    exact Gap.none.literal? (by decide) (by decide) s.list
  rw [fromImport?, from?, Option.bind_some, s.gap.blanks?,
    s.reach.skipBlanks fun _ => not_isBlank_of_isModuleChar, Option.bind_some, reached]
  simp only [takeWhile_append_stop dotted (s.undotted gap),
    dropWhile_append_stop dotted (s.undotted gap), takeWhile_append_stop moduled ended,
    dropWhile_append_stop moduled ended, import?, List.length_replicate, s.importedNames_list]

/-- The names are cut at the commas, and each is its piece's first word. -/
theorem cutEach_names : (Text.cutEach ',' s.names).filterMap Text.firstWord? =
    (s.first :: s.more).map (·.name.chars) := by
  have comma : ∀ piece ∈ s.pieces s.first.bare, ',' ∉ piece := by
    intro piece hp hc
    rcases s.of_mem_pieces hp hc with word | blank
    · exact absurd word (by decide)
    · exact absurd blank (by decide)
  have last : (s.trailing?.toList.map Gap.chars).filterMap Text.firstWord? = [] := by
    cases s.trailing? with
    | none => rfl
    | some g =>
      have none : Text.trimStart g.chars = [] := List.dropWhile_eq_nil_iff.2 g.all
      simp [Text.firstWord?, none]
  have items (is : List (Listed Text.isWordChar)) :
      (is.map Listed.text).filterMap Text.firstWord? = is.map (·.name.chars) := by
    rw [List.filterMap_map, ← List.filterMap_eq_map]
    exact List.filterMap_congr fun i _ => Listed.firstWord?_text i
  rw [names, Text.cutEach_glue (by simp [pieces]) comma, pieces, List.filterMap_append, last,
    List.append_nil, items]
  rfl

end FromStatement

/-- **A `from` statement says its module and each listed name in it**, in their order and
with the dots that it has. -/
theorem specifiersOf_fromStatement (s : FromStatement) :
    specifiersOf .staticImport .python s.line =
      .module (String.ofList s.module) s.dots ::
        (s.first :: s.more).map fun i => .module (String.ofList (s.member i)) s.dots := by
  calc specifiersOf .staticImport .python s.line
      = fromSpecifiers s.dots s.module s.names := by
        rw [specifiersOf, staticImports, pythonImports, s.fromImport?_line]
    _ = _ := by
        rw [fromSpecifiers, s.cutEach_names, List.map_map]
        rfl

/-- Two dots, a list in parentheses with an alias, a comma behind it and a remark. -/
theorem specifiersOf_fromStatement_relative : specifiersOf .staticImport .python
    "from ..pkg import (a as b, c, )  # d".toList =
      [.module "pkg" 2, .module "pkg.a" 2, .module "pkg.c" 2] :=
  specifiersOf_fromStatement {
    indent := .none, gap := ⟨[' '], by decide, by decide⟩, dots := 2, module := "pkg".toList
    gap' := ⟨[' '], by decide, by decide⟩, opening? := some ⟨[' '], by decide⟩
    first := {
      before := .none, name := ⟨['a'], by decide, by decide⟩
      alias? := some ⟨⟨[' '], by decide, by decide⟩, ⟨[' '], by decide, by decide⟩,
        ⟨['b'], by decide, by decide⟩⟩
      after := .none }
    more := [⟨⟨[' '], by decide⟩, ⟨['c'], by decide, by decide⟩, none, .none⟩]
    trailing? := some ⟨[' '], by decide⟩, closing? := some "  # d".toList }

/-! ### Import statements -/

/-- A statement that imports some modules. -/
structure ImportStatement where
  indent : Gap
  gap : Run Text.isBlank
  first : Listed isModuleChar
  more : List (Listed isModuleChar)

namespace ImportStatement

variable (s : ImportStatement)

def line : List Char :=
  s.indent.chars ++ ("import".toList ++ (s.gap.chars ++
    Text.glue ',' ((s.first :: s.more).map Listed.text)))

end ImportStatement

/-- The items up to the first one with an alias. -/
def upToAlias : List (Listed p) → List (Listed p)
  | [] => []
  | i :: is => i :: if i.alias?.isSome then [] else upToAlias is

/-- The items behind another one, each behind its comma. -/
def further : List (Listed p) → List Char
  | [] => []
  | i :: is => ',' :: (i.text ++ further is)

theorem glue_text : ∀ (i : Listed p) (is : List (Listed p)),
    Text.glue ',' ((i :: is).map Listed.text) = i.text ++ further is
  | _, [] => (List.append_nil _).symm
  | i, j :: is => congrArg (fun rest => i.text ++ ',' :: rest) (glue_text j is)

/-- An item is read up to its name's end. -/
theorem run?_text (i : Listed isModuleChar) (is : List (Listed isModuleChar)) :
    run? isModuleChar (skipBlanks (i.text ++ further is)) =
      some (i.name.chars, i.behind ++ further is) := by
  have stop : ∀ c ∈ (i.behind ++ further is).head?, isModuleChar c = false := by
    intro c hc
    cases h : i.behind with
    | cons d ds =>
      have blank := i.head?_behind d (by simp [h])
      obtain rfl : d = c := by simpa [h] using hc
      exact not_isModuleChar_of_isBlank blank
    | nil =>
      cases is with
      | nil => simp [h, further] at hc
      | cons j is =>
        obtain rfl : ',' = c := by simpa [h, further] using hc
        rfl
  rw [Listed.text, List.append_assoc, i.before.skipBlanks, List.append_assoc,
    i.name.skipBlanks fun _ => not_isBlank_of_isModuleChar]
  exact i.name.run? stop

theorem moreNames_of_alias {i : Listed isModuleChar} {a : Alias} (h : i.alias? = some a) (n : ℕ)
    (rest : List Char) : moreNames n (i.behind ++ rest) = [] := by
  have read : skipBlanks (i.behind ++ rest) =
      'a' :: 's' :: (a.between.chars ++ a.name.chars ++ i.after.chars ++ rest) := by
    have start : i.behind ++ rest = a.before.chars ++
        'a' :: 's' :: (a.between.chars ++ a.name.chars ++ i.after.chars ++ rest) := by
      simp [Listed.behind, h, Alias.text]
    rw [start, a.before.skipBlanks_blank]
    exact skipBlanks_of_head rfl
  cases n with
  | zero => rfl
  | succ n =>
    rw [moreNames, read]
    rfl

theorem moreNames_of_plain {i : Listed isModuleChar} (h : i.alias? = none) (n : ℕ)
    (rest : List Char) : moreNames n (i.behind ++ rest) = moreNames n rest := by
  have after : i.behind = i.after.chars := by
    rw [Listed.behind, h, Option.elim_none, List.nil_append]
  cases n with
  | zero => rfl
  | succ n => rw [moreNames, moreNames, after, i.after.skipBlanks]

/-- The names behind one are read up to the first item with an alias. -/
theorem cons_moreNames (is : List (Listed isModuleChar)) : ∀ (i : Listed isModuleChar) (n : ℕ),
    is.length ≤ n → i.name.chars :: moreNames n (i.behind ++ further is) =
      (upToAlias (i :: is)).map (·.name.chars) := by
  induction is with
  | nil =>
    intro i n _
    cases h : i.alias? with
    | none =>
      rw [moreNames_of_plain h, upToAlias, h]
      cases n <;> rfl
    | some a =>
      rw [moreNames_of_alias h, upToAlias, h]
      rfl
  | cons j is ih =>
    intro i n room
    cases h : i.alias? with
    | some a =>
      rw [moreNames_of_alias h, upToAlias, h]
      rfl
    | none =>
      obtain ⟨n, rfl⟩ : ∃ k, n = k + 1 := Nat.exists_eq_succ_of_ne_zero (Nat.ne_zero_of_lt room)
      have comma : skipBlanks (further (j :: is)) = ',' :: (j.text ++ further is) :=
        skipBlanks_of_head rfl
      have next : moreNames (n + 1) (further (j :: is)) =
          j.name.chars :: moreNames n (j.behind ++ further is) := by
        simp only [moreNames, comma, run?_text]
      have rest : upToAlias (i :: j :: is) = i :: upToAlias (j :: is) := by
        rw [upToAlias, h]
        rfl
      rw [moreNames_of_plain h, next, ih j n (Nat.le_of_succ_le_succ room), rest, List.map_cons]

theorem length_further_le : ∀ is : List (Listed p), is.length ≤ (further is).length
  | [] => Nat.le_refl 0
  | i :: is => by
    have ih := length_further_le is
    rw [further, List.length_cons, List.length_cons, List.length_append]
    omega

namespace ImportStatement

variable (s : ImportStatement)

/-- The names of an `import` statement are read up to the first alias. -/
theorem importNames?_line :
    importNames? s.line = some ((upToAlias (s.first :: s.more)).map (·.name.chars)) := by
  have room : s.more.length ≤ (s.first.behind ++ further s.more).length := by
    have := length_further_le s.more
    rw [List.length_append]
    omega
  rw [importNames?, line, s.indent.literal? (by decide) (by decide), Option.bind_some,
    s.gap.blanks?, Option.bind_some, glue_text, run?_text, Option.map_some]
  exact congrArg some (cons_moreNames s.more s.first _ room)

/-- It is no `from` statement. -/
theorem fromImport?_line : fromImport? s.line = none := by
  have still (rest : List Char) : skipBlanks ("import".toList ++ rest) = "import".toList ++ rest :=
    skipBlanks_of_head rfl
  rw [fromImport?, line, s.indent.skipBlanks, still]
  rfl

end ImportStatement

/-- **An `import` statement says the modules up to the first one with an alias**, and
nothing of what it lists behind that. -/
theorem mem_detect_importStatement_iff (s : ImportStatement) (m : String) :
    (.staticImport, .module m 0) ∈ detect .python s.line ↔
      m ∈ (upToAlias (s.first :: s.more)).map fun i => String.ofList i.name.chars := by
  have said : specifiersOf .staticImport .python s.line =
      (upToAlias (s.first :: s.more)).map fun i => .module (String.ofList i.name.chars) 0 := by
    rw [specifiersOf, staticImports, pythonImports, s.fromImport?_line, s.importNames?_line]
    exact List.map_map
  calc (.staticImport, .module m 0) ∈ detect .python s.line
      ↔ .module m 0 ∈ specifiersOf .staticImport .python s.line := mem_detect_iff
    _ ↔ _ := by
      rw [said]
      simp only [List.mem_map, Specifier.module.injEq, and_true]

/-- The module behind one with an alias is not found. -/
theorem mem_detect_importStatement_iff_alias :
    (.staticImport, .module "m1" 0) ∈ detect .python "import m1 as a1, m2".toList ∧
    (.staticImport, .module "m2" 0) ∉ detect .python "import m1 as a1, m2".toList := by
  have found := mem_detect_importStatement_iff {
    indent := .none, gap := ⟨[' '], by decide, by decide⟩
    first := {
      before := .none, name := ⟨"m1".toList, by decide, by decide⟩
      alias? := some ⟨⟨[' '], by decide, by decide⟩, ⟨[' '], by decide, by decide⟩,
        ⟨"a1".toList, by decide, by decide⟩⟩
      after := .none }
    more := [⟨⟨[' '], by decide⟩, ⟨"m2".toList, by decide, by decide⟩, none, .none⟩] }
  exact ⟨(found "m1").2 (by decide), fun there => absurd ((found "m2").1 there) (by decide)⟩

end Reference
end Attic
