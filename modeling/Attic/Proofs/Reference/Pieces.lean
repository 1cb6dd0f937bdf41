import Attic.Proofs.Reference.Forms
import Mathlib

/-!
# Pieces of lines

A line is written as one piece after the other: gaps of blanks, which may be empty, and
runs of characters of a class, which may not. A recognizer reads a piece that stands
before a rest of which it takes nothing.

Key definitions: `Reference.Run`, `Reference.Gap`.
Key theorems: `Text.not_isBlank_of_isWordChar`, `Reference.literal?_append`,
`Reference.Gap.skipBlanks`, `Reference.Run.blanks?`, `Reference.Run.run?`,
`Reference.Gap.literal?`.
-/

namespace Attic

namespace Text

/-- The code points of the blanks. -/
def blankCodes : List Nat :=
  List.range' 9 5 ++ ([32, 0x85, 0xA0, 0x1680] ++
    (List.range' 0x2000 11 ++ [0x2028, 0x2029, 0x202F, 0x205F, 0x3000]))

theorem mem_blankCodes {c : Char} (h : isBlank c = true) : c.toNat ∈ blankCodes := by
  simp only [isBlank, Bool.or_eq_true, Bool.and_eq_true, decide_eq_true_eq, beq_iff_eq] at h
  simp only [blankCodes, List.mem_append, List.mem_range'_1, List.mem_cons, List.not_mem_nil,
    or_false]
  omega

/-- What holds of each blank by its code point holds of all blanks. -/
theorem of_isBlank {p : Char → Prop} (all : ∀ n ∈ blankCodes, p (Char.ofNat n)) {c : Char}
    (h : isBlank c = true) : p c := by
  have here := all _ (mem_blankCodes h)
  rwa [Char.ofNat_toNat] at here

theorem not_isWordChar_of_isBlank {c : Char} (h : isBlank c = true) : isWordChar c = false :=
  of_isBlank (p := fun c => isWordChar c = false) (by decide +kernel) h

theorem not_isBlank_of_isWordChar {c : Char} (h : isWordChar c = true) : isBlank c = false := by
  by_contra blank
  rw [Bool.not_eq_false] at blank
  rw [not_isWordChar_of_isBlank blank] at h
  exact Bool.noConfusion h

end Text

namespace Reference

variable {p : Char → Bool} {cs rest : List Char}

/-- A run of characters of a class, at least one. -/
structure Run (p : Char → Bool) where
  chars : List Char
  nonempty : chars ≠ [] := by decide
  inside : chars.all p = true := by decide

/-- Blanks, perhaps none. -/
structure Gap where
  chars : List Char
  blank : chars.all Text.isBlank = true := by decide

/-- No blanks. -/
def Gap.none : Gap where
  chars := []

/-! ### Reading them -/

theorem literal?_append (word : String) (rest : List Char) :
    literal? word (word.toList ++ rest) = some rest := by
  have start : word.toList.isPrefixOf (word.toList ++ rest) = true :=
    List.isPrefixOf_iff_prefix.2 (List.prefix_append _ _)
  rw [literal?, if_pos start, ← String.length_toList, List.drop_left]

namespace Gap

theorem all (g : Gap) : ∀ c ∈ g.chars, Text.isBlank c = true := List.all_eq_true.1 g.blank

theorem skipBlanks (g : Gap) (rest : List Char) :
    Reference.skipBlanks (g.chars ++ rest) = Reference.skipBlanks rest :=
  List.dropWhile_append_of_pos g.all

end Gap

namespace Run

theorem all (r : Run p) : ∀ c ∈ r.chars, p c = true := List.all_eq_true.1 r.inside

theorem exists_cons (r : Run p) : ∃ c cs, r.chars = c :: cs ∧ p c = true := by
  obtain ⟨c, cs, h⟩ := List.exists_cons_of_ne_nil r.nonempty
  exact ⟨c, cs, h, r.all c (h ▸ List.mem_cons_self)⟩

theorem head?_append (r : Run p) (rest : List Char) :
    ∀ c ∈ (r.chars ++ rest).head?, p c = true := by
  obtain ⟨d, ds, start, inside⟩ := r.exists_cons
  intro c hc
  rw [start] at hc
  obtain rfl : d = c := by simpa using hc
  exact inside

theorem skipBlanks_blank (g : Run Text.isBlank) (rest : List Char) :
    Reference.skipBlanks (g.chars ++ rest) = Reference.skipBlanks rest :=
  List.dropWhile_append_of_pos g.all

/-- Blanks that must be there. -/
theorem blanks? (g : Run Text.isBlank) (rest : List Char) :
    Reference.blanks? (g.chars ++ rest) = some (Reference.skipBlanks rest) := by
  obtain ⟨c, cs, h, blank⟩ := g.exists_cons
  have more : ∀ d ∈ cs, Text.isBlank d = true := fun d hd => g.all d (by simp [h, hd])
  rw [h, List.cons_append, Reference.blanks?, if_pos blank]
  exact congrArg some (List.dropWhile_append_of_pos more)

/-- A run is read up to where its class ends. -/
theorem run? (r : Run p) (stop : ∀ c ∈ rest.head?, p c = false) :
    Reference.run? p (r.chars ++ rest) = some (r.chars, rest) :=
  run?_append p rest r.nonempty r.all stop

/-- No blanks stand before a run of other characters. -/
theorem skipBlanks (r : Run p) (other : ∀ c, p c = true → Text.isBlank c = false)
    (rest : List Char) : Reference.skipBlanks (r.chars ++ rest) = r.chars ++ rest := by
  obtain ⟨c, cs, h, inside⟩ := r.exists_cons
  rw [h, List.cons_append]
  exact skipBlanks_of_head (other c inside)

end Run

/-- A keyword is read behind blanks. -/
theorem Gap.literal? (g : Gap) {word : String} (some : word.toList ≠ [])
    (letters : word.toList.all Text.isWordChar = true) (rest : List Char) :
    Reference.literal? word (Reference.skipBlanks (g.chars ++ (word.toList ++ rest))) =
      Option.some rest := by
  let r : Run Text.isWordChar := ⟨word.toList, some, letters⟩
  have still : Reference.skipBlanks (word.toList ++ rest) = word.toList ++ rest :=
    r.skipBlanks (fun _ => Text.not_isBlank_of_isWordChar) rest
  rw [g.skipBlanks, still]
  exact literal?_append word rest

end Reference
end Attic
