/-!
# Cutting a text at a character

`cutEach sep` gives the pieces of a text between the occurrences of a
separator, one more than there are separators; putting the separator back
between the pieces gives the text again. `lines` cuts at line feeds: a line
feed at the end starts no further line, and a carriage return right before a
line feed belongs to the line's end.

Key definitions: `cutEach`, `glue`, `lines`, `cutFirst?`.
Key theorems: `glue_cutEach`, `cutEach_of_not_mem`, `cutEach_append`.
-/

namespace Attic
namespace Text

/-- Puts one character before the pieces: a separator starts a new piece, any
other character extends the first one. -/
def cutStep (sep c : Char) : List (List Char) → List (List Char)
  | [] => if c = sep then [[], []] else [[c]]
  | p :: ps => if c = sep then [] :: p :: ps else (c :: p) :: ps

/-- The pieces of a text between the occurrences of `sep`. -/
def cutEach (sep : Char) (cs : List Char) : List (List Char) :=
  cs.foldr (cutStep sep) [[]]

/-- The pieces with `sep` between them. -/
def glue (sep : Char) : List (List Char) → List Char
  | [] => []
  | [p] => p
  | p :: q :: ps => p ++ sep :: glue sep (q :: ps)

theorem cutEach_nil (sep : Char) : cutEach sep [] = [[]] := rfl

theorem cutEach_cons (sep c : Char) (cs : List Char) :
    cutEach sep (c :: cs) = cutStep sep c (cutEach sep cs) := rfl

theorem cutStep_ne_nil (sep c : Char) (ps : List (List Char)) : cutStep sep c ps ≠ [] := by
  cases ps <;> simp only [cutStep] <;> split <;> simp

theorem cutEach_ne_nil (sep : Char) : ∀ cs, cutEach sep cs ≠ []
  | [] => by simp [cutEach_nil]
  | c :: cs => by rw [cutEach_cons]; exact cutStep_ne_nil sep c _

theorem glue_cutStep (sep c : Char) (p : List Char) (ps : List (List Char)) :
    glue sep (cutStep sep c (p :: ps)) = c :: glue sep (p :: ps) := by
  by_cases h : c = sep
  · simp [cutStep, glue, h]
  · cases ps <;> simp [cutStep, glue, h]

/-- Cutting loses nothing but the separators. -/
theorem glue_cutEach (sep : Char) : ∀ cs, glue sep (cutEach sep cs) = cs
  | [] => rfl
  | c :: cs => by
    have ih := glue_cutEach sep cs
    rw [cutEach_cons]
    cases h : cutEach sep cs with
    | nil => exact absurd h (cutEach_ne_nil sep cs)
    | cons p ps => rw [glue_cutStep, ← h, ih]

/-- A text without the separator is one piece. -/
theorem cutEach_of_not_mem {sep : Char} : ∀ {cs : List Char}, sep ∉ cs → cutEach sep cs = [cs]
  | [], _ => rfl
  | c :: cs, h => by
    have hc : c ≠ sep := fun e => h (e ▸ List.mem_cons_self)
    rw [cutEach_cons, cutEach_of_not_mem fun m => h (List.mem_cons_of_mem c m)]
    simp [cutStep, hc]

/-- A first piece without the separator is cut off at the separator after it. -/
theorem cutEach_append {sep : Char} (cs : List Char) :
    ∀ {p : List Char}, sep ∉ p → cutEach sep (p ++ sep :: cs) = p :: cutEach sep cs
  | [], _ => by
    rw [List.nil_append, cutEach_cons]
    cases h : cutEach sep cs with
    | nil => exact absurd h (cutEach_ne_nil sep cs)
    | cons q qs => simp [cutStep]
  | c :: p, h => by
    have hc : c ≠ sep := fun e => h (e ▸ List.mem_cons_self)
    rw [List.cons_append, cutEach_cons,
      cutEach_append cs fun m => h (List.mem_cons_of_mem c m)]
    simp [cutStep, hc]

/-- A line's text without the carriage return before its line feed. -/
def dropReturn (line : List Char) : List Char :=
  if line.getLast? = some '\r' then line.dropLast else line

/-- The lines of a text. The piece after the last line feed ends no line, so it
keeps a carriage return, and it is no line when it is empty. -/
def lines (cs : List Char) : List (List Char) :=
  let pieces := cutEach '\n' cs
  pieces.dropLast.map dropReturn ++ match pieces.getLast? with
    | some (c :: p) => [c :: p]
    | _ => []

/-- What stands before and after the first occurrence of `mark`. -/
def cutFirst? (mark : List Char) : List Char → Option (List Char × List Char)
  | [] => if mark.isEmpty then some ([], []) else none
  | c :: cs =>
    if mark.isPrefixOf (c :: cs) then some ([], (c :: cs).drop mark.length)
    else (cutFirst? mark cs).map fun (a, b) => (c :: a, b)

/-- Whether `mark` occurs in the text. -/
def occursIn (mark cs : List Char) : Bool := (cutFirst? mark cs).isSome

end Text
end Attic
