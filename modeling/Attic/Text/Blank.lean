/-!
# White space at the ends of a text

A blank is a character of Unicode's `White_Space` property. Texts are lists of
characters here; `trim` drops the blanks at both ends and `firstWord?` reads
the first run of other characters.

Key definitions: `isBlank`, `trimStart`, `trimEnd`, `trim`, `firstWord?`.
Key theorems: `trimStart_of_head`, `trimEnd_of_last`, `trim_of_ends`.
-/

namespace Attic
namespace Text

/-- White space in Unicode's sense: the 25 characters of `White_Space`. -/
def isBlank (c : Char) : Bool :=
  let n := c.toNat
  (9 ≤ n && n ≤ 13) || n == 32 || n == 0x85 || n == 0xA0 || n == 0x1680 ||
    (0x2000 ≤ n && n ≤ 0x200A) || n == 0x2028 || n == 0x2029 || n == 0x202F ||
    n == 0x205F || n == 0x3000

/-- The text from its first character that is not blank. -/
def trimStart (cs : List Char) : List Char := cs.dropWhile isBlank

/-- The text up to its last character that is not blank. -/
def trimEnd (cs : List Char) : List Char := (cs.reverse.dropWhile isBlank).reverse

/-- The text without the blanks at its ends. -/
def trim (cs : List Char) : List Char := trimEnd (trimStart cs)

/-- The first run of characters that are not blank, if there is one. -/
def firstWord? (cs : List Char) : Option (List Char) :=
  match trimStart cs with
  | [] => none
  | c :: r => some ((c :: r).takeWhile fun x => !isBlank x)

theorem trimStart_of_head {c : Char} {cs : List Char} (h : isBlank c = false) :
    trimStart (c :: cs) = c :: cs := by
  simp [trimStart, h]

theorem trimEnd_of_last {c : Char} {cs : List Char} (h : isBlank c = false) :
    trimEnd (cs ++ [c]) = cs ++ [c] := by
  simp [trimEnd, h]

/-- A text that neither starts nor ends with a blank is trimmed already. -/
theorem trim_of_ends {c d : Char} {cs : List Char} (hc : isBlank c = false)
    (hd : isBlank d = false) : trim (c :: cs ++ [d]) = c :: cs ++ [d] := by
  rw [trim, List.cons_append, trimStart_of_head hc, ← List.cons_append, trimEnd_of_last hd]

end Text
end Attic
