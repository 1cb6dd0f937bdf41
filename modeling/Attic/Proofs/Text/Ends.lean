import Attic.Text.Blank
import Attic.Text.Lines
import Mathlib

/-!
# The ends of a text and its first cut

Trimming takes blanks off a text up to what is not blank: what starts and ends with
other characters stays whole, with the text before it from its first character that is
not blank and the text behind it up to its last one. A text is cut at the first place
where a mark stands, and nowhere if the mark does not occur in it.

Key theorems: `Text.trim_around`, `Text.trim_blanks`, `Text.cutFirst?_eq_none`,
`Text.cutFirst?_append`.
-/

namespace Attic
namespace Text

variable {x mark cs before : List Char} {c : Char}

/-! ### Trimming -/

/-- Blanks at the end of a text are those of its second part, and of the first one too
where the second has nothing else. -/
theorem trimEnd_append (u v : List Char) :
    trimEnd (u ++ v) = if trimEnd v = [] then trimEnd u else u ++ trimEnd v := by
  unfold trimEnd
  rw [List.reverse_append, List.dropWhile_append]
  by_cases blank : v.reverse.dropWhile isBlank = []
  · simp [blank]
  · simp [blank]

/-- Nothing is taken off before a character that is not blank. -/
theorem trimEnd_append_cons {c : Char} (h : isBlank c = false) (u v : List Char) :
    trimEnd (u ++ c :: v) = u ++ c :: trimEnd v := by
  have here : trimEnd (c :: v) = c :: trimEnd v := by
    rw [← List.singleton_append, trimEnd_append]
    split
    · next blank =>
      rw [blank]
      show trimEnd ([] ++ [c]) = [] ++ [c]
      exact trimEnd_of_last h
    · rfl
  rw [trimEnd_append, here, if_neg (List.cons_ne_nil _ _)]

theorem trimEnd_prefix (cs : List Char) : trimEnd cs <+: cs := by
  rw [← List.reverse_suffix, trimEnd, List.reverse_reverse]
  exact List.dropWhile_suffix _

theorem trimEnd_eq_self {cs : List Char} (h : ∀ c ∈ cs.getLast?, isBlank c = false) :
    trimEnd cs = cs := by
  rcases List.eq_nil_or_concat cs with rfl | ⟨ds, d, rfl⟩
  · rfl
  · rw [List.concat_eq_append] at h ⊢
    exact trimEnd_of_last (h d (by simp))

/-- A trimmed text does not end with a blank. -/
theorem not_isBlank_trimEnd (cs : List Char) : ∀ c ∈ (trimEnd cs).getLast?, isBlank c = false := by
  intro c hc
  have head := List.head?_dropWhile_not isBlank cs.reverse
  rw [trimEnd, List.getLast?_reverse] at hc
  rw [Option.mem_def.1 hc] at head
  simpa using head

/-- What is dropped at the end of a text lies behind anything that is not dropped. -/
theorem rdropWhile_around {p : Char → Bool} {x : List Char} (hx : x ≠ [])
    (last : ∀ c ∈ x.getLast?, p c = false) (u e : List Char) :
    (u ++ x ++ e).rdropWhile p = u ++ x ++ e.rdropWhile p := by
  induction e using List.reverseRecOn with
  | nil =>
    have stays : ¬ p (x.getLast hx) = true := by
      simpa using last _ (List.getLast?_eq_getLast_of_ne_nil hx)
    rw [List.append_nil, List.rdropWhile_nil, List.append_nil, List.rdropWhile_eq_self_iff]
    intro hne
    rwa [List.getLast_append_of_ne_nil hne hx]
  | append_singleton e d ih =>
    rw [← List.append_assoc, List.rdropWhile_concat, List.rdropWhile_concat, ih]
    split
    · rfl
    · rw [List.append_assoc]

/-- What is not blank at its ends stays whole where a text around it is trimmed. -/
theorem trim_around (hx : x ≠ []) (first : ∀ c ∈ x.head?, isBlank c = false)
    (last : ∀ c ∈ x.getLast?, isBlank c = false) (before after : List Char) :
    trim (before ++ x ++ after) = trimStart before ++ x ++ after.rdropWhile isBlank := by
  obtain ⟨c, x, rfl⟩ := List.exists_cons_of_ne_nil hx
  have starts : trimStart (c :: x ++ after) = c :: x ++ after :=
    trimStart_of_head (first c (by simp))
  have left : trimStart (before ++ (c :: x ++ after)) = trimStart before ++ (c :: x ++ after) := by
    rw [trimStart, List.dropWhile_append]
    split
    · next blank =>
      rw [← trimStart, starts, trimStart, List.isEmpty_iff.1 blank, List.nil_append]
    · rfl
  rw [trim, List.append_assoc, left, ← List.append_assoc]
  exact rdropWhile_around hx last _ _

/-- Blanks around a text without blanks are trimmed off. -/
theorem trim_blanks (hx : x ≠ []) (solid : ∀ c ∈ x, isBlank c = false) {a b : List Char}
    (ha : ∀ c ∈ a, isBlank c = true) (hb : ∀ c ∈ b, isBlank c = true) :
    trim (a ++ x ++ b) = x := by
  calc
    trim (a ++ x ++ b) = trimStart a ++ x ++ b.rdropWhile isBlank :=
      trim_around hx (fun c hc => solid c (List.mem_of_mem_head? hc))
        (fun c hc => solid c (List.mem_of_mem_getLast? hc)) a b
    _ = [] ++ x ++ [] := by
      rw [trimStart, List.dropWhile_eq_nil_iff.2 ha, List.rdropWhile_eq_nil_iff.2 hb]
    _ = x := by simp

/-! ### Cutting -/

/-- A text is not cut where the mark does not occur. -/
theorem cutFirst?_eq_none : ∀ {cs : List Char}, ¬ mark <:+: cs → cutFirst? mark cs = none
  | [], h => by
    have some : mark.isEmpty = false := by
      rw [List.isEmpty_eq_false_iff]
      exact fun e => h (e ▸ List.infix_refl _)
    rw [cutFirst?, some, if_neg Bool.false_ne_true]
  | c :: cs, h => by
    rw [List.infix_cons_iff, not_or] at h
    rw [cutFirst?, if_neg (by rw [List.isPrefixOf_iff_prefix]; exact h.1),
      cutFirst?_eq_none h.2, Option.map_none]

/-- A mark does not occur where its first character does not. -/
theorem occursIn_of_not_mem (mark : List Char) (h : c ∉ cs) : occursIn (c :: mark) cs = false := by
  have none : cutFirst? (c :: mark) cs = none :=
    cutFirst?_eq_none fun occurs => h (occurs.subset List.mem_cons_self)
  rw [occursIn, none, Option.isSome_none]

/-- A text is cut at a mark if the first character of the mark does not stand before it. -/
theorem cutFirst?_append (mark rest : List Char) : ∀ {before : List Char}, c ∉ before →
    cutFirst? (c :: mark) (before ++ (c :: mark ++ rest)) = some (before, rest)
  | [], _ => by
    have here : (c :: mark).isPrefixOf (c :: mark ++ rest) = true := by
      rw [List.isPrefixOf_iff_prefix]
      exact List.prefix_append _ _
    rw [List.nil_append, List.cons_append, cutFirst?, ← List.cons_append, if_pos here,
      List.drop_left]
  | d :: before, h => by
    have later : ¬ (c :: mark).isPrefixOf (d :: (before ++ (c :: mark ++ rest))) = true := by
      rw [List.isPrefixOf_iff_prefix, List.cons_prefix_cons]
      exact fun start => h (start.1 ▸ List.mem_cons_self)
    rw [List.cons_append, cutFirst?, if_neg later,
      cutFirst?_append mark rest fun hc => h (List.mem_cons_of_mem d hc), Option.map_some]

end Text
end Attic
