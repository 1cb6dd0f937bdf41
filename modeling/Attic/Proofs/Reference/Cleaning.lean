import Attic.Proofs.Text.Ends
import Attic.Reference.Resolve
import Mathlib

/-!
# What is cleaned off a specifier

Cleaning takes blanks off both ends of a text, then what follows the first mark of a
query or a fragment, then slashes at the end. Something solid in a text, which has no
mark and ends with neither a blank nor a slash, is kept whole unless a mark stands
before it, and what is kept around it does not depend on what it is.

Key definition: `Reference.Solid`.
Key theorems: `Reference.clean_around`, `Reference.clean_of_ends`.
-/

namespace Attic
namespace Reference

variable {before after x cs : List Char} {c : Char}

/-- What starts a query or a fragment. -/
def isMark (c : Char) : Bool := c = '?' || c = '#'

/-- A text that stays whole in a text that is cleaned: it has no mark, starts with no
blank and ends with neither a blank nor a slash. -/
structure Solid (x : List Char) : Prop where
  nonempty : x ≠ []
  unmarked : ∀ c ∈ x, isMark c = false
  first : ∀ c ∈ x.head?, Text.isBlank c = false
  last : ∀ c ∈ x.getLast?, c ≠ '/' ∧ Text.isBlank c = false

theorem Solid.not_slash (hx : Solid x) : ∀ c ∈ x.getLast?, decide (c = '/') = false :=
  fun c hc => by simpa using (hx.last c hc).1

/-- Cleaning, one step after the other. -/
theorem clean_eq_rdropWhile (cs : List Char) : clean cs =
    (if (Text.trim cs).takeWhile (fun c => !isMark c) = [] then Text.trim cs
      else (Text.trim cs).takeWhile fun c => !isMark c).rdropWhile (· = '/') := rfl

theorem Solid.trim (hx : Solid x) (before after : List Char) :
    Text.trim (before ++ x ++ after) =
      Text.trimStart before ++ x ++ after.rdropWhile Text.isBlank :=
  Text.trim_around hx.nonempty hx.first (fun c hc => (hx.last c hc).2) before after

/-- Before the first mark of a text. -/
theorem takeWhile_unmarked (marks : ∀ c ∈ before, isMark c = false) (cs : List Char) :
    (before ++ cs).takeWhile (fun c => !isMark c) =
      before ++ cs.takeWhile fun c => !isMark c :=
  List.takeWhile_append_of_pos fun c hc => by simp [marks c hc]

/-- Something solid is kept with what stands before it, if no mark does, and with what
follows up to a mark. -/
theorem Solid.clean_unmarked (hx : Solid x)
    (marks : ∀ c ∈ Text.trimStart before, isMark c = false) (after : List Char) :
    clean (before ++ x ++ after) = Text.trimStart before ++ x ++
      ((after.rdropWhile Text.isBlank).takeWhile fun c => !isMark c).rdropWhile (· = '/') := by
  have kept := takeWhile_unmarked marks (x ++ after.rdropWhile Text.isBlank)
  rw [takeWhile_unmarked hx.unmarked, ← List.append_assoc, ← List.append_assoc] at kept
  have some : Text.trimStart before ++ x ++
      (after.rdropWhile Text.isBlank).takeWhile (fun c => !isMark c) ≠ [] := by
    simp [hx.nonempty]
  rw [clean_eq_rdropWhile, hx.trim, kept, if_neg some,
    Text.rdropWhile_around hx.nonempty hx.not_slash]

/-- A text that starts with a mark is not cut at any. -/
theorem Solid.clean_marked (hx : Solid x)
    (start : ∃ c ∈ (Text.trimStart before).head?, isMark c = true) (after : List Char) :
    clean (before ++ x ++ after) = Text.trimStart before ++ x ++
      (after.rdropWhile Text.isBlank).rdropWhile (· = '/') := by
  obtain ⟨c, hc, mark⟩ := start
  obtain ⟨u, hu⟩ := List.head?_eq_some_iff.1 hc
  have none : (Text.trimStart before ++ x ++ after.rdropWhile Text.isBlank).takeWhile
      (fun c => !isMark c) = [] := by
    simp [hu, mark]
  rw [clean_eq_rdropWhile, hx.trim, none, if_pos rfl,
    Text.rdropWhile_around hx.nonempty hx.not_slash]

/-- A mark further on in what stands before something solid cuts it off. -/
theorem Solid.clean_cut (hx : Solid x) (mark : ∃ c ∈ Text.trimStart before, isMark c = true)
    (start : ∀ c ∈ (Text.trimStart before).head?, isMark c = false) (after : List Char) :
    clean (before ++ x ++ after) =
      ((Text.trimStart before).takeWhile fun c => !isMark c).rdropWhile (· = '/') := by
  obtain ⟨c, hc, mark⟩ := mark
  have cut (cs : List Char) : (Text.trimStart before ++ cs).takeWhile (fun c => !isMark c) =
      (Text.trimStart before).takeWhile fun c => !isMark c := by
    rw [List.takeWhile_append, if_neg]
    intro whole
    have all := List.takeWhile_prefix (p := fun c => !isMark c) (l := Text.trimStart before)
    have stays := List.mem_takeWhile_imp (all.eq_of_length whole ▸ hc)
    simp [mark] at stays
  have some : (Text.trimStart before).takeWhile (fun c => !isMark c) ≠ [] := by
    obtain ⟨d, u, hu⟩ := List.exists_cons_of_ne_nil (List.ne_nil_of_mem hc)
    have plain : isMark d = false := start d (by simp [hu])
    simp [hu, plain]
  rw [clean_eq_rdropWhile, hx.trim, List.append_assoc, cut, if_neg some]

/-- **What is kept around something solid does not depend on it**: either a mark before it
cuts it off, or it is kept with what stands before it and the start of what follows. -/
theorem clean_around (before after : List Char) :
    (∃ u, u <+: Text.trimStart before ∧ (∃ c ∈ before, isMark c = true) ∧
      ∀ x, Solid x → clean (before ++ x ++ after) = u) ∨
    ∃ w, w <+: after ∧
      ∀ x, Solid x → clean (before ++ x ++ after) = Text.trimStart before ++ x ++ w := by
  have ends : after.rdropWhile Text.isBlank <+: after := List.rdropWhile_prefix _ _
  by_cases marks : ∀ c ∈ Text.trimStart before, isMark c = false
  · refine .inr ⟨_, ?_, fun x hx => hx.clean_unmarked marks after⟩
    exact ((List.rdropWhile_prefix _ _).trans (List.takeWhile_prefix _)).trans ends
  by_cases start : ∃ c ∈ (Text.trimStart before).head?, isMark c = true
  · exact .inr ⟨_, (List.rdropWhile_prefix _ _).trans ends,
      fun x hx => hx.clean_marked start after⟩
  · have mark : ∃ c ∈ Text.trimStart before, isMark c = true := by simpa using marks
    obtain ⟨c, hc, isMark⟩ := mark
    exact .inl ⟨_, (List.rdropWhile_prefix _ _).trans (List.takeWhile_prefix _),
      ⟨c, (List.dropWhile_suffix _).subset hc, isMark⟩,
      fun x hx => hx.clean_cut ⟨c, hc, isMark⟩ (by simpa using start) after⟩

/-- What is kept of a text is a part of it. -/
theorem clean_within (cs : List Char) : clean cs <:+: cs := by
  have trimmed : Text.trim cs <:+: cs :=
    (Text.trimEnd_prefix _).isInfix.trans (List.dropWhile_suffix _).isInfix
  rw [clean_eq_rdropWhile]
  refine (List.rdropWhile_prefix _ _).isInfix.trans ?_
  split
  · exact trimmed
  · exact (List.takeWhile_prefix _).isInfix.trans trimmed

/-- Nothing is cleaned off a text that starts with no blank, ends with neither a blank nor a
slash and has no mark behind its first character. -/
theorem clean_of_ends (first : Text.isBlank c = false) (marks : ∀ d ∈ cs, isMark d = false)
    (last : ∀ d ∈ (c :: cs).getLast?, d ≠ '/' ∧ Text.isBlank d = false) :
    clean (c :: cs) = c :: cs := by
  have trimmed : Text.trim (c :: cs) = c :: cs := by
    rw [Text.trim, Text.trimStart_of_head first]
    exact Text.trimEnd_eq_self fun d hd => (last d hd).2
  have ends : (c :: cs).rdropWhile (· = '/') = c :: cs := by
    rw [List.rdropWhile_eq_self_iff]
    intro hne
    simpa using (last _ (List.getLast?_eq_getLast_of_ne_nil hne)).1
  rw [clean_eq_rdropWhile, trimmed]
  by_cases mark : isMark c = true
  · simpa [mark] using ends
  · have all : (c :: cs).takeWhile (fun d => !isMark d) = c :: cs := by
      rw [List.takeWhile_eq_self_iff]
      simpa [mark] using marks
    rw [all, ite_self, ends]

end Reference
end Attic
