import Attic.Proofs.Path.Relative
import Attic.Proofs.Tree.Below
import Mathlib

/-!
# Places that are climbed to

Steps that lead through folders of a tree end at the place whose names are those
that the steps climb to, and dots among them do not matter. So paths that say the
same lead to one folder.

Key definition: `Path.Component.step?`.
Key theorems: `Path.steps_filter`, `Tree.reach_climb`,
`Tree.reach_components`, `Tree.reach_of_found`.
-/

namespace Attic

namespace Path

variable {p q : Path}

/-- The step that a component stands for, if it goes anywhere. -/
def Component.step? : Component → Option String
  | .up => some ".."
  | .name s => some s
  | _ => none

theorem told_filter : ∀ ps : List (List Char),
    (told ps).filter (· ≠ ".") = (ps.filterMap pieceComponent?).filterMap Component.step?
  | [] => rfl
  | piece :: ps => by
    have ih := told_filter ps
    by_cases empty : piece = []
    · subst empty
      rw [told_cons_nil, List.filterMap_cons_none (by rfl)]
      exact ih
    rw [told_cons empty]
    by_cases dot : piece = ['.']
    · subst dot
      rw [List.filterMap_cons_none (by rfl), List.filter_cons_of_neg (by decide)]
      exact ih
    have kept : String.ofList piece ≠ "." := fun e =>
      dot (by simpa using congrArg String.toList e)
    rw [List.filter_cons_of_pos (by simpa using kept), ih]
    by_cases up : piece = ['.', '.']
    · subst up
      rw [List.filterMap_cons_some (b := .up) (by rfl),
        List.filterMap_cons_some (b := "..") (by rfl)]
    · rw [List.filterMap_cons_some (pieceComponent?_eq_name empty dot up),
        List.filterMap_cons_some (b := String.ofList piece) (by rfl)]

/-- Paths that say the same take the same steps, but for dots. -/
theorem steps_filter (p : Path) :
    (Tree.steps p.text).filter (· ≠ ".") = p.components.filterMap Component.step? := by
  rw [steps_eq, components, List.filter_append, List.filterMap_append, told_filter]
  cases p.lead <;> rfl

end Path

namespace Tree

variable {t : Tree} {here l : Location} {must : Bool} {p q : Path}

/-- **Steps through folders lead where their names climb.** -/
theorem reach_climb {base : Location} : ∀ {xs stack st : List String},
    reach t (base ++ stack.reverse) xs = some l →
      Path.climb stack (xs.map Path.stepComponent) = some st → l = base ++ st.reverse
  | [], stack, st, h, climbs => by
    obtain rfl : stack = st := by simpa [Path.climb] using climbs
    exact (Option.some.inj h).symm
  | x :: xs, stack, st, h, climbs => by
    rw [List.map_cons, Path.stepComponent] at climbs
    rw [reach] at h
    by_cases dot : x = "."
    · rw [if_pos dot] at h climbs
      exact reach_climb h climbs
    rw [if_neg dot] at h climbs
    by_cases up : x = ".."
    · rw [if_pos up] at h climbs
      cases stack with
      | nil => simp [Path.climb] at climbs
      | cons s stack =>
        rw [List.reverse_cons, ← List.append_assoc, List.dropLast_concat] at h
        exact reach_climb h climbs
    rw [if_neg up] at h climbs
    split at h
    · simp at h
    split at h
    · have pushed : base ++ stack.reverse ++ [x] = base ++ (x :: stack).reverse := by simp
      rw [pushed] at h
      exact reach_climb h climbs
    · simp at h

theorem reach_filter : ∀ (xs : List String) (here : Location),
    reach t here (xs.filter (· ≠ ".")) = reach t here xs
  | [], _ => rfl
  | x :: xs, here => by
    have ih := reach_filter xs
    by_cases dot : x = "."
    · rw [List.filter_cons_of_neg (by simpa using dot), ih, reach, if_pos dot]
    · rw [List.filter_cons_of_pos (by simpa using dot), reach, reach]
      simp only [ih]

/-- Paths that say the same lead to the same folder. -/
theorem reach_components (same : p.components = q.components) (here : Location) :
    reach t here (steps p.text) = reach t here (steps q.text) := by
  rw [← reach_filter (steps p.text), Path.steps_filter, same, ← Path.steps_filter, reach_filter]

/-- A way to a folder leads through folders. -/
theorem reach_of_found (plain : t.Plain) : ∀ {xs : List String} {here : Location},
    way t must here xs = .ok (.found l .folder) → reach t here xs = some l
  | [], here, h => by
    obtain ⟨rfl, -⟩ := Spot.found.inj (Except.ok.inj h)
    rfl
  | x :: xs, here, h => by
    have ih {here : Location} : way t must here xs = .ok (.found l .folder) →
        reach t here xs = some l := reach_of_found plain
    unfold way at ih h
    rw [stroll] at h
    rw [reach]
    split
    · next dot => rw [if_pos dot] at h; exact ih h
    next dot =>
    rw [if_neg dot] at h
    split
    · next up => rw [if_pos up] at h; exact ih h
    next up =>
    rw [if_neg up] at h
    split
    · next long => simp [long] at h
    next long =>
    rw [if_neg long] at h
    cases hg : t.get? (here ++ [x]) with
    | none =>
      simp only [hg] at h
      split at h <;> simp at h
    | some o =>
      cases o with
      | file mode bytes =>
        simp only [hg] at h
        split at h <;> simp at h
      | folder =>
        simp only [hg] at h
        exact ih h
      | link target => exact absurd hg (plain.linkless _ _)

end Tree
end Attic
