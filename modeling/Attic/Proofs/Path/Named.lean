import Attic.Proofs.Path.Saying
import Mathlib

/-!
# Paths that end with a name

A path whose last component is a name has it for its file name, and its parent says what
comes before. So two paths of one folder with one file name are the same.

Key theorems: `Path.components_parent?`, `Path.components_of_fileName?`,
`Path.same_of_parent`.
-/

namespace Attic
namespace Path

variable {p q : Path} {n : String}

/-- A path in which something is written says something. -/
theorem components_ne_nil (written : p.isEmpty = false) : p.components ≠ [] := by
  intro nothing
  rw [components_eq_steps] at nothing
  obtain ⟨start, later⟩ := List.append_eq_nil_iff.1 nothing
  have bare : p.lead = .bare := by
    cases lead : p.lead <;> simp [lead, leadComponents] at start ⊢
  have relative : p.isAbsolute = false := Bool.eq_false_iff.2 fun absolute => by
    simp [lead_of_isAbsolute absolute] at bare
  obtain ⟨piece, qs, pieces, hne⟩ := exists_cutEach_cons relative written
  have lead := lead_eq_steps p
  rw [steps_told, pieces, told_cons hne] at lead later
  by_cases dot : String.ofList piece = "."
  · simp [bare, relative, dot] at lead
  · simp [dot] at later

/-! ### The folder of a path -/

/-- **The parent of a path says all but its last component.** -/
theorem components_parent? (h : p.parent? = some q) :
    p.components ≠ [] ∧ q.components = p.components.dropLast := by
  unfold parent? at h
  split at h
  · next before last split =>
    obtain rfl := Option.some.inj h
    obtain ⟨-, idle, body, -⟩ := body_of_splitLast? split
    obtain ⟨c, -, whole⟩ := components_of_splitLast? split
    have written : p.isEmpty = false := Bool.eq_false_iff.2 fun empty => by
      rw [eq_of_isEmpty empty] at whole
      simpa using whole.symm.trans (show (⟨""⟩ : Path).components = [] from rfl)
    refine ⟨by simp [whole], ?_⟩
    rw [whole, List.dropLast_concat, components_build, filterMap_dropIdleEnd]
    · intro piece hp
      have within : piece ∈ before := (dropIdleEnd_isPrefix before).subset hp
      exact not_mem_of_mem_body (p := p) (by rw [body]; simp [within])
    · intro bare piece first
      refine isIdle_head_body written bare ?_
      rw [body, List.head?_append, head?_dropIdleEnd first, Option.some_or]
  · next split =>
    split at h
    · next here =>
      obtain rfl := Option.some.inj h
      have whole : p.components = [.here] := by
        rw [components, here, filterMap_of_idle (body_of_splitLast?_none split)]
        rfl
      exact ⟨by simp [whole], by rw [whole]; rfl⟩
    · simp at h

/-- A path without a parent says one component at most. -/
theorem length_of_parent?_none (h : p.parent? = none) : p.components.length ≤ 1 := by
  unfold parent? at h
  split at h
  · simp at h
  · next split =>
    rw [components, filterMap_of_idle (body_of_splitLast?_none split), List.append_nil]
    cases p.lead <;> simp [leadComponents]

/-! ### File names -/

/-- A path with a file name says it last. -/
theorem exists_components_of_fileName? (h : p.fileName? = some n) :
    ∃ cs, p.components = cs ++ [.name n] := by
  obtain ⟨last, chars, rfl⟩ := Option.map_eq_some_iff.1 h
  unfold fileChars? at chars
  split at chars
  · next before piece split =>
    split at chars
    · simp at chars
    next up =>
    obtain rfl := Option.some.inj chars
    obtain ⟨c, said, whole⟩ := components_of_splitLast? split
    rw [pieceComponent?, (body_of_splitLast? split).1, if_neg Bool.false_ne_true, if_neg up] at said
    exact ⟨_, Option.some.inj said ▸ whole⟩
  · simp at chars

theorem isName_of_fileName? (h : p.fileName? = some n) : IsName n := by
  obtain ⟨cs, whole⟩ := exists_components_of_fileName? h
  exact isName_of_component (by rw [whole]; simp)

theorem fileChars?_of_fileName? (h : p.fileName? = some n) : p.fileChars? = some n.toList := by
  obtain ⟨cs, whole⟩ := exists_components_of_fileName? h
  exact fileChars?_of_components whole

/-- A path with a file name says its folder and then the name. -/
theorem components_of_fileName? (h : p.fileName? = some n) :
    p.components = p.parent.components ++ [.name n] := by
  obtain ⟨cs, whole⟩ := exists_components_of_fileName? h
  cases parent : p.parent? with
  | none =>
    unfold parent? at parent
    split at parent
    · simp at parent
    · next split => simp [fileName?, fileChars?, split] at h
  | some q =>
    rw [Path.parent, parent, Option.getD_some, (components_parent? parent).2, whole,
      List.dropLast_concat]

/-- **Paths of one folder with one file name are the same.** -/
theorem same_of_parent (hp : p.fileName? = some n) (hq : q.fileName? = some n)
    (folder : p.parent.same q.parent = true) : p.same q = true := by
  rw [same_iff, components_of_fileName? hp, components_of_fileName? hq, same_iff.1 folder]

end Path
end Attic
