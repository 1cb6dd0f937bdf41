import Attic.Proofs.Path.Names
import Mathlib

/-!
# Relative paths

The normal form of a relative path is read off its steps, so that of a joined
path is reached from that of the first path by the steps of the second. The way
from a folder to a script leaves out the folders that they have in common, goes
up once for each of the others, and then down to the script; joined to the
folder it has the script as its normal form.

Key definitions: `Path.stepComponent`, `Path.wayTo`, `Path.relativePieces`,
`Path.relative`.
Key theorems: `Path.names?_join`, `Path.normalize?_join_relative`.
-/

namespace Attic
namespace Path

variable {p q : Path} {names dir script : List String} {stack st : List String}

/-! ### Names from steps -/

/-- What a step says. -/
def stepComponent (s : String) : Component :=
  if s = "." then .here else if s = ".." then .up else .name s

theorem IsName.stepComponent {s : String} (h : IsName s) : stepComponent s = .name s := by
  simp [Path.stepComponent, h.not_dot, h.not_up]

theorem map_stepComponent (h : ∀ n ∈ names, IsName n) :
    names.map stepComponent = names.map .name :=
  List.map_congr_left fun n hn => (h n hn).stepComponent

theorem climb_told : ∀ (ps : List (List Char)) (stack : List String),
    climb stack (ps.filterMap pieceComponent?) = climb stack ((told ps).map stepComponent)
  | [], stack => rfl
  | piece :: ps, stack => by
    have ih := climb_told ps
    by_cases empty : piece = []
    · subst empty
      rw [told_cons_nil, List.filterMap_cons_none (by rfl)]
      exact ih stack
    rw [told_cons empty, List.map_cons]
    by_cases dot : piece = ['.']
    · subst dot
      rw [List.filterMap_cons_none (by rfl)]
      exact ih stack
    by_cases up : piece = ['.', '.']
    · subst up
      rw [List.filterMap_cons_some (b := .up) (by rfl), show stepComponent _ = .up by rfl]
      cases stack with
      | nil => rfl
      | cons s stack => exact ih stack
    · have name : stepComponent (String.ofList piece) = .name (String.ofList piece) := by
        have dot' : String.ofList piece ≠ "." := fun e =>
          dot (by simpa using congrArg String.toList e)
        have up' : String.ofList piece ≠ ".." := fun e =>
          up (by simpa using congrArg String.toList e)
        simp [stepComponent, dot', up']
      rw [List.filterMap_cons_some (pieceComponent?_eq_name empty dot up), name]
      exact ih _

theorem isAbsolute_of_lead (h : p.lead = .root) : p.isAbsolute = true := by
  unfold lead cut at h
  split at h
  · next q ps he =>
    have glued := Text.glue_cutEach '/' p.chars
    rw [he, Text.glue] at glued
    simp [isAbsolute, ← glued]
  · simp at h
  · simp at h

theorem lead_of_isAbsolute (h : p.isAbsolute = true) : p.lead = .root := by
  simp only [isAbsolute, beq_iff_eq] at h
  obtain ⟨cs, hcs⟩ := List.head?_eq_some_iff.1 h
  have pieces : Text.cutEach '/' p.chars = [] :: Text.cutEach '/' cs := by
    rw [hcs]
    exact Text.cutEach_append_cons cs []
  obtain ⟨q, qs, hq⟩ := List.exists_cons_of_ne_nil (Text.cutEach_ne_nil '/' cs)
  rw [lead, cut, pieces, hq]

/-- Names below those that are climbed from stay. -/
theorem climb_above (more : List String) : ∀ {stack st : List String} {cs : List Component},
    climb stack cs = some st → climb (stack ++ more) cs = some (st ++ more)
  | stack, st, [], h => by
    obtain rfl : stack = st := by simpa [climb] using h
    simp [climb]
  | stack, st, .here :: cs, h => by
    rw [climb] at h ⊢
    exact climb_above more h
  | stack, st, .name s :: cs, h => by
    rw [climb] at h ⊢
    exact climb_above more h
  | s :: stack, st, .up :: cs, h => by
    rw [climb] at h
    rw [List.cons_append, climb]
    exact climb_above more h
  | [], st, .up :: cs, h => by simp [climb] at h
  | stack, st, .root :: cs, h => by simp [climb] at h

/-- A relative path is climbed by its steps. -/
theorem climb_steps (h : p.isAbsolute = false) (stack : List String) :
    climb stack ((Tree.steps p.text).map stepComponent) = climb stack p.components := by
  rw [components, steps_eq, List.map_append]
  cases hl : p.lead with
  | root => rw [isAbsolute_of_lead hl] at h; exact absurd h (by simp)
  | here =>
    simp only [leadComponents, leadSteps, List.cons_append, List.nil_append, List.map_cons,
      List.map_nil, show stepComponent "." = .here by rfl, climb]
    rw [climb_told]
  | bare =>
    simp only [leadComponents, leadSteps, List.nil_append, List.map_nil]
    rw [climb_told]

/-- The normal form of a relative path is read off its steps. -/
theorem names?_eq_steps (h : p.isAbsolute = false) :
    p.names? = (climb [] ((Tree.steps p.text).map stepComponent)).map List.reverse := by
  rw [names?, climb_steps h]

/-- Only a relative path has a normal form. -/
theorem isAbsolute_of_names? (h : p.names? = some names) : p.isAbsolute = false := by
  cases absolute : p.isAbsolute with
  | false => rfl
  | true =>
    rw [names?, components, lead_of_isAbsolute absolute] at h
    simp [leadComponents, climb] at h

theorem isAbsolute_join (hp : p.isAbsolute = false) (hq : q.isAbsolute = false) :
    (p.join q).isAbsolute = false := by
  unfold join
  rw [hq, Bool.false_or]
  split
  · exact hq
  next written =>
  have first (s : String) : (⟨p.text ++ s⟩ : Path).isAbsolute = p.isAbsolute := by
    obtain ⟨c, cs, hc⟩ := List.exists_cons_of_ne_nil (l := p.chars) fun e =>
      written (by simpa [isEmpty, chars] using e)
    have hc' : p.text.toList = c :: cs := hc
    simp [isAbsolute, chars, hc']
  split
  · rw [first, hp]
  · have split : p.text ++ "/" ++ q.text = p.text ++ ("/" ++ q.text) := String.append_assoc
    rw [split, first, hp]

/-- **A joined path is reached by the steps of the second path from the names of
the first.** -/
theorem names?_join (hp : p.names? = some names) (hq : q.isAbsolute = false)
    (h : climb names.reverse ((Tree.steps q.text).map stepComponent) = some st) :
    (p.join q).names? = some st.reverse := by
  have relative := isAbsolute_of_names? hp
  rw [names?_eq_steps relative] at hp
  obtain ⟨top, htop, rfl⟩ := Option.map_eq_some_iff.1 hp
  rw [List.reverse_reverse] at h
  rw [names?_eq_steps (isAbsolute_join relative hq), steps_join p hq, List.map_append,
    climb_append, htop, Option.bind_some, h, Option.map_some]

/-! ### From a folder to a script -/

/-- The steps from a folder to a script. -/
def wayTo : List String → List String → List String
  | d :: dir, s :: t :: script =>
    if d = s then wayTo dir (t :: script)
    else (d :: dir).map (fun _ => "..") ++ s :: t :: script
  | dir, script => dir.map (fun _ => "..") ++ script

/-- The pieces of the relative path from a folder to a script, the first of them a
dot or two. -/
def relativePieces (dir script : List String) : List String :=
  match wayTo dir script with
  | ".." :: way => ".." :: way
  | way => "." :: way

/-- The relative path from a folder to a script. -/
def relative (dir script : List String) : Path := ofNames (relativePieces dir script)

theorem climb_ups : ∀ (dir stack : List String) (cs : List Component),
    climb (dir.reverse ++ stack) ((dir.map fun _ => "..").map stepComponent ++ cs) =
      climb stack cs
  | dir, stack, cs => by
    induction dir using List.reverseRecOn generalizing cs with
    | nil => rfl
    | append_singleton ds d ih =>
      have ups : ((ds ++ [d]).map fun _ => "..") = ".." :: ds.map fun _ => ".." := by
        simp [List.map_const', ← List.replicate_succ, ← List.replicate_succ']
      rw [ups, List.reverse_append, List.map_cons, show stepComponent ".." = .up by rfl]
      simp only [List.reverse_cons, List.reverse_nil, List.nil_append, List.cons_append, climb]
      exact ih cs

/-- The way to a script leads there. -/
theorem climb_wayTo (dir stack : List String) (h : ∀ n ∈ script, IsName n) :
    climb (dir.reverse ++ stack) ((wayTo dir script).map stepComponent) =
      some (script.reverse ++ stack) := by
  fun_induction wayTo dir script generalizing stack with
  | case1 dir s t script ih =>
    have ih := ih (s :: stack) fun n hn => h n (List.mem_cons_of_mem _ hn)
    simpa using ih
  | case2 d dir s t script _ =>
    rw [List.map_append, climb_ups, map_stepComponent h, climb_names]
  | case3 dir script _ =>
    rw [List.map_append, climb_ups, map_stepComponent h, climb_names]

theorem climb_relativePieces (h : ∀ n ∈ script, IsName n) :
    climb dir.reverse ((relativePieces dir script).map stepComponent) = some script.reverse := by
  have way := climb_wayTo dir [] h
  rw [List.append_nil, List.append_nil] at way
  unfold relativePieces
  split
  · next rest e => rw [← e, way]
  · rw [List.map_cons, show stepComponent "." = .here by rfl, climb.eq_def]
    exact way

/-- The pieces of a way are names of the script or lead up. -/
theorem mem_wayTo {s : String} (h : s ∈ wayTo dir script) : s = ".." ∨ s ∈ script := by
  fun_induction wayTo dir script with
  | case1 dir s t script ih => exact (ih h).imp_right (List.mem_cons_of_mem _)
  | case2 d dir s' t script _ => exact (List.mem_append.1 h).imp_left List.eq_of_mem_map_const
  | case3 dir script _ => exact (List.mem_append.1 h).imp_left List.eq_of_mem_map_const

theorem mem_relativePieces {s : String} (h : s ∈ relativePieces dir script) :
    s = "." ∨ s = ".." ∨ s ∈ script := by
  unfold relativePieces at h
  split at h
  · next rest e => exact .inr (mem_wayTo (e ▸ h))
  · rcases List.mem_cons.1 h with rfl | h
    · exact .inl rfl
    · exact .inr (mem_wayTo h)

/-- Pieces that are written hold no slash and are not empty. -/
theorem relativePieces_written (h : ∀ n ∈ script, IsName n) {s : String}
    (hs : s ∈ relativePieces dir script) : s.toList ≠ [] ∧ '/' ∉ s.toList := by
  rcases mem_relativePieces hs with rfl | rfl | hs
  · decide
  · decide
  · exact ⟨(h s hs).nonempty, (h s hs).no_slash⟩

theorem steps_relative (h : ∀ n ∈ script, IsName n) :
    Tree.steps (relative dir script).text = relativePieces dir script := by
  have written : ∀ s ∈ relativePieces dir script, s.toList ≠ [] ∧ '/' ∉ s.toList :=
    fun s hs => relativePieces_written h hs
  have pieces : relativePieces dir script ≠ [] := by
    unfold relativePieces
    split <;> simp
  have cut : Text.cutEach '/' (relative dir script).chars =
      (relativePieces dir script).map String.toList := by
    rw [relative, ofNames, chars_ofChars, Text.cutEach_glue (by simpa using pieces)]
    intro piece hp
    obtain ⟨s, hs, rfl⟩ := List.mem_map.1 hp
    exact (written s hs).2
  have all : ((relativePieces dir script).map String.toList).filter (· ≠ []) =
      (relativePieces dir script).map String.toList := by
    rw [List.filter_eq_self]
    intro piece hp
    obtain ⟨s, hs, rfl⟩ := List.mem_map.1 hp
    simpa using (written s hs).1
  rw [steps_told, cut, told, all, List.map_map]
  simp [Function.comp_def]

/-- A relative path starts with a dot. -/
theorem relative_chars (dir script : List String) :
    ∃ cs, (relative dir script).chars = '.' :: cs := by
  have glued (piece : List Char) (ps : List (List Char)) :
      ∃ cs, Text.glue '/' (('.' :: piece) :: ps) = '.' :: cs := by
    cases ps with
    | nil => exact ⟨piece, rfl⟩
    | cons q ps => exact ⟨piece ++ '/' :: Text.glue '/' (q :: ps), rfl⟩
  rw [relative, ofNames, chars_ofChars]
  unfold relativePieces
  split
  · exact glued ['.'] _
  · exact glued [] _

theorem isAbsolute_relative (dir script : List String) :
    (relative dir script).isAbsolute = false := by
  obtain ⟨cs, h⟩ := relative_chars dir script
  rw [isAbsolute, h]
  simp

/-- **The relative path from a folder leads to the script.** -/
theorem normalize?_join_relative (hp : p.names? = some dir) (h : ∀ n ∈ script, IsName n) :
    (p.join (relative dir script)).normalize? = some (ofNames script) := by
  have way : climb dir.reverse ((Tree.steps (relative dir script).text).map stepComponent) =
      some script.reverse := by
    rw [steps_relative h, climb_relativePieces h]
  rw [normalize?, names?_join hp (isAbsolute_relative dir script) way, List.reverse_reverse,
    Option.map_some]

end Path
end Attic
