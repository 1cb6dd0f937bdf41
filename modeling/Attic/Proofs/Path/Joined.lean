import Attic.Proofs.Path.Relative
import Mathlib

/-!
# Normal forms of joined paths

A path that is joined to another counts by its steps: slashes at its end do not
matter, and its last piece is climbed to from where the pieces before it lead. Behind
the root of a file system nothing has a normal form.

Key theorems: `Path.names?_join_eq`, `Path.names?_join_congr`, `Path.suffix_of_names?`,
`Path.suffix_of_names?_join`, `Path.steps_slashes`, `Path.names?_join_piece`,
`Path.names?_join_name`, `Path.climb_suffix`, `Path.exists_names?_join`.
-/

namespace Attic
namespace Path

variable {p q q' : Path} {names st st' : List String} {before piece : List Char}

/-! ### Joining -/

theorem names?_of_isAbsolute (h : p.isAbsolute = true) : p.names? = none := by
  cases names : p.names? with
  | none => rfl
  | some ns => exact absurd (isAbsolute_of_names? names) (by simp [h])

theorem isAbsolute_join_eq (hq : q.isAbsolute = false) : (p.join q).isAbsolute = p.isAbsolute := by
  cases hp : p.isAbsolute with
  | false => exact isAbsolute_join hp hq
  | true =>
    simp only [isAbsolute, beq_iff_eq] at hp
    obtain ⟨cs, hcs⟩ := List.head?_eq_some_iff.1 hp
    have text : p.text.toList = '/' :: cs := hcs
    have written : p.isEmpty = false := by
      rw [isEmpty, Bool.eq_false_iff]
      intro empty
      rw [String.isEmpty_iff.1 empty] at text
      simp at text
    rw [join, hq, written, Bool.or_self, if_neg Bool.false_ne_true]
    split <;> simp [isAbsolute, chars, text]

theorem isAbsolute_cons {c : Char} (start : c ≠ '/') (cs : List Char) :
    (ofChars (c :: cs)).isAbsolute = false := by
  simp [isAbsolute, chars_ofChars, start]

theorem isAbsolute_dot (cs : List Char) : (ofChars ('.' :: cs)).isAbsolute = false :=
  isAbsolute_cons (by decide) cs

/-- **The normal form of a joined path is climbed to by the steps of both.** -/
theorem names?_join_eq (hq : q.isAbsolute = false) : (p.join q).names? =
    if p.isAbsolute then none
    else (climb [] ((Tree.steps p.text ++ Tree.steps q.text).map stepComponent)).map
      List.reverse := by
  split
  · next hp => exact names?_of_isAbsolute ((isAbsolute_join_eq hq).trans hp)
  · next hp =>
    have relative : (p.join q).isAbsolute = false :=
      (isAbsolute_join_eq hq).trans (Bool.not_eq_true _ ▸ hp)
    rw [names?_eq_steps relative, steps_join p hq]

/-- Paths of the same steps lead to one place. -/
theorem names?_join_congr (hq : q.isAbsolute = false) (hq' : q'.isAbsolute = false)
    (steps : Tree.steps q.text = Tree.steps q'.text) : (p.join q).names? = (p.join q').names? := by
  rw [names?_join_eq hq, names?_join_eq hq', steps]

theorem names?_join_eq_some (hq : q.isAbsolute = false) :
    (p.join q).names? = some names ↔ p.isAbsolute = false ∧
      climb [] ((Tree.steps p.text ++ Tree.steps q.text).map stepComponent) =
        some names.reverse := by
  rw [names?_join_eq hq]
  cases p.isAbsolute with
  | true => simp
  | false =>
    rw [if_neg Bool.false_ne_true, Option.map_eq_some_iff]
    refine ⟨fun ⟨st, hst, e⟩ => ⟨rfl, ?_⟩, fun ⟨_, hst⟩ => ⟨_, hst, List.reverse_reverse _⟩⟩
    rw [hst, ← e, List.reverse_reverse]

/-- Only a relative path leads somewhere from another. -/
theorem isAbsolute_of_names?_join (leads : (p.join q).names? = some names) :
    q.isAbsolute = false := by
  refine Bool.eq_false_iff.2 fun rooted => ?_
  rw [join, rooted, Bool.true_or, if_pos rfl, names?_of_isAbsolute rooted] at leads
  exact absurd leads (by simp)

/-- What a path leads to by itself is what it leads to from another, without some names
before it. -/
theorem suffix_of_names? {ns : List String} (alone : q.names? = some ns)
    (leads : (p.join q).names? = some names) : ns <:+ names := by
  have relative := isAbsolute_of_names?_join leads
  rw [names?_eq_steps relative] at alone
  obtain ⟨st, way, rfl⟩ := Option.map_eq_some_iff.1 alone
  obtain ⟨-, whole⟩ := (names?_join_eq_some relative).1 leads
  rw [List.map_append, climb_append, Option.bind_eq_some_iff] at whole
  obtain ⟨above, -, whole⟩ := whole
  have same := Option.some.inj ((climb_above above way).symm.trans whole)
  rw [← List.reverse_reverse names, ← same, List.reverse_append]
  exact List.suffix_append _ _

/-- The names that a path ends with are the last ones of where it leads. -/
theorem suffix_of_names?_join {cs : List Component} {tail : List String}
    (hq : q.components = cs ++ tail.map .name) (leads : (p.join q).names? = some names) :
    tail <:+ names := by
  have relative := isAbsolute_of_names?_join leads
  obtain ⟨-, way⟩ := (names?_join_eq_some relative).1 leads
  rw [List.map_append, climb_append, Option.bind_eq_some_iff] at way
  obtain ⟨st, -, way⟩ := way
  rw [climb_steps relative, hq, climb_append, Option.bind_eq_some_iff] at way
  obtain ⟨st, -, way⟩ := way
  have turned := congrArg List.reverse (Option.some.inj ((climb_names st tail).symm.trans way))
  rw [List.reverse_append, List.reverse_reverse, List.reverse_reverse] at turned
  exact ⟨st.reverse, turned⟩

/-! ### Steps of texts -/

theorem steps_ofChars (cs : List Char) :
    Tree.steps (ofChars cs).text = told (Text.cutEach '/' cs) := by
  rw [steps_told, chars_ofChars]

/-- Slashes at the end are no steps. -/
theorem steps_slashes (cs : List Char) : ∀ k,
    told (Text.cutEach '/' (cs ++ List.replicate k '/')) = told (Text.cutEach '/' cs)
  | 0 => by simp
  | k + 1 => by
    have none : told (Text.cutEach '/' (List.replicate k '/')) = [] := by
      have ih := steps_slashes [] k
      rwa [List.nil_append] at ih
    rw [List.replicate_succ, Text.cutEach_append_cons, told_append, none, List.append_nil]

/-- The last piece of a text is its last step, if it is not empty. -/
theorem steps_piece (slash : '/' ∉ piece) :
    told (Text.cutEach '/' (before ++ '/' :: piece)) =
      told (Text.cutEach '/' before) ++ told [piece] := by
  rw [Text.cutEach_append_cons, told_append, Text.cutEach_of_not_mem slash]

/-- A path that starts with no slash is climbed from where the text before its last piece
leads. -/
theorem names?_join_piece {c : Char} (start : c ≠ '/') (slash : '/' ∉ piece) :
    (p.join (ofChars (c :: before ++ '/' :: piece))).names? = some names ↔
      p.isAbsolute = false ∧ ∃ st,
        climb [] ((Tree.steps p.text ++ told (Text.cutEach '/' (c :: before))).map
          stepComponent) = some st ∧
        climb st ((told [piece]).map stepComponent) = some names.reverse := by
  have relative : (ofChars (c :: before ++ '/' :: piece)).isAbsolute = false :=
    isAbsolute_cons start (before ++ '/' :: piece)
  rw [names?_join_eq_some relative, steps_ofChars, steps_piece slash, ← List.append_assoc,
    List.map_append, climb_append, Option.bind_eq_some_iff]

theorem isName_ofList_iff :
    IsName (String.ofList piece) ↔
      piece ≠ [] ∧ '/' ∉ piece ∧ piece ≠ ['.'] ∧ piece ≠ ['.', '.'] := by
  have dot : String.ofList piece = "." ↔ piece = ['.'] := String.ofList_inj
  have up : String.ofList piece = ".." ↔ piece = ['.', '.'] := String.ofList_inj
  constructor
  · intro h
    have nonempty := h.nonempty
    have no_slash := h.no_slash
    rw [String.toList_ofList] at nonempty no_slash
    exact ⟨nonempty, no_slash, mt dot.2 h.not_dot, mt up.2 h.not_up⟩
  · rintro ⟨nonempty, no_slash, not_dot, not_up⟩
    exact ⟨by rwa [String.toList_ofList], by rwa [String.toList_ofList], mt dot.1 not_dot,
      mt up.1 not_up⟩

/-- A piece that is a name is climbed to. -/
theorem climb_piece (h : IsName (String.ofList piece)) :
    climb st ((told [piece]).map stepComponent) = some (String.ofList piece :: st) := by
  rw [told_cons (isName_ofList_iff.1 h).1, told_nil, List.map_singleton, h.stepComponent]
  rfl

/-- A path whose last piece is a name has it for the last of its names. -/
theorem names?_join_name {c : Char} (start : c ≠ '/') (h : IsName (String.ofList piece)) :
    (p.join (ofChars (c :: before ++ '/' :: piece))).names? = some names ↔
      p.isAbsolute = false ∧ ∃ st,
        climb [] ((Tree.steps p.text ++ told (Text.cutEach '/' (c :: before))).map
          stepComponent) = some st ∧
        names = st.reverse ++ [String.ofList piece] := by
  have turned (st : List String) : some (String.ofList piece :: st) = some names.reverse ↔
      names = st.reverse ++ [String.ofList piece] := by
    rw [Option.some_inj, ← List.reverse_inj, List.reverse_reverse, List.reverse_cons]
    exact eq_comm
  simp only [names?_join_piece start (isName_ofList_iff.1 h).2.1, climb_piece h, turned]

/-- A piece that is no name stays or leads up. -/
theorem climb_suffix (slash : '/' ∉ piece) (h : ¬ IsName (String.ofList piece))
    (way : climb st ((told [piece]).map stepComponent) = some st') : st' <:+ st := by
  by_cases empty : piece = []
  · rw [empty] at way
    rw [← Option.some.inj way]
  by_cases dot : piece = ['.']
  · rw [dot] at way
    rw [← Option.some.inj way]
  by_cases up : piece = ['.', '.']
  · rw [up] at way
    cases st with
    | nil => exact absurd way (by simp [told, stepComponent, climb])
    | cons s st =>
      rw [← Option.some.inj way]
      exact List.suffix_cons s st
  · exact absurd (isName_ofList_iff.2 ⟨empty, slash, dot, up⟩) h

/-! ### From a deep folder -/

/-- From a folder that is deep enough for its climbs every way leads somewhere. -/
theorem exists_climb : ∀ (cs : List Component) (stack : List String), .root ∉ cs →
    cs.count .up ≤ stack.length → ∃ st, climb stack cs = some st
  | [], stack, _, _ => ⟨stack, rfl⟩
  | .here :: cs, stack, rooted, deep =>
    exists_climb cs stack (fun h => rooted (List.mem_cons_of_mem _ h)) (by simpa using deep)
  | .name s :: cs, stack, rooted, deep => by
    refine exists_climb cs (s :: stack) (fun h => rooted (List.mem_cons_of_mem _ h)) ?_
    rw [List.count_cons_of_ne (by simp)] at deep
    exact deep.trans (by simp)
  | .up :: cs, [], _, deep => absurd deep (by simp)
  | .up :: cs, _ :: stack, rooted, deep =>
    exists_climb cs stack (fun h => rooted (List.mem_cons_of_mem _ h)) (by simpa using deep)
  | .root :: cs, _, rooted, _ => absurd List.mem_cons_self rooted

/-- A relative path without `..` has a normal form. -/
theorem exists_names? (level : .up ∉ p.components) (relative : .root ∉ p.components) :
    ∃ ns, p.names? = some ns := by
  obtain ⟨st, hst⟩ :=
    exists_climb p.components [] relative (List.count_eq_zero_of_not_mem level).le
  exact ⟨st.reverse, by rw [names?, hst, Option.map_some]⟩

theorem stepComponent_ne_root (s : String) : stepComponent s ≠ .root := by
  unfold stepComponent
  split_ifs <;> simp

/-- From a folder that is deep enough a path with a name behind it leads to this name. -/
theorem exists_names?_join (before : List Char) {c : Char} {n : String} (name : IsName n)
    (start : c ≠ '/') : ∃ ds ns : List String, (∀ d ∈ ds, IsName d) ∧
      ((ofNames ds).join (ofChars (c :: before ++ '/' :: n.toList))).names? =
        some (ns ++ [n]) := by
  have piece : IsName (String.ofList n.toList) := by rwa [String.ofList_toList]
  generalize hway : (told (Text.cutEach '/' (c :: before))).map stepComponent = way
  have folders : ∀ d ∈ List.replicate way.length "d", IsName d := by
    intro d hd
    rw [List.eq_of_mem_replicate hd]
    decide
  have rooted : .root ∉ way := by
    rw [← hway, List.mem_map]
    rintro ⟨s, -, root⟩
    exact stepComponent_ne_root s root
  obtain ⟨st, leads⟩ := exists_climb way (List.replicate way.length "d") rooted
    (by rw [List.length_replicate]; exact List.count_le_length)
  refine ⟨List.replicate way.length "d", st.reverse, folders, ?_⟩
  rw [names?_join_name start piece]
  refine ⟨isAbsolute_ofNames folders, st, ?_, by rw [String.ofList_toList]⟩
  rw [steps_ofNames folders, List.map_append, climb_append,
    map_stepComponent folders, climb_names, Option.bind_some, hway,
    List.reverse_replicate, List.append_nil]
  exact leads

end Path
end Attic
