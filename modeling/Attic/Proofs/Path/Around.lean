import Attic.Proofs.Path.Extension
import Attic.Proofs.Path.Joined
import Mathlib

/-!
# Paths around a name

A name in the text of a path is part of one of its pieces, and this piece is a name
whatever other name is written in its stead. So either the path turns back from the
piece, and where it leads does not depend on the name, or the piece is one of the names
of the normal form and the others do not depend on it.

Key theorems: `Text.exists_cutEach_around`, `Path.isName_around`, `Path.climb_around`,
`Path.not_mem_of_names?_join`, `Path.names?_around`, `Path.extension?_around`.
-/

namespace Attic
namespace Text

/-- A text without the separator is cut with what adjoins it. -/
theorem exists_cutEach_around (sep : Char) (before after : List Char) :
    ∃ ps u v qs, ∀ x, sep ∉ x →
      cutEach sep (before ++ x ++ after) = ps ++ (u ++ x ++ v) :: qs := by
  have last : ∃ ps u, sep ∉ u ∧ ∀ cs, cutEach sep (before ++ cs) = ps ++ cutEach sep (u ++ cs) := by
    by_cases inside : sep ∈ before
    · obtain ⟨u, b, turned, hu⟩ := List.eq_append_cons_of_mem (List.mem_reverse.2 inside)
      have text : before = b.reverse ++ sep :: u.reverse := by
        rw [← List.reverse_reverse before, turned]
        simp
      refine ⟨cutEach sep b.reverse, u.reverse, by simpa using hu, fun cs => ?_⟩
      rw [text, List.append_assoc, List.cons_append, cutEach_append_cons]
    · exact ⟨[], before, inside, fun cs => rfl⟩
  have first : ∃ v qs, sep ∉ v ∧ ∀ u, sep ∉ u → cutEach sep (u ++ after) = (u ++ v) :: qs := by
    by_cases inside : sep ∈ after
    · obtain ⟨v, e, rfl, hv⟩ := List.eq_append_cons_of_mem inside
      refine ⟨v, cutEach sep e, hv, fun u hu => ?_⟩
      rw [← List.append_assoc]
      exact cutEach_append e (by simp [hu, hv])
    · exact ⟨after, [], inside, fun u hu => cutEach_of_not_mem (by simp [hu, inside])⟩
  obtain ⟨ps, u, hu, left⟩ := last
  obtain ⟨v, qs, -, right⟩ := first
  refine ⟨ps, u, v, qs, fun x hx => ?_⟩
  rw [List.append_assoc, left, ← List.append_assoc, right _ (by simp [hu, hx])]

/-- A piece is put together with what does not depend on it. -/
theorem exists_glue_around (sep : Char) (qs : List (List Char)) : ∀ ps : List (List Char),
    ∃ u v, ∀ p, glue sep (ps ++ p :: qs) = u ++ p ++ v
  | [] => by
    cases qs with
    | nil => exact ⟨[], [], fun p => by simp [glue]⟩
    | cons q qs => exact ⟨[], sep :: glue sep (q :: qs), fun p => by simp [glue]⟩
  | p' :: ps => by
    obtain ⟨u, v, more⟩ := exists_glue_around sep qs ps
    refine ⟨p' ++ sep :: u, v, fun p => ?_⟩
    have joined : glue sep ([p'] ++ (ps ++ p :: qs)) = glue sep [p'] ++ sep :: _ :=
      glue_append_glue (by simp) (by simp)
    rw [List.cons_append, ← List.singleton_append, joined, more]
    simp [glue]

end Text

namespace Path

variable {p : Path} {n m : String} {u v : List Char} {xs ys st : List String}

/-- A name together with what adjoins it is a name. -/
theorem isName_around (hn : IsName n) (hu : '/' ∉ u) (hv : '/' ∉ v) :
    IsName (String.ofList (u ++ n.toList ++ v)) := by
  have dots : ∀ w ∈ [['.'], ['.', '.']], ∀ x ∈ w.sublists, x ≠ [] → x = ['.'] ∨ x = ['.', '.'] := by
    decide
  have part : n.toList.Sublist (u ++ n.toList ++ v) := (List.infix_append u n.toList v).sublist
  have other : ∀ w ∈ [['.'], ['.', '.']], u ++ n.toList ++ v ≠ w := by
    rintro w hw rfl
    rcases dots _ hw _ (List.mem_sublists.2 part) hn.nonempty with dot | up
    · exact hn.not_dot (String.toList_injective dot)
    · exact hn.not_up (String.toList_injective up)
  refine isName_ofList_iff.2 ⟨by simp [hn.nonempty], ?_, other _ (by simp), other _ (by simp)⟩
  simp [hu, hv, hn.no_slash]

/-- From a name on the way either turns back before it, or it stays. -/
theorem climb_around (st : List String) : ∀ (cs : List Component) (top : List String),
    (∃ out, ∀ n, climb (top ++ n :: st) cs = out) ∨
      ∃ top', ∀ n, climb (top ++ n :: st) cs = some (top' ++ n :: st)
  | [], top => .inr ⟨top, fun n => by rw [climb]⟩
  | .here :: cs, top => by
    simpa only [climb] using climb_around st cs top
  | .name s :: cs, top => by
    simpa only [climb, List.cons_append] using climb_around st cs (s :: top)
  | .up :: cs, t :: top => by
    simpa only [List.cons_append, climb] using climb_around st cs top
  | .up :: cs, [] => .inl ⟨climb st cs, fun n => by rw [List.nil_append, climb]⟩
  | .root :: cs, [] => .inl ⟨none, fun n => by rw [List.nil_append, climb]⟩
  | .root :: cs, t :: top => .inl ⟨none, fun n => by rw [List.cons_append, climb]⟩

/-- A text with a name in it is absolute if what stands before the name is. -/
theorem isAbsolute_around (hn : IsName n) (before after : List Char) :
    (ofChars (before ++ n.toList ++ after)).isAbsolute = (before.head? == some '/') := by
  rw [isAbsolute, chars_ofChars]
  cases before with
  | cons c cs => rfl
  | nil =>
    obtain ⟨c, cs, text⟩ := List.exists_cons_of_ne_nil hn.nonempty
    have slash : c ≠ '/' := by
      rintro rfl
      exact hn.no_slash (by simp [text])
    simp [text, slash]

/-! ### Characters of names -/

/-- The names that a path leads to are written in it. -/
theorem subset_of_names? {names : List String} (h : p.names? = some names) (hn : n ∈ names) :
    ∀ c ∈ n.toList, c ∈ p.chars := by
  unfold names? at h
  obtain ⟨st, way, rfl⟩ := Option.map_eq_some_iff.1 h
  have component := (climb_mem way n (List.mem_reverse.1 hn)).resolve_left (by simp)
  have piece := mem_cutEach_of_mem_body (mem_body_of_component component).1
  intro c hc
  rw [← Text.glue_cutEach '/' p.chars]
  exact Text.subset_glue piece c hc

theorem mem_chars_join {q : Path} {c : Char} (h : c ∈ (p.join q).chars) :
    c ∈ p.chars ∨ c = '/' ∨ c ∈ q.chars := by
  unfold join at h
  split_ifs at h
  · exact .inr (.inr h)
  · rw [chars, String.toList_append, List.mem_append] at h
    exact h.imp_right .inr
  · rw [chars, String.toList_append, String.toList_append, List.mem_append, List.mem_append] at h
    rcases h with (left | sep) | right
    · exact .inl left
    · exact .inr (.inl (List.mem_singleton.1 sep))
    · exact .inr (.inr right)

/-- What is written neither in a path nor in one joined to it is not written in the names
that they lead to. -/
theorem not_mem_of_names?_join {c : Char} {cs : List Char} {names : List String} (slash : c ≠ '/')
    (hp : c ∉ p.chars) (hcs : c ∉ cs) (h : (p.join (ofChars cs)).names? = some names)
    (hn : n ∈ names) : c ∉ n.toList := by
  intro inside
  rcases mem_chars_join (subset_of_names? h hn c inside) with left | sep | right
  · exact hp left
  · exact slash sep
  · exact hcs (chars_ofChars cs ▸ right)

/-! ### Where a name leads -/

/-- **Where a path leads does not depend on a name in it, or this name is part of one of
the names there**, and the others do not depend on it. -/
theorem names?_around (p : Path) (before after : List Char) :
    (∃ out, ∀ n, IsName n → (p.join (ofChars (before ++ n.toList ++ after))).names? = out) ∨
      ∃ xs u v ys, ∀ n, IsName n → (p.join (ofChars (before ++ n.toList ++ after))).names? =
        some (xs ++ String.ofList (u ++ n.toList ++ v) :: ys) := by
  obtain ⟨ps, u, v, qs, cut⟩ := Text.exists_cutEach_around '/' before after
  have piece {n : String} (hn : IsName n) : IsName (String.ofList (u ++ n.toList ++ v)) := by
    have slash : '/' ∉ u ++ n.toList ++ v := by
      refine Text.not_mem_of_mem_cutEach (before ++ n.toList ++ after) ?_
      rw [cut _ hn.no_slash]
      simp
    simp only [List.mem_append, not_or] at slash
    exact isName_around hn slash.1.1 slash.2
  have steps {n : String} (hn : IsName n) :
      Tree.steps (ofChars (before ++ n.toList ++ after)).text =
        told ps ++ String.ofList (u ++ n.toList ++ v) :: told qs := by
    rw [steps_ofChars, cut _ hn.no_slash, told_append, told_cons (isName_ofList_iff.1 (piece hn)).1]
  by_cases start : (before.head? == some '/') = true
  · refine .inl ⟨none, fun n hn => names?_of_isAbsolute ?_⟩
    have rooted := isAbsolute_around hn before after
    rw [start] at rooted
    rwa [join, rooted, Bool.true_or, if_pos rfl]
  have relative {n : String} (hn : IsName n) :
      (ofChars (before ++ n.toList ++ after)).isAbsolute = false := by
    rw [isAbsolute_around hn, Bool.eq_false_iff]
    exact start
  by_cases rooted : p.isAbsolute = true
  · exact .inl ⟨none, fun n hn => by rw [names?_join_eq (relative hn), if_pos rooted]⟩
  -- the way to the name, and the way on from there
  have way {n : String} (hn : IsName n) : (p.join (ofChars (before ++ n.toList ++ after))).names? =
      ((climb [] ((Tree.steps p.text ++ told ps).map stepComponent)).bind fun st =>
        climb (String.ofList (u ++ n.toList ++ v) :: st) ((told qs).map stepComponent)).map
          List.reverse := by
    rw [names?_join_eq (relative hn), if_neg rooted, steps hn, ← List.append_assoc, List.map_append,
      climb_append, List.map_cons, (piece hn).stepComponent]
    rfl
  cases upTo : climb [] ((Tree.steps p.text ++ told ps).map stepComponent) with
  | none => exact .inl ⟨none, fun n hn => by rw [way hn, upTo]; rfl⟩
  | some st =>
    rcases climb_around st ((told qs).map stepComponent) [] with ⟨out, back⟩ | ⟨top, stays⟩
    · refine .inl ⟨out.map List.reverse, fun n hn => ?_⟩
      rw [way hn, upTo, Option.bind_some, ← back, List.nil_append]
    · refine .inr ⟨st.reverse, u, v, top.reverse, fun n hn => ?_⟩
      have stays := stays (String.ofList (u ++ n.toList ++ v))
      rw [List.nil_append] at stays
      rw [way hn, upTo, Option.bind_some, stays]
      simp

/-- If a path of names has no extension with one name in it, it has none with another that
has no dot. -/
theorem extension?_around (h : ∀ a ∈ xs ++ String.ofList (u ++ n.toList ++ v) :: ys, IsName a)
    (h' : ∀ a ∈ xs ++ String.ofList (u ++ m.toList ++ v) :: ys, IsName a) (hn : n.toList ≠ [])
    (dot : '.' ∉ m.toList)
    (none : (ofNames (xs ++ String.ofList (u ++ n.toList ++ v) :: ys)).extension? = none) :
    (ofNames (xs ++ String.ofList (u ++ m.toList ++ v) :: ys)).extension? = .none := by
  rcases List.eq_nil_or_concat ys with rfl | ⟨zs, z, rfl⟩
  · rw [extension?_ofNames (fun a ha => h a (by simp [ha])) (h _ (by simp)),
      Option.map_eq_none_iff, String.toList_ofList, splitDot_eq_none_iff] at none
    rw [extension?_ofNames (fun a ha => h' a (by simp [ha])) (h' _ (by simp)),
      Option.map_eq_none_iff, String.toList_ofList, splitDot_eq_none_iff]
    intro later
    cases u with
    | cons c u =>
      simp only [List.cons_append, List.tail_cons, List.mem_append, not_or] at none later
      exact later.elim (fun inside => inside.elim none.1.1 dot) none.2
    | nil =>
      obtain ⟨c, cs, text⟩ := List.exists_cons_of_ne_nil hn
      rw [text] at none
      simp only [List.nil_append, List.cons_append, List.tail_cons, List.mem_append,
        not_or] at none
      exact (List.mem_append.1 (List.mem_of_mem_tail later)).elim dot none.2
  · rw [List.concat_eq_append, ← List.cons_append, ← List.append_assoc] at h h' none ⊢
    rw [extension?_ofNames (fun a ha => h a (List.mem_append_left _ ha)) (h z (by simp))] at none
    rw [extension?_ofNames (fun a ha => h' a (List.mem_append_left _ ha)) (h' z (by simp)), none]

end Path
end Attic
