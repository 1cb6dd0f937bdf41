import Attic.Proofs.Path.Parts
import Mathlib

/-!
# Paths below others

A name that is joined to a path comes after the pieces of the path, but for the
idle ones at their end. What is left of such a path below one that says the same
are the names that were joined.

Key definition: `Path.down`.
Key theorems: `Path.cut_join`, `Path.exists_steps_join`, `Path.body_down`,
`Path.below?_down`.
-/

namespace Attic
namespace Path

variable {p q : Path} {n : String} {names : List String} {ps qs : List (List Char)}

/-- A path with names joined one after the other. -/
def down (p : Path) (names : List String) : Path := names.foldl (fun p n => p.join ⟨n⟩) p

theorem down_cons (p : Path) (n : String) (names : List String) :
    p.down (n :: names) = (p.join ⟨n⟩).down names := rfl

/-! ### Joining a name -/

/-- How a path starts is told by its first piece. -/
theorem cut_of_head (x : List Char) : ∃ l before, ∀ {cs : List Char} {qs : List (List Char)},
    Text.cutEach '/' cs = x :: qs → (x = [] → qs ≠ []) → cut cs = (l, before ++ qs) := by
  by_cases empty : x = []
  · refine ⟨.root, [], fun h more => ?_⟩
    obtain ⟨q, qs, rfl⟩ := List.exists_cons_of_ne_nil (more empty)
    rw [cut, h, empty]
    rfl
  by_cases dot : x = ['.']
  · refine ⟨.here, [], fun h _ => ?_⟩
    rw [cut, h, dot]
    rfl
  · refine ⟨.bare, [x], fun h _ => ?_⟩
    rw [cut, h]
    split
    · next e => exact absurd (List.cons.inj e).1 empty
    · next e => exact absurd (List.cons.inj e).1 dot
    · rfl

theorem chars_ne_nil (written : p.isEmpty = false) : p.chars ≠ [] := by
  intro none
  have empty : p.text = "" := String.toList_injective none
  rw [isEmpty, empty] at written
  exact absurd written (by decide)

/-- A text that is one empty piece is empty. -/
theorem eq_nil_of_cutEach {cs : List Char} (h : Text.cutEach '/' cs = [[]]) : cs = [] := by
  have glued := Text.glue_cutEach '/' cs
  rw [h] at glued
  exact glued.symm

/-- A name is joined with a slash, unless there is one. -/
theorem exists_chars_join (written : p.isEmpty = false) (hn : IsName n) :
    ∃ cs, (p.join ⟨n⟩).chars = cs ++ '/' :: n.toList ∧
      (p.chars = cs ++ ['/'] ∨ p.chars = cs ∧ cs ≠ []) := by
  have relative : (⟨n⟩ : Path).isAbsolute = false := by
    rw [← ofNames_single]
    exact isAbsolute_ofNames (by simpa using hn)
  have joined : p.join ⟨n⟩ = if p.chars.getLast? = some '/' then ⟨p.text ++ n⟩
      else ⟨p.text ++ "/" ++ n⟩ := by
    rw [join, relative, written]
    rfl
  rw [joined]
  split
  · next slash =>
    obtain ⟨cs, hcs⟩ := List.getLast?_eq_some_iff.1 slash
    have text : p.text.toList = cs ++ ['/'] := hcs
    exact ⟨cs, by simp [Path.chars, text], .inl hcs⟩
  · exact ⟨p.chars, by simp [Path.chars], .inr ⟨rfl, chars_ne_nil written⟩⟩

/-- A name comes after the pieces of a path, or in the place of the empty one after
a slash. -/
theorem cut_join (written : p.isEmpty = false) (hn : IsName n) : ∃ ps idle,
    p.body = ps ++ idle ∧ (∀ piece ∈ idle, isIdle piece = true) ∧
      (p.join ⟨n⟩).lead = p.lead ∧ (p.join ⟨n⟩).body = ps ++ [n.toList] := by
  have isName : ∀ m ∈ [n], IsName m := by simpa using hn
  have alone : Text.cutEach '/' n.toList = [n.toList] := by
    have cut := cutEach_ofNames isName (by simp)
    rwa [ofNames_single] at cut
  obtain ⟨cs, joined, path⟩ := exists_chars_join written hn
  obtain ⟨x, qs, pieces⟩ := List.exists_cons_of_ne_nil (Text.cutEach_ne_nil '/' cs)
  obtain ⟨l, before, start⟩ := cut_of_head x
  have after : cut (p.join ⟨n⟩).chars = (l, before ++ (qs ++ [n.toList])) := by
    refine start ?_ (by simp)
    rw [joined, Text.cutEach_append_cons, pieces, alone]
    rfl
  obtain ⟨idle, cut, hidle⟩ : ∃ idle, cut p.chars = (l, before ++ (qs ++ idle)) ∧
      ∀ piece ∈ idle, isIdle piece = true := by
    rcases path with slash | ⟨none, some⟩
    · refine ⟨[[]], start ?_ (by simp), by simp [isIdle]⟩
      rw [slash, Text.cutEach_append_cons, pieces, Text.cutEach_nil]
      rfl
    · refine ⟨[], start (by rw [none, pieces, List.append_nil]) ?_, by simp⟩
      rintro rfl none'
      rw [List.append_nil] at none'
      exact some (eq_nil_of_cutEach (by rw [pieces, none']))
  refine ⟨before ++ qs, idle, ?_, hidle, ?_, ?_⟩
  · rw [body, cut, List.append_assoc]
  · rw [lead, lead, cut, after]
  · rw [body, after, List.append_assoc]

theorem eq_of_isEmpty (empty : p.isEmpty = true) : p = ⟨""⟩ :=
  congrArg Path.mk (by simpa [isEmpty] using empty)

/-- A path says a name that is joined to it last. -/
theorem exists_components_join (hn : IsName n) (p : Path) :
    ∃ cs, (p.join ⟨n⟩).components = cs ++ [.name n] := by
  cases written : p.isEmpty with
  | true =>
    have isName : ∀ m ∈ [n], IsName m := by simpa using hn
    rw [eq_of_isEmpty written, empty_join, ← ofNames_single, components_ofNames isName]
    exact ⟨[], rfl⟩
  | false =>
    obtain ⟨ps, idle, -, -, lead, body⟩ := cut_join written hn
    refine ⟨leadComponents p.lead ++ ps.filterMap pieceComponent?, ?_⟩
    rw [components, lead, body, List.filterMap_append,
      List.filterMap_cons_some hn.pieceComponent?, List.append_assoc]
    rfl

/-- A name joined to a path is the last piece also behind a root. -/
theorem exists_cutEach_join (hn : IsName n) (root p : Path) :
    ∃ qs, Text.cutEach '/' (root.join (p.join ⟨n⟩)).chars = qs ++ [n.toList] := by
  have isName : ∀ m ∈ [n], IsName m := by simpa using hn
  have relative := isAbsolute_ofNames isName
  have alone := cutEach_ofNames isName (by simp)
  rw [ofNames_single] at relative alone
  obtain ⟨ps, inner, -⟩ := cutEach_join p relative
  rw [alone] at inner
  cases absolute : (p.join ⟨n⟩).isAbsolute with
  | true =>
    rw [join, absolute, Bool.true_or, if_pos rfl]
    exact ⟨ps, inner⟩
  | false =>
    obtain ⟨qs, outer, -⟩ := cutEach_join root absolute
    exact ⟨qs ++ ps, by rw [outer, inner, List.map_singleton, List.append_assoc]⟩

/-- **A way to a name joined to a path ends with that name.** -/
theorem exists_steps_join (hn : IsName n) (root p : Path) :
    ∃ xs, Tree.steps (root.join (p.join ⟨n⟩)).text = xs ++ [n] := by
  obtain ⟨qs, pieces⟩ := exists_cutEach_join hn root p
  refine ⟨told qs, ?_⟩
  rw [steps_told, pieces, told_append, told_cons hn.nonempty, String.ofList_toList]
  rfl

theorem endsWithSlash_join_name (hn : IsName n) (root p : Path) :
    Tree.endsWithSlash (root.join (p.join ⟨n⟩)).text = false := by
  obtain ⟨qs, pieces⟩ := exists_cutEach_join hn root p
  refine Bool.eq_false_iff.2 fun slash => ?_
  obtain ⟨ps, slashed⟩ := cutEach_of_endsWithSlash slash
  rw [pieces] at slashed
  exact hn.nonempty (List.singleton_injective (List.append_inj' slashed rfl).2)

/-- What has a telling piece is not empty. -/
theorem isEmpty_of_telling {piece : List Char} (h : piece ∈ p.body) (tells : isIdle piece = false) :
    p.isEmpty = false := by
  refine Bool.eq_false_iff.2 fun empty => ?_
  obtain rfl := eq_of_isEmpty empty
  have idle : isIdle piece = true := by
    have : piece ∈ [([] : List Char)] := h
    rw [List.mem_singleton.1 this]
    rfl
  simp [idle] at tells

/-- Names that are joined come after the pieces of a path, but for idle ones at
their end. -/
theorem body_down (written : p.isEmpty = false) (isName : ∀ n ∈ names, IsName n)
    (hne : names ≠ []) : ∃ ps idle, p.body = ps ++ idle ∧ (∀ piece ∈ idle, isIdle piece = true) ∧
      (p.down names).lead = p.lead ∧ (p.down names).body = ps ++ names.map String.toList := by
  induction names using List.reverseRecOn with
  | nil => exact absurd rfl hne
  | append_singleton names n ih =>
    have hn := isName n (by simp)
    have step : p.down (names ++ [n]) = (p.down names).join ⟨n⟩ := by simp [down]
    rw [step]
    by_cases first : names = []
    · subst first
      exact cut_join written hn
    · have isName' : ∀ m ∈ names, IsName m := fun m hm => isName m (by simp [hm])
      obtain ⟨ps, idle, hps, hidle, lead, body⟩ := ih isName' first
      obtain ⟨ms, m, rfl⟩ := (List.eq_nil_or_concat names).resolve_left first
      have tells : isIdle m.toList = false := (isName' m (by simp)).isIdle
      have written' : (p.down (ms.concat m)).isEmpty = false :=
        isEmpty_of_telling (by rw [body]; simp) tells
      obtain ⟨ps', idle', hps', hidle', lead', body'⟩ := cut_join written' hn
      refine ⟨ps, idle, hps, hidle, lead'.trans lead, ?_⟩
      -- the last piece is a name, so none of the pieces is idle at the end
      have none : idle' = [] := by
        by_contra some
        have last := congrArg List.getLast? (body.symm.trans hps')
        rw [List.getLast?_append_of_ne_nil _ some] at last
        have inside : m.toList ∈ idle' := List.mem_of_getLast? (last.symm.trans (by simp))
        simp [hidle' _ inside] at tells
      rw [body', List.map_append, ← List.append_assoc, ← body, hps', none, List.append_nil]
      rfl

/-! ### What is left -/

/-- Behind as many telling pieces as there are the rest is left, and idle pieces. -/
theorem dropTelling_append (rest : List (List Char)) : ∀ ps : List (List Char),
    (dropTelling (ps.filterMap pieceComponent?).length (ps ++ rest)).dropWhile isIdle =
      rest.dropWhile isIdle
  | [] => by simp [dropTelling]
  | piece :: ps => by
    have ih := dropTelling_append rest ps
    have tells := pieceComponent?_isSome piece
    cases idle : isIdle piece with
    | true =>
      have none : pieceComponent? piece = none := by simpa [idle] using tells
      rw [List.filterMap_cons_none none, List.cons_append]
      cases hk : (ps.filterMap pieceComponent?).length with
      | zero =>
        rw [hk, dropTelling] at ih
        rw [dropTelling, List.dropWhile_cons_of_pos idle]
        exact ih
      | succ k =>
        rw [hk] at ih
        rw [dropTelling, if_pos idle]
        exact ih
    | false =>
      obtain ⟨c, hc⟩ := Option.isSome_iff_exists.1 (tells.trans (by rw [idle]; rfl))
      rw [List.filterMap_cons_some hc, List.length_cons, List.cons_append, dropTelling,
        if_neg (by simp [idle])]
      exact ih

/-- **Below a path that says the same the names that were joined are left.** -/
theorem below?_down (same : p.components = q.components) (written : q.components ≠ [])
    (isName : ∀ n ∈ names, IsName n) (hne : names ≠ []) :
    (p.down names).below? q = some (ofNames names) := by
  have written' : p.isEmpty = false := by
    refine Bool.eq_false_iff.2 fun empty => ?_
    obtain rfl := eq_of_isEmpty empty
    exact written (same.symm.trans (by rfl))
  obtain ⟨ps, idle, hps, hidle, hlead, hbody⟩ := body_down written' isName hne
  have told : q.components = leadComponents p.lead ++ ps.filterMap pieceComponent? := by
    rw [← same, components, hps, List.filterMap_append, filterMap_of_idle hidle, List.append_nil]
  have starts : (p.down names).startsWith q = true := by
    rw [startsWith, List.isPrefixOf_iff_prefix, told, components, hlead, hbody,
      List.filterMap_append, ← List.append_assoc]
    exact List.prefix_append _ _
  have some : q.components.isEmpty = false := by simpa using written
  have count : q.components.length - (leadComponents (p.down names).lead).length =
      (ps.filterMap pieceComponent?).length := by
    rw [told, hlead, List.length_append, Nat.add_sub_cancel_left]
  have first : (names.map String.toList).dropWhile isIdle = names.map String.toList := by
    obtain ⟨n, ns, rfl⟩ := List.exists_cons_of_ne_nil hne
    have tells := (isName n List.mem_cons_self).isIdle
    rw [List.map_cons, List.dropWhile_cons_of_neg (by simp [tells])]
  rw [below?, starts, if_pos rfl, some, if_neg Bool.false_ne_true]
  simp only [count, hbody, dropTelling_append, first, dropIdleEnd_names isName]
  rfl

end Path
end Attic
