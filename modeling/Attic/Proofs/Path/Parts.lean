import Attic.Path.Parts
import Attic.Proofs.Path.Names
import Mathlib

/-!
# The parts of normal paths

The last piece of a path that tells something says its last component. The file name
of a path of names is the last of them, also behind a root, and the others are its
parent. Joining puts a name at the end.

Key theorems: `Path.components_of_splitLast?`, `Path.fileChars?_of_components`,
`Path.parent_ofNames`, `Path.ofNames_join_ofNames`, `Path.fileChars?_join_ofNames`.
-/

namespace Attic

/-- Two lists of pieces are put together with a separator between them. -/
theorem Text.glue_append_glue {sep : Char} {qs : List (List Char)} (hqs : qs ≠ []) :
    ∀ {ps : List (List Char)}, ps ≠ [] → glue sep (ps ++ qs) = glue sep ps ++ sep :: glue sep qs
  | [], h => absurd rfl h
  | [p], _ => by
    obtain ⟨q, qs, rfl⟩ := List.exists_cons_of_ne_nil hqs
    rfl
  | p :: q :: ps, _ => by
    have ih : glue sep (q :: ps ++ qs) = glue sep (q :: ps) ++ sep :: glue sep qs :=
      glue_append_glue hqs (List.cons_ne_nil q ps)
    rw [List.cons_append, List.cons_append, glue, glue, ← List.cons_append, ih]
    simp

theorem Text.glue_append {sep : Char} (p : List Char) {ps : List (List Char)} (h : ps ≠ []) :
    glue sep (ps ++ [p]) = glue sep ps ++ sep :: p :=
  glue_append_glue (List.cons_ne_nil p []) h

/-- A text of pieces is made of their characters and the separator. -/
theorem Text.mem_glue {sep c : Char} : ∀ {ps : List (List Char)}, c ∈ glue sep ps →
    c = sep ∨ ∃ p ∈ ps, c ∈ p
  | [], h => by simp [glue] at h
  | [p], h => .inr ⟨p, by simp, h⟩
  | p :: q :: ps, h => by
    rw [glue, List.mem_append, List.mem_cons] at h
    rcases h with first | rfl | later
    · exact .inr ⟨p, by simp, first⟩
    · exact .inl rfl
    · rcases mem_glue later with same | ⟨r, hr, inside⟩
      · exact .inl same
      · exact .inr ⟨r, List.mem_cons_of_mem _ hr, inside⟩

theorem Text.subset_glue {sep : Char} {p : List Char} : ∀ {ps : List (List Char)}, p ∈ ps →
    ∀ c ∈ p, c ∈ glue sep ps
  | [q], h, c, hc => by
    rwa [List.mem_singleton.1 h] at hc
  | q :: r :: ps, h, c, hc => by
    rw [glue, List.mem_append, List.mem_cons]
    rcases List.mem_cons.1 h with rfl | later
    · exact .inl hc
    · exact .inr (.inr (subset_glue later c hc))

namespace Path

variable {p : Path} {ns : List String} {n : String} {before ps : List (List Char)}
variable {last : List Char}

theorem Component.name_injective : Function.Injective Component.name :=
  fun _ _ => Component.name.inj

theorem concat_names_inj {ms : List String} {c d : Component} :
    ns.map Component.name ++ [c] = ms.map Component.name ++ [d] ↔ ns = ms ∧ c = d := by
  constructor
  · intro e
    obtain ⟨front, last⟩ := List.append_inj' e rfl
    exact ⟨Component.name_injective.list_map front, List.singleton_injective last⟩
  · rintro ⟨rfl, rfl⟩
    rfl

/-- A name is not idle. -/
theorem IsName.isIdle (h : IsName n) : isIdle n.toList = false := by
  have dot : n.toList ≠ ['.'] := fun e => h.not_dot (String.toList_injective e)
  simp [Path.isIdle, h.nonempty, dot]

theorem dropIdleEnd_names (h : ∀ n ∈ ns, IsName n) :
    dropIdleEnd (ns.map String.toList) = ns.map String.toList := by
  rcases List.eq_nil_or_concat ns with rfl | ⟨ms, m, rfl⟩
  · rfl
  · have last := (h m (by simp)).isIdle
    simp [dropIdleEnd, last]

/-- What ends with a name has it as its file name. -/
theorem splitLast?_of_body {ps : List (List Char)} (hn : IsName n)
    (h : p.body = ps ++ [n.toList]) : p.splitLast? = some (ps, n.toList) := by
  have last := hn.isIdle
  simp [splitLast?, h, last]

theorem fileChars?_of_body {ps : List (List Char)} (hn : IsName n)
    (h : p.body = ps ++ [n.toList]) : p.fileChars? = some n.toList := by
  have up : n.toList ≠ ['.', '.'] := fun e => hn.not_up (String.toList_injective e)
  rw [fileChars?, splitLast?_of_body hn h]
  simp only [up, if_false]

theorem pieceComponent?_isSome (piece : List Char) :
    (pieceComponent? piece).isSome = !isIdle piece := by
  unfold pieceComponent?
  split
  · next idle => simp [idle]
  · next telling => split <;> simp [telling]

/-- Idle pieces say nothing. -/
theorem filterMap_of_idle (h : ∀ piece ∈ ps, isIdle piece = true) :
    ps.filterMap pieceComponent? = [] := by
  refine List.filterMap_eq_nil_iff.2 fun piece hp => ?_
  simpa [h piece hp] using pieceComponent?_isSome piece

/-- **The last piece that tells something says the last component.** -/
theorem components_of_splitLast? (h : p.splitLast? = some (before, last)) :
    ∃ c, pieceComponent? last = some c ∧
      p.components = leadComponents p.lead ++ before.filterMap pieceComponent? ++ [c] := by
  obtain ⟨telling, idle, body, hidle⟩ := body_of_splitLast? h
  obtain ⟨c, hc⟩ := Option.isSome_iff_exists.1
    ((pieceComponent?_isSome last).trans (by rw [telling]; rfl))
  refine ⟨c, hc, ?_⟩
  rw [components, body, List.filterMap_append, List.filterMap_cons_some hc,
    filterMap_of_idle hidle, List.append_assoc]

/-- What says a name last has it as its file name. -/
theorem fileChars?_of_components {cs : List Component} (h : p.components = cs ++ [.name n]) :
    p.fileChars? = some n.toList := by
  rw [fileChars?]
  split
  · next before last split =>
    obtain ⟨c, said, whole⟩ := components_of_splitLast? split
    obtain rfl : c = .name n :=
      List.singleton_injective (List.append_inj' (whole.symm.trans h) rfl).2
    rw [pieceComponent?, (body_of_splitLast? split).1, if_neg Bool.false_ne_true] at said
    split at said
    · simp at said
    · next up => rw [if_neg up, ← Component.name.inj (Option.some.inj said), String.toList_ofList]
  · next none =>
    rw [components, filterMap_of_idle (body_of_splitLast?_none none), List.append_nil] at h
    have last : Component.name n ∈ leadComponents p.lead := h ▸ List.mem_append_right _ (by simp)
    cases lead : p.lead <;> simp [lead, leadComponents] at last

/-- Whether a path ends with another is told by what they say. -/
theorem endsWith_iff {q : Path} : p.endsWith q = true ↔ q.components <:+ p.components := by
  rw [endsWith, List.isPrefixOf_iff_prefix, List.reverse_prefix]

/-- Behind no root a path is as it is. -/
theorem empty_join (p : Path) : join ⟨""⟩ p = p := by simp [join, isEmpty]

/-- A normal path in which something is written has a last name. -/
theorem IsNormal.exists_concat (normal : p.IsNormal) (written : p.isEmpty = false) :
    ∃ ns n, p = ofNames (ns ++ [n]) ∧ (∀ a ∈ ns, IsName a) ∧ IsName n := by
  obtain ⟨names, rfl, isName⟩ := normal.exists_names
  rcases List.eq_nil_or_concat names with rfl | ⟨ns, n, rfl⟩
  · exact absurd written (by decide)
  · rw [List.concat_eq_append] at isName ⊢
    exact ⟨ns, n, rfl, fun a ha => isName a (List.mem_append_left _ ha), isName n (by simp)⟩

theorem isEmpty_ofNames (h : ∀ m ∈ ns, IsName m) (hns : ns ≠ []) :
    (ofNames ns).isEmpty = false := by
  refine Bool.eq_false_iff.2 fun empty => ?_
  have none : ofNames ns = ofNames [] := by
    simp only [isEmpty, String.isEmpty_iff] at empty
    exact congrArg Path.mk empty
  have same := names?_ofNames h
  rw [none, names?_ofNames (by simp)] at same
  exact hns (Option.some.inj same).symm

/-- Names are joined one list after the other. -/
theorem ofNames_join_ofNames {ms : List String} (h : ∀ m ∈ ns, IsName m)
    (hms : ∀ m ∈ ms, IsName m) (hne : ms ≠ []) :
    (ofNames ns).join (ofNames ms) = ofNames (ns ++ ms) := by
  by_cases hns : ns = []
  · rw [hns, List.nil_append]
    exact empty_join _
  have glued : (ofNames (ns ++ ms)).chars = (ofNames ns).chars ++ '/' :: (ofNames ms).chars := by
    rw [ofNames, ofNames, ofNames, chars_ofChars, chars_ofChars, chars_ofChars, List.map_append]
    exact Text.glue_append_glue (by simpa using hne) (by simpa using hns)
  have text : (ofNames (ns ++ ms)).text = (ofNames ns).text ++ "/" ++ (ofNames ms).text := by
    apply String.toList_injective
    simpa [chars] using glued
  have slash : (ofNames ns).chars.getLast? ≠ some '/' := by
    intro last
    have ends := endsWithSlash_join_ofNames ⟨""⟩ h hns
    rw [empty_join] at ends
    simp only [Tree.endsWithSlash, decide_eq_false_iff_not] at ends
    exact ends last
  rw [join, isAbsolute_ofNames hms, isEmpty_ofNames h hns, Bool.or_self,
    if_neg Bool.false_ne_true, if_neg slash]
  exact congrArg Path.mk text.symm

section

variable (h : ∀ m ∈ ns, IsName m) (hn : IsName n)

include h hn

theorem isName_concat : ∀ m ∈ ns ++ [n], IsName m := by
  simpa [or_imp, forall_and] using ⟨h, hn⟩

theorem isName_pair {a : String} (ha : IsName a) : ∀ m ∈ ns ++ [n, a], IsName m := by
  have := isName_concat (isName_concat h hn) ha
  rwa [List.append_assoc] at this

theorem parent?_ofNames : (ofNames (ns ++ [n])).parent? = some (ofNames ns) := by
  have cut := cut_ofNames (isName_concat h hn) (by simp)
  have body : (ofNames (ns ++ [n])).body = ns.map String.toList ++ [n.toList] := by
    rw [body, cut]
    simp
  have lead : (ofNames (ns ++ [n])).lead = .bare := by rw [lead, cut]
  rw [parent?, splitLast?_of_body hn body, lead]
  exact congrArg (fun ps => some (build .bare ps)) (dropIdleEnd_names h)

theorem parent_ofNames : (ofNames (ns ++ [n])).parent = ofNames ns := by
  rw [parent, parent?_ofNames h hn, Option.getD_some]

theorem ofNames_join : (ofNames ns).join ⟨n⟩ = ofNames (ns ++ [n]) := by
  rw [← ofNames_single]
  exact ofNames_join_ofNames h (by simpa using hn) (List.cons_ne_nil n [])

/-- The file name behind a root. -/
theorem fileChars?_join_ofNames (root : Path) :
    (root.join (ofNames (ns ++ [n]))).fileChars? = some n.toList := by
  have isName := isName_concat h hn
  obtain ⟨ps, hps, -⟩ := cutEach_join root (isAbsolute_ofNames isName)
  rw [cutEach_ofNames isName (by simp), List.map_append, ← List.append_assoc] at hps
  generalize ps ++ ns.map String.toList = qs at hps
  have body : ∃ ps, (root.join (ofNames (ns ++ [n]))).body = ps ++ [n.toList] := by
    unfold body cut
    rw [hps]
    split
    · next q rest e =>
      cases qs with
      | nil => simp at e
      | cons _ qs => exact ⟨qs, (List.cons.inj e).2.symm⟩
    · next rest e =>
      cases qs with
      | nil =>
        have := (List.cons.inj e).1
        exact absurd (String.toList_injective this) hn.not_dot
      | cons _ qs => exact ⟨qs, (List.cons.inj e).2.symm⟩
    · exact ⟨qs, rfl⟩
  obtain ⟨ps, hbody⟩ := body
  exact fileChars?_of_body hn hbody

theorem fileChars?_ofNames : (ofNames (ns ++ [n])).fileChars? = some n.toList := by
  have behind := fileChars?_join_ofNames h hn ⟨""⟩
  rwa [empty_join] at behind

end

theorem fileName?_ofNames (h : ∀ m ∈ ns, IsName m) : (ofNames ns).fileName? = ns.getLast? := by
  rcases List.eq_nil_or_concat ns with rfl | ⟨ms, m, rfl⟩
  · rfl
  rw [List.concat_eq_append] at h ⊢
  have before : ∀ n ∈ ms, IsName n := fun n hn => h n (List.mem_append_left _ hn)
  rw [fileName?, fileChars?_ofNames before (h m (by simp))]
  simp

end Path
end Attic
