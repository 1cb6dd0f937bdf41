import Attic.Proofs.Path.Below
import Attic.Proofs.Path.Joined
import Attic.Proofs.Tree.Climbing
import Mathlib

/-!
# What joined paths say

A path says where it starts and then its steps, without the dots. So a relative path
that is joined to another adds what it says, but for a dot at its start, and what is
left of a path below another are the components that the other does not say.

Key theorems: `Path.components_eq_steps`, `Path.components_join`,
`Path.components_down`, `Path.components_below?`.
-/

namespace Attic
namespace Path

variable {p q r b : Path} {c : Component} {names : List String} {ps : List (List Char)}

/-! ### Starts and steps -/

/-- What a piece says is said by its step. -/
theorem stepComponent_of_piece {piece : List Char} (h : pieceComponent? piece = some c) :
    c.step?.map stepComponent = some c := by
  unfold pieceComponent? at h
  split at h
  · simp at h
  next telling =>
  split at h
  · obtain rfl := Option.some.inj h
    rfl
  next up =>
  obtain rfl := Option.some.inj h
  have dot : String.ofList piece ≠ "." := by
    rintro e
    obtain rfl : piece = ['.'] := String.ofList_inj.1 e
    exact telling rfl
  have up' : String.ofList piece ≠ ".." := fun e => up (String.ofList_inj.1 e)
  simp [Component.step?, stepComponent, dot, up']

/-- Pieces say their steps, without the dots. -/
theorem filterMap_pieces (ps : List (List Char)) : ps.filterMap pieceComponent? =
    ((told ps).filter (· ≠ ".")).map stepComponent := by
  rw [told_filter, List.map_filterMap]
  refine Eq.trans List.filterMap_some.symm (List.filterMap_congr fun c hc => ?_)
  obtain ⟨piece, -, said⟩ := List.mem_filterMap.1 hc
  exact (stepComponent_of_piece said).symm

/-- A relative path in which something is written starts with a piece. -/
theorem exists_cutEach_cons (relative : p.isAbsolute = false) (written : p.isEmpty = false) :
    ∃ x qs, Text.cutEach '/' p.chars = x :: qs ∧ x ≠ [] := by
  obtain ⟨x, qs, pieces⟩ := List.exists_cons_of_ne_nil (Text.cutEach_ne_nil '/' p.chars)
  refine ⟨x, qs, pieces, ?_⟩
  rintro rfl
  cases qs with
  | nil => exact absurd (eq_nil_of_cutEach pieces) (chars_ne_nil written)
  | cons q qs =>
    have absolute : p.isAbsolute = true := isAbsolute_of_lead (by rw [lead, cut, pieces])
    exact absurd absolute (by simp [relative])

/-- How a path starts is told by its first character and its first step. -/
theorem lead_eq_steps (p : Path) : p.lead =
    if p.isAbsolute then .root
    else if (Tree.steps p.text).head? = some "." then .here else .bare := by
  split
  · next absolute => exact lead_of_isAbsolute absolute
  next relative =>
  cases written : p.isEmpty with
  | true =>
    rw [eq_of_isEmpty written]
    rfl
  | false =>
    obtain ⟨x, qs, pieces, some⟩ := exists_cutEach_cons (Bool.eq_false_iff.2 relative) written
    rw [steps_told, pieces, told_cons some, List.head?_cons, lead, cut, pieces]
    by_cases dot : x = ['.']
    · rw [dot]
      rfl
    · rw [if_neg fun e => dot (String.ofList_inj.1 (Option.some.inj e))]
      split
      · next e => exact absurd (List.cons.inj e).1 some
      · next e => exact absurd (List.cons.inj e).1 dot
      · rfl

/-- **A path says where it starts and then its steps.** -/
theorem components_eq_steps (p : Path) : p.components = leadComponents p.lead ++
    ((Tree.steps p.text).filter (· ≠ ".")).map stepComponent := by
  have idle : (leadSteps p.lead).filter (· ≠ ".") = [] := by
    cases p.lead <;> rfl
  rw [components, filterMap_pieces, steps_eq, List.filter_append, idle, List.nil_append]

theorem stepComponent_ne_here {s : String} (h : s ≠ ".") : stepComponent s ≠ .here := by
  unfold stepComponent
  rw [if_neg h]
  split <;> simp

/-- A path that says the root of a file system starts there. -/
theorem lead_of_mem_root (h : .root ∈ p.components) : p.lead = .root := by
  rw [components_eq_steps, List.mem_append] at h
  rcases h with start | later
  · cases lead : p.lead <;> simp_all [leadComponents]
  · obtain ⟨s, -, said⟩ := List.mem_map.1 later
    unfold stepComponent at said
    split_ifs at said

/-- Only an absolute path says the root. -/
theorem root_mem_components : .root ∈ p.components ↔ p.isAbsolute = true := by
  constructor
  · intro h
    exact isAbsolute_of_lead (lead_of_mem_root h)
  · intro h
    rw [components, lead_of_isAbsolute h]
    exact List.mem_cons_self

/-- A path that says a dot starts with it. -/
theorem lead_of_mem_here (h : .here ∈ p.components) : p.lead = .here := by
  rw [components_eq_steps, List.mem_append] at h
  rcases h with start | later
  · cases lead : p.lead <;> simp_all [leadComponents]
  · obtain ⟨s, hs, said⟩ := List.mem_map.1 later
    have dot : s ≠ "." := by simpa using (List.mem_filter.1 hs).2
    exact absurd said (stepComponent_ne_here dot)

/-! ### Joined paths -/

theorem lead_join (written : p.isEmpty = false) (hq : q.isAbsolute = false) :
    (p.join q).lead = p.lead := by
  rw [lead_eq_steps, lead_eq_steps, isAbsolute_join_eq hq, steps_join p hq]
  split
  · rfl
  next relative =>
  obtain ⟨x, qs, pieces, some⟩ := exists_cutEach_cons (Bool.eq_false_iff.2 relative) written
  rw [steps_told, pieces, told_cons some, List.cons_append, List.head?_cons, List.head?_cons]

/-- What is said behind the start. -/
theorem filter_components (hq : q.isAbsolute = false) : q.components.filter (· ≠ .here) =
    ((Tree.steps q.text).filter (· ≠ ".")).map stepComponent := by
  have start : (leadComponents q.lead).filter (· ≠ .here) = [] := by
    cases lead : q.lead with
    | root => exact absurd (isAbsolute_of_lead lead) (by simp [hq])
    | here => rfl
    | bare => rfl
  rw [components_eq_steps, List.filter_append, start, List.nil_append, List.filter_eq_self]
  intro c hc
  obtain ⟨s, hs, rfl⟩ := List.mem_map.1 hc
  have dot : s ≠ "." := by simpa using (List.mem_filter.1 hs).2
  simpa using stepComponent_ne_here dot

/-- **A relative path that is joined to another adds what it says**, but for a dot at
its start. -/
theorem components_join (written : p.isEmpty = false) (hq : q.isAbsolute = false) :
    (p.join q).components = p.components ++ q.components.filter (· ≠ .here) := by
  rw [components_eq_steps, lead_join written hq, steps_join p hq, List.filter_append,
    List.map_append, ← List.append_assoc, ← components_eq_steps, filter_components hq]

/-- Names that are joined are said last. -/
theorem components_down : ∀ {names : List String}, (∀ n ∈ names, IsName n) → ∀ p : Path,
    (p.down names).components = p.components ++ names.map .name
  | [], _, p => by simp [down]
  | n :: names, isName, p => by
    have hn : ∀ m ∈ [n], IsName m := by simpa using isName n List.mem_cons_self
    have relative : (⟨n⟩ : Path).isAbsolute = false := by
      rw [← ofNames_single]
      exact isAbsolute_ofNames hn
    have said : (⟨n⟩ : Path).components = [.name n] := by
      rw [← ofNames_single, components_ofNames hn, List.map_singleton]
    have first : (p.join ⟨n⟩).components = p.components ++ [.name n] := by
      cases written : p.isEmpty with
      | false => rw [components_join written relative, said, List.filter_singleton]; rfl
      | true => rw [eq_of_isEmpty written, empty_join, said]; rfl
    rw [down_cons, components_down (fun m hm => isName m (List.mem_cons_of_mem _ hm)), first,
      List.append_assoc, List.map_cons, List.singleton_append]

/-- What stands between a path and one that is joined to it. -/
def gap (p : Path) : String := if p.chars.getLast? = some '/' then "" else "/"

theorem join_eq_gap (written : p.isEmpty = false) (hq : q.isAbsolute = false) :
    p.join q = ⟨p.text ++ p.gap ++ q.text⟩ := by
  rw [join, hq, written, Bool.or_self, if_neg Bool.false_ne_true, gap]
  split
  · rw [String.append_empty]
  · rfl

/-- Two paths are joined to another one after the other or at once. -/
theorem join_join (hq : q.isAbsolute = false) (written : q.isEmpty = false)
    (hr : r.isAbsolute = false) : (p.join q).join r = p.join (q.join r) := by
  cases empty : p.isEmpty with
  | true => rw [eq_of_isEmpty empty, empty_join, empty_join]
  | false =>
    have joined := join_eq_gap empty hq
    have nonempty : q.text.toList ≠ [] := by simpa [isEmpty] using written
    have gap : (p.join q).gap = q.gap := by
      have last : (p.join q).chars.getLast? = q.chars.getLast? := by
        rw [joined]
        simp only [chars, String.toList_append]
        rw [List.getLast?_append_of_ne_nil _ nonempty]
      rw [Path.gap, last, Path.gap]
    have written' : (p.join q).isEmpty = false := by
      have some : (p.join q).text.toList ≠ [] := by simp [joined, nonempty]
      simpa [isEmpty] using some
    have relative : (⟨q.text ++ q.gap ++ r.text⟩ : Path).isAbsolute = false := by
      rw [← join_eq_gap written hr]
      exact isAbsolute_join hq hr
    rw [join_eq_gap written' hr, gap, joined, join_eq_gap written hr, join_eq_gap empty relative]
    simp only [String.append_assoc]

/-- Names are joined one after the other or at once. -/
theorem join_ofNames (isName : ∀ n ∈ names, IsName n) (hne : names ≠ []) (p : Path) :
    p.join (ofNames names) = p.down names := by
  induction names using List.reverseRecOn with
  | nil => exact absurd rfl hne
  | append_singleton names n ih =>
    have hn : ∀ m ∈ [n], IsName m := by simpa using isName n (by simp)
    have isName' : ∀ m ∈ names, IsName m := fun m hm => isName m (by simp [hm])
    have step : p.down (names ++ [n]) = (p.down names).join ⟨n⟩ := by simp [down]
    by_cases first : names = []
    · subst first
      rw [List.nil_append, ofNames_single]
      rfl
    · rw [step, ← ih isName' first, ← ofNames_single, join_join (isAbsolute_ofNames isName')
        (isEmpty_ofNames isName' first) (isAbsolute_ofNames hn),
        ofNames_join_ofNames isName' hn (List.cons_ne_nil _ _)]

/-! ### What is left -/

theorem filterMap_dropWhile_idle : ∀ ps : List (List Char),
    (ps.dropWhile isIdle).filterMap pieceComponent? = ps.filterMap pieceComponent?
  | [] => rfl
  | piece :: ps => by
    cases idle : isIdle piece with
    | true =>
      have none : pieceComponent? piece = none := by
        simpa [idle] using pieceComponent?_isSome piece
      rw [List.dropWhile_cons_of_pos idle, List.filterMap_cons_none none,
        filterMap_dropWhile_idle ps]
    | false => rw [List.dropWhile_cons_of_neg (by simp [idle])]

theorem filterMap_dropIdleEnd (ps : List (List Char)) :
    (dropIdleEnd ps).filterMap pieceComponent? = ps.filterMap pieceComponent? := by
  rw [dropIdleEnd, List.filterMap_reverse, filterMap_dropWhile_idle, List.filterMap_reverse,
    List.reverse_reverse]

theorem filterMap_dropTelling : ∀ (n : Nat) (ps : List (List Char)),
    (dropTelling n ps).filterMap pieceComponent? = (ps.filterMap pieceComponent?).drop n
  | 0, ps => by rw [dropTelling, List.drop_zero]
  | n + 1, [] => rfl
  | n + 1, piece :: ps => by
    have tells := pieceComponent?_isSome piece
    rw [dropTelling]
    cases idle : isIdle piece with
    | true =>
      have none : pieceComponent? piece = none := by simpa [idle] using tells
      rw [if_pos rfl, List.filterMap_cons_none none, filterMap_dropTelling (n + 1) ps]
    | false =>
      obtain ⟨c, hc⟩ := Option.isSome_iff_exists.1 (tells.trans (by rw [idle]; rfl))
      rw [if_neg Bool.false_ne_true, List.filterMap_cons_some hc, List.drop_succ_cons,
        filterMap_dropTelling n ps]

/-- A path that is built says its start and its pieces. -/
theorem components_build {l : Lead} (slashes : ∀ piece ∈ ps, '/' ∉ piece)
    (begun : l = .bare → ∀ piece, ps.head? = some piece → isIdle piece = false) :
    (build l ps).components = leadComponents l ++ ps.filterMap pieceComponent? := by
  have lead : (build l ps).lead = l := by
    cases l with
    | root => exact lead_of_isAbsolute (by simp [build, isAbsolute, chars_ofChars])
    | here =>
      cases ps with
      | nil => rfl
      | cons piece ps =>
        have pieces : Text.cutEach '/' (['.'] ++ '/' :: Text.glue '/' (piece :: ps)) =
            ['.'] :: Text.cutEach '/' (Text.glue '/' (piece :: ps)) :=
          Text.cutEach_append_cons _ _
        have chars : (build .here (piece :: ps)).chars =
            ['.'] ++ '/' :: Text.glue '/' (piece :: ps) := chars_ofChars _
        rw [Path.lead, cut, chars, pieces]
        rfl
    | bare =>
      cases ps with
      | nil => rfl
      | cons piece ps =>
        have telling := begun rfl piece rfl
        rw [Path.lead, cut, build, chars_ofChars, Text.cutEach_glue (List.cons_ne_nil _ _) slashes]
        split
        · next e => simp [(List.cons.inj e).1, isIdle] at telling
        · next e => simp [(List.cons.inj e).1, isIdle] at telling
        · rfl
  have idle : (leadSteps l).filter (· ≠ ".") = [] := by
    cases l <;> rfl
  rw [components_eq_steps, lead, steps_build l slashes, List.filter_append, idle,
    List.nil_append, filterMap_pieces]

theorem dropTelling_suffix : ∀ (n : Nat) (ps : List (List Char)), dropTelling n ps <:+ ps
  | 0, ps => by rw [dropTelling]
  | n + 1, [] => List.nil_suffix
  | n + 1, piece :: ps => by
    rw [dropTelling]
    split
    · exact (dropTelling_suffix (n + 1) ps).trans (List.suffix_cons _ _)
    · exact (dropTelling_suffix n ps).trans (List.suffix_cons _ _)

theorem dropIdleEnd_isPrefix (ps : List (List Char)) : dropIdleEnd ps <+: ps := by
  obtain ⟨idle, split, -⟩ := dropIdleEnd_append ps
  exact ⟨idle, split.symm⟩

theorem head?_dropIdleEnd {piece : List Char} (first : (dropIdleEnd ps).head? = some piece) :
    ps.head? = some piece := by
  obtain ⟨idle, split⟩ := dropIdleEnd_isPrefix ps
  rw [← split, List.head?_append, first, Option.some_or]

/-- The first piece of a path that starts with a piece tells something. -/
theorem isIdle_head_body {piece : List Char} (written : p.isEmpty = false) (bare : p.lead = .bare)
    (first : p.body.head? = some piece) : isIdle piece = false := by
  have relative : p.isAbsolute = false := Bool.eq_false_iff.2 fun absolute => by
    simp [lead_of_isAbsolute absolute] at bare
  obtain ⟨x, qs, pieces, some⟩ := exists_cutEach_cons relative written
  have dot : x ≠ ['.'] := by
    rintro rfl
    rw [lead, cut, pieces] at bare
    simp at bare
  have body : p.body = x :: qs := by
    rw [Path.body, cut, pieces]
    split
    · next e => exact absurd (List.cons.inj e).1 some
    · next e => exact absurd (List.cons.inj e).1 dot
    · rfl
  rw [body] at first
  obtain rfl := Option.some.inj first
  simp [isIdle, some, dot]

/-- A path without the idle pieces at its end says the same. -/
theorem components_build_dropIdleEnd (p : Path) :
    (build p.lead (dropIdleEnd p.body)).components = p.components := by
  cases written : p.isEmpty with
  | true =>
    rw [eq_of_isEmpty written]
    rfl
  | false =>
    rw [components_build, filterMap_dropIdleEnd, components]
    · exact fun piece hp => not_mem_of_mem_body ((dropIdleEnd_isPrefix p.body).subset hp)
    · exact fun bare piece first => isIdle_head_body written bare (head?_dropIdleEnd first)

/-- **What is left of a path below another are the components that the other does not
say.** -/
theorem components_below? (h : p.below? q = some b) :
    p.components = q.components ++ b.components := by
  unfold below? at h
  split at h
  case isFalse => simp at h
  case isTrue starts =>
  split at h
  · next empty =>
    obtain rfl := Option.some.inj h
    have none : q.components = [] := by simpa using empty
    rw [none, List.nil_append, components_build_dropIdleEnd]
  next some =>
  obtain rfl := Option.some.inj h
  obtain ⟨rest, said⟩ := List.isPrefixOf_iff_prefix.1 starts
  have start : (leadComponents p.lead).length ≤ q.components.length := by
    have some' : q.components ≠ [] := by simpa using some
    have := List.length_pos_iff.2 some'
    cases p.lead <;> simp only [leadComponents, List.length_singleton, List.length_nil] <;> omega
  rw [components_build]
  · have body : p.components = leadComponents p.lead ++ p.body.filterMap pieceComponent? := rfl
    have left := congrArg (List.drop q.components.length) said
    rw [List.drop_left, body, List.drop_append, List.drop_eq_nil_of_le start,
      List.nil_append] at left
    rw [leadComponents, List.nil_append, filterMap_dropIdleEnd, filterMap_dropWhile_idle,
      filterMap_dropTelling, ← left, said]
  · intro piece hp
    have within := (dropIdleEnd_isPrefix _).subset hp
    exact not_mem_of_mem_body
      ((dropTelling_suffix _ _).subset ((List.dropWhile_suffix isIdle).subset within))
  · intro _ piece first
    have telling := List.head?_dropWhile_not isIdle
      (dropTelling (q.components.length - (leadComponents p.lead).length) p.body)
    rw [head?_dropIdleEnd first] at telling
    simpa using telling

end Path
end Attic
