import Attic.Tree.Lookup
import Mathlib.Data.List.TakeWhile

/-!
# The steps of joined and parent paths

The steps that lead to a place are the pieces of the path that are not empty.
Joining puts the steps of the second path after those of the first. The steps
of a parent path are those of the path without its last piece that says
something; what is left out before and after that piece are single dots.

Key definition: `Path.told`.
Key theorems: `Path.steps_eq`, `Path.steps_join`, `Path.steps_parent`,
`Path.parent_prefix`.
-/

namespace Attic
namespace Text

theorem not_mem_of_mem_cutEach {sep : Char} : ∀ (cs : List Char) {p : List Char},
    p ∈ cutEach sep cs → sep ∉ p
  | [], p, h => by
    rw [cutEach_nil, List.mem_singleton] at h
    simp [h]
  | c :: cs, p, h => by
    rw [cutEach_cons] at h
    have ih {p : List Char} : p ∈ cutEach sep cs → sep ∉ p := not_mem_of_mem_cutEach cs
    cases hq : cutEach sep cs with
    | nil => exact absurd hq (cutEach_ne_nil sep cs)
    | cons q qs =>
      rw [hq] at h ih
      by_cases hc : c = sep
      · simp only [cutStep, hc, if_true, List.mem_cons] at h ih
        rcases h with rfl | h | h
        · simp
        · exact ih (.inl h)
        · exact ih (.inr h)
      · simp only [cutStep, hc, if_false, List.mem_cons] at h ih
        rcases h with rfl | h
        · simp only [List.mem_cons, not_or]
          exact ⟨Ne.symm hc, ih (.inl rfl)⟩
        · exact ih (.inr h)

/-- Pieces without the separator are cut apart where they were put together. -/
theorem cutEach_glue {sep : Char} : ∀ {ps : List (List Char)}, ps ≠ [] → (∀ p ∈ ps, sep ∉ p) →
    cutEach sep (glue sep ps) = ps
  | [], h, _ => absurd rfl h
  | [p], _, h => cutEach_of_not_mem (h p (by simp))
  | p :: q :: ps, _, h => by
    rw [glue, cutEach_append _ (h p (by simp)),
      cutEach_glue (List.cons_ne_nil q ps) fun p hp => h p (List.mem_cons_of_mem _ hp)]

/-- Cutting at every separator goes on after any one of them. -/
theorem cutEach_append_cons {sep : Char} (ds : List Char) : ∀ cs : List Char,
    cutEach sep (cs ++ sep :: ds) = cutEach sep cs ++ cutEach sep ds
  | [] => by
    have := cutEach_append ds (List.not_mem_nil (a := sep))
    simpa [cutEach_nil] using this
  | c :: cs => by
    rw [List.cons_append, cutEach_cons, cutEach_cons, cutEach_append_cons ds cs]
    cases hp : cutEach sep cs with
    | nil => exact absurd hp (cutEach_ne_nil sep cs)
    | cons p ps => by_cases hc : c = sep <;> simp [cutStep, hc]

end Text

namespace Path

/-- The pieces that are not empty, as names. -/
def told (ps : List (List Char)) : List String := (ps.filter (· ≠ [])).map String.ofList

@[simp] theorem told_nil : told [] = [] := rfl

@[simp] theorem told_append (ps qs : List (List Char)) : told (ps ++ qs) = told ps ++ told qs := by
  simp [told]

theorem told_cons_nil (ps : List (List Char)) : told ([] :: ps) = told ps := by
  simp [told]

theorem told_cons {p : List Char} (h : p ≠ []) (ps : List (List Char)) :
    told (p :: ps) = String.ofList p :: told ps := by
  simp [told, h]

/-- A dot for every idle piece that is not empty. -/
theorem told_idle {ps : List (List Char)} (h : ∀ p ∈ ps, isIdle p = true) :
    ∀ s ∈ told ps, s = "." := by
  intro s hs
  simp only [told, List.mem_map, List.mem_filter, decide_eq_true_eq] at hs
  obtain ⟨p, ⟨hp, hne⟩, rfl⟩ := hs
  have := h p hp
  simp only [isIdle, Bool.or_eq_true, beq_iff_eq, hne, false_or] at this
  rw [this]

/-- The dot that a path starts with. -/
def leadSteps : Lead → List String
  | .here => ["."]
  | _ => []

theorem steps_told (p : Path) : Tree.steps p.text = told (Text.cutEach '/' p.chars) := rfl

theorem steps_eq (p : Path) : Tree.steps p.text = leadSteps p.lead ++ told p.body := by
  rw [steps_told]
  unfold lead body cut
  split
  · next q ps h => rw [h, told_cons_nil]; rfl
  · next ps h => rw [h, told_cons (by simp)]; rfl
  · rfl

theorem steps_glue {ps : List (List Char)} (h : ∀ p ∈ ps, '/' ∉ p) :
    told (Text.cutEach '/' (Text.glue '/' ps)) = told ps := by
  cases ps with
  | nil => rfl
  | cons p ps => rw [Text.cutEach_glue (List.cons_ne_nil p ps) h]

theorem chars_ofChars (cs : List Char) : (ofChars cs).chars = cs := by
  simp [ofChars, chars]

theorem ofChars_chars (p : Path) : ofChars p.chars = p := by
  simp [ofChars, chars]

theorem steps_build (l : Lead) {ps : List (List Char)} (h : ∀ p ∈ ps, '/' ∉ p) :
    Tree.steps (build l ps).text = leadSteps l ++ told ps := by
  have slash (cs : List Char) : Text.cutEach '/' ('/' :: cs) = [] :: Text.cutEach '/' cs :=
    Text.cutEach_append_cons cs []
  rw [steps_told]
  cases l with
  | root =>
    rw [build, chars_ofChars, slash, told_cons_nil, steps_glue h]
    rfl
  | bare =>
    rw [build, chars_ofChars, steps_glue h]
    rfl
  | here =>
    cases ps with
    | nil => rfl
    | cons p ps =>
      rw [build, chars_ofChars, ← List.singleton_append, Text.cutEach_append_cons, told_append,
        steps_glue h]
      · rfl
      · simp

theorem mem_cutEach_of_mem_body {p : Path} {piece : List Char} (h : piece ∈ p.body) :
    piece ∈ Text.cutEach '/' p.chars := by
  unfold body cut at h
  split at h
  · next q ps he => rw [he]; exact List.mem_cons_of_mem _ h
  · next ps he => rw [he]; exact List.mem_cons_of_mem _ h
  · exact h

/-- The pieces of a path hold no slash. -/
theorem not_mem_of_mem_body {p : Path} {piece : List Char} (h : piece ∈ p.body) :
    '/' ∉ piece :=
  Text.not_mem_of_mem_cutEach p.chars (mem_cutEach_of_mem_body h)

/-- A path is put together again from its start and its pieces. -/
theorem build_self (p : Path) : build p.lead p.body = p := by
  have glued : ofChars (Text.glue '/' (Text.cutEach '/' p.chars)) = p := by
    rw [Text.glue_cutEach, ofChars_chars]
  refine Eq.trans ?_ glued
  unfold lead body cut
  split
  · next q ps h => rw [h]; rfl
  · next ps h =>
    rw [h]
    cases ps <;> rfl
  · rw [build]

/-! ### Joining -/

/-- The pieces of a joined path end with those of the second path, and those
before them are told as the first path. -/
theorem cutEach_join (p : Path) {q : Path} (h : q.isAbsolute = false) :
    ∃ ps, Text.cutEach '/' (p.join q).chars = ps ++ Text.cutEach '/' q.chars ∧
      told ps = Tree.steps p.text := by
  unfold join
  rw [h, Bool.false_or]
  split
  · next empty =>
    have : p.text = "" := by simpa [isEmpty] using empty
    exact ⟨[], rfl, by rw [this]; rfl⟩
  split
  · next slash =>
    obtain ⟨ds, hds⟩ := List.getLast?_eq_some_iff.1 slash
    have joined : (⟨p.text ++ q.text⟩ : Path).chars = ds ++ '/' :: q.chars := by
      have : p.text.toList = ds ++ ['/'] := hds
      simp [chars, this]
    refine ⟨Text.cutEach '/' ds, by rw [joined, Text.cutEach_append_cons], ?_⟩
    rw [steps_told, hds, Text.cutEach_append_cons, told_append, Text.cutEach_nil, told_cons_nil,
      told_nil, List.append_nil]
  · have joined : (⟨p.text ++ "/" ++ q.text⟩ : Path).chars = p.chars ++ '/' :: q.chars := by
      simp [chars]
    exact ⟨Text.cutEach '/' p.chars, by rw [joined, Text.cutEach_append_cons], rfl⟩

theorem steps_join (p : Path) {q : Path} (h : q.isAbsolute = false) :
    Tree.steps (p.join q).text = Tree.steps p.text ++ Tree.steps q.text := by
  obtain ⟨ps, hps, told⟩ := cutEach_join p h
  rw [steps_told, hps, told_append, told, steps_told q]

/-! ### The parent -/

/-- The pieces of a path before and after its last piece that says something. -/
theorem body_of_splitLast? {p : Path} {before : List (List Char)} {last : List Char}
    (h : p.splitLast? = some (before, last)) :
    isIdle last = false ∧
      ∃ idle, p.body = before ++ last :: idle ∧ ∀ piece ∈ idle, isIdle piece = true := by
  unfold splitLast? at h
  split at h
  · simp at h
  next l bs hd =>
  simp only [Option.some.injEq, Prod.mk.injEq] at h
  obtain ⟨rfl, rfl⟩ := h
  refine ⟨?_, (p.body.reverse.takeWhile isIdle).reverse, ?_, ?_⟩
  · have head := List.head?_dropWhile_not isIdle p.body.reverse
    rw [hd] at head
    simpa using head
  · have := List.takeWhile_append_dropWhile (p := isIdle) (l := p.body.reverse)
    rw [hd] at this
    have := congrArg List.reverse this
    simpa using this.symm
  · intro piece hp
    rw [List.mem_reverse] at hp
    exact List.mem_takeWhile_imp hp

theorem body_of_splitLast?_none {p : Path} (h : p.splitLast? = none) :
    ∀ piece ∈ p.body, isIdle piece = true := by
  unfold splitLast? at h
  split at h
  · next hd =>
    rw [List.dropWhile_eq_nil_iff] at hd
    exact fun piece hp => hd piece (List.mem_reverse.2 hp)
  · simp at h

theorem dropIdleEnd_append (ps : List (List Char)) :
    ∃ idle, ps = dropIdleEnd ps ++ idle ∧ ∀ piece ∈ idle, isIdle piece = true := by
  refine ⟨(ps.reverse.takeWhile isIdle).reverse, ?_, ?_⟩
  · rw [dropIdleEnd, ← List.reverse_append, List.takeWhile_append_dropWhile, List.reverse_reverse]
  · intro piece hp
    rw [List.mem_reverse] at hp
    exact List.mem_takeWhile_imp hp

/-- **The way to a path goes on from the way to its parent by one step**, and by
dots around it. -/
theorem steps_parent {p q : Path} (h : p.parent? = some q) :
    ∃ dots last dots', Tree.steps p.text = Tree.steps q.text ++ dots ++ last :: dots' ∧
      (∀ s ∈ dots, s = ".") ∧ ∀ s ∈ dots', s = "." := by
  unfold parent? at h
  split at h
  · next before last hs =>
    obtain rfl := Option.some.inj h
    obtain ⟨telling, idle, hbody, hidle⟩ := body_of_splitLast? hs
    obtain ⟨idle', hbefore, hidle'⟩ := dropIdleEnd_append before
    have slashes : ∀ piece ∈ dropIdleEnd before, '/' ∉ piece := fun piece hp =>
      not_mem_of_mem_body (p := p) (by rw [hbody, hbefore]; simp [hp])
    have hlast : last ≠ [] := by
      rintro rfl
      exact absurd telling (by decide)
    have hb : told before = told (dropIdleEnd before) ++ told idle' := by
      rw [← told_append, ← hbefore]
    refine ⟨told idle', String.ofList last, told idle, ?_, told_idle hidle', told_idle hidle⟩
    rw [steps_eq p, steps_build p.lead slashes, hbody, told_append, told_cons hlast, hb]
    simp only [List.append_assoc]
  · next hs =>
    split at h
    · next here =>
      obtain rfl := Option.some.inj h
      refine ⟨[], ".", told p.body, ?_, by simp, told_idle (body_of_splitLast?_none hs)⟩
      rw [steps_eq p, here]
      rfl
    · simp at h

theorem glue_prefix (sep : Char) (qs : List (List Char)) :
    ∀ ps : List (List Char), Text.glue sep ps <+: Text.glue sep (ps ++ qs)
  | [] => List.nil_prefix
  | [p] => by
    cases qs with
    | nil => exact List.prefix_rfl
    | cons q qs => exact ⟨sep :: Text.glue sep (q :: qs), rfl⟩
  | p :: q :: ps => by
    obtain ⟨rest, hrest⟩ := glue_prefix sep qs (q :: ps)
    refine ⟨rest, ?_⟩
    rw [List.cons_append] at hrest
    rw [List.cons_append, List.cons_append, Text.glue, Text.glue, ← hrest]
    simp

theorem build_prefix (l : Lead) (ps qs : List (List Char)) :
    (build l ps).chars <+: (build l (ps ++ qs)).chars := by
  obtain ⟨rest, hrest⟩ := glue_prefix '/' qs ps
  cases l with
  | root => exact ⟨rest, by simp [build, chars_ofChars, ← hrest]⟩
  | bare => exact ⟨rest, by simp [build, chars_ofChars, ← hrest]⟩
  | here =>
    cases ps with
    | cons p ps =>
      rw [List.cons_append] at hrest
      exact ⟨rest, by simp [build, chars_ofChars, ← hrest]⟩
    | nil =>
      cases qs with
      | nil => exact List.prefix_rfl
      | cons q qs => exact ⟨'/' :: Text.glue '/' (q :: qs), by simp [build, chars_ofChars]⟩

/-- A parent is written as the path is, up to some place. -/
theorem parent_prefix {p q : Path} (h : p.parent? = some q) : q.chars <+: p.chars := by
  unfold parent? at h
  split at h
  · next before last hs =>
    obtain rfl := Option.some.inj h
    obtain ⟨-, idle, hbody, -⟩ := body_of_splitLast? hs
    obtain ⟨idle', hbefore, -⟩ := dropIdleEnd_append before
    have whole : p = build p.lead (dropIdleEnd before ++ (idle' ++ last :: idle)) := by
      rw [← List.append_assoc, ← hbefore, ← hbody, build_self]
    have short := build_prefix p.lead (dropIdleEnd before) (idle' ++ last :: idle)
    rwa [← whole] at short
  · split at h
    · obtain rfl := Option.some.inj h
      exact List.nil_prefix
    · simp at h

/-- The start of a path is as well written as the path, unless it is empty. -/
theorem pathFault?_of_prefix {p q : Path} (h : q.chars <+: p.chars) (hne : q.isEmpty = false)
    (hp : Tree.pathFault? p.text = none) : Tree.pathFault? q.text = none := by
  obtain ⟨rest, hrest⟩ := h
  have text : p.text = q.text ++ String.ofList rest := by
    apply String.toList_injective
    rw [String.toList_append, String.toList_ofList]
    exact hrest.symm
  have nonempty : q.text.isEmpty = false := hne
  unfold Tree.pathFault? at hp ⊢
  rw [text, String.toList_append, String.utf8ByteSize_append] at hp
  split at hp
  · simp at hp
  · next nul =>
    split at hp
    · simp at hp
    · split at hp
      · simp at hp
      · next long =>
        have nul' : ¬ q.text.toList.contains '\x00' = true := by
          simp only [List.contains_eq_mem, List.mem_append, decide_eq_true_eq, not_or] at nul ⊢
          exact nul.1
        rw [if_neg nul', nonempty, if_neg (by simp), if_neg (by omega)]

end Path
end Attic
