import Attic.Proofs.Reference.Named
import Mathlib

/-!
# Paths with an unknown start

Where a path starts with a variable or an alias, only the names after its last turn, a
`..` or a leading dot, are looked for, from the end of the archived paths. Whatever the
start stands for, the path leads from there to names that end with these, so no script
that it can mean is missed.

Key definition: `Reference.IsTail`.
Key theorems: `Reference.mem_endingIn`, `Reference.IsTail.concreteNames`,
`Reference.endsIn_of_tail`, `Reference.mem_resolve_of_unknown_lead`.
-/

namespace Attic
namespace Reference

variable {paths : List Path} {p q r tail : Path} {names ns : List String}

theorem mem_endingIn (written : tail.isEmpty = false) :
    p ∈ (Index.ofPaths paths).endingIn tail ↔
      p ∈ (Index.ofPaths paths).paths ∧ Index.endsIn tail p = true := by
  rw [Index.endingIn, written, if_neg Bool.false_ne_true, List.mem_filter]

/-! ### The names after the last turn -/

/-- Whether the names are those of a path after its last turn. -/
def IsTail (names : List String) (r : Path) : Prop :=
  ∃ before, r.components = before ++ names.map .name ∧
    ∀ c ∈ before.getLast?, c = .up ∨ c = .here

/-- A name goes on with what was read. -/
theorem concreteNames_append (cs : List Path.Component) (names : List String) :
    concreteNames (cs ++ names.map .name) = concreteNames cs ++ names := by
  have one (cs : List Path.Component) (n : String) :
      concreteNames (cs ++ [.name n]) = concreteNames cs ++ [n] := by
    rw [concreteNames, List.foldl_append, ← concreteNames]
    rfl
  induction names using List.reverseRecOn with
  | nil => simp
  | append_singleton ns n ih =>
    rw [List.map_append, List.map_singleton, ← List.append_assoc, one, ih, List.append_assoc]

namespace IsTail

/-- The last turn drops what was read before. -/
theorem concreteNames (h : IsTail names r) : concreteNames r.components = names := by
  obtain ⟨before, parts, turn⟩ := h
  have dropped : Reference.concreteNames before = [] := by
    rcases List.eq_nil_or_concat before with rfl | ⟨cs, c, rfl⟩
    · rfl
    · rw [List.concat_eq_append] at turn ⊢
      rw [Reference.concreteNames, List.foldl_append]
      rcases turn c (by simp) with rfl | rfl <;> rfl
  rw [parts, concreteNames_append, dropped, List.nil_append]

theorem isName (h : IsTail names r) : ∀ n ∈ names, Path.IsName n := by
  obtain ⟨before, parts, -⟩ := h
  intro n hn
  refine Path.isName_of_component (p := r) ?_
  rw [parts]
  exact List.mem_append_right _ (List.mem_map_of_mem hn)

theorem concreteTail (h : IsTail names r) : concreteTail r = Path.ofNames names := by
  rw [Reference.concreteTail, h.concreteNames]

/-- Wherever the path is joined to, the names are the last ones. -/
theorem suffix (h : IsTail names r) (leads : (p.join r).names? = some ns) : names <:+ ns := by
  obtain ⟨before, parts, -⟩ := h
  exact Path.suffix_of_names?_join parts leads

/-- The last of the names says whether the path has an extension. -/
theorem extension? (h : IsTail names r) (some : names ≠ []) :
    r.extension? = (Path.ofNames names).extension? := by
  have isName := h.isName
  obtain ⟨before, parts, -⟩ := h
  obtain ⟨ms, m, rfl⟩ : ∃ ms m, names = ms ++ [m] :=
    ⟨_, _, (List.dropLast_append_getLast some).symm⟩
  rw [List.map_append, ← List.append_assoc] at parts
  rw [Path.extension?_of_components parts, Path.extension?_ofNames
    (fun a ha => isName a (List.mem_append_left _ ha)) (isName m (by simp))]

end IsTail

/-! ### Matching from the end -/

/-- A path that ends with some names is met from its end, also without its extension and
with another one of the family. -/
theorem endsIn_of_tail (isName : ∀ n ∈ names, Path.IsName n) (hns : ∀ n ∈ ns, Path.IsName n)
    (ends : names <:+ ns) (some : names ≠ [])
    (named : p.same (Path.ofNames ns) = true ∨
      ((Path.ofNames names).extension? = none ∧
        (p.withExtension "").same (Path.ofNames ns) = true) ∨
      (inFamily (Path.ofNames ns) = true ∧ inFamily p = true ∧
        (p.withExtension "").same ((Path.ofNames ns).withExtension "") = true)) :
    Index.endsIn (Path.ofNames names) p = true := by
  have ending {q : Path} (same : q.same (Path.ofNames ns) = true) :
      q.endsWith (Path.ofNames names) = true := by
    rw [Path.endsWith_iff, Path.same_iff.1 same, Path.components_ofNames isName,
      Path.components_ofNames hns]
    exact ends.map _
  rw [Index.endsIn, Bool.or_eq_true, Bool.or_eq_true]
  rcases named with same | ⟨plain, same⟩ | ⟨family, family', same⟩
  · exact .inl (.inl (ending same))
  · exact .inl (.inr (by rw [plain, ending same]; rfl))
  · obtain ⟨ms, m, rfl⟩ : ∃ ms m, names = ms ++ [m] :=
      ⟨_, _, (List.dropLast_append_getLast some).symm⟩
    obtain ⟨dir, rfl⟩ := ends
    rw [← List.append_assoc] at hns family same
    have before : ∀ a ∈ dir ++ ms, Path.IsName a := fun a ha => hns a (List.mem_append_left _ ha)
    have hms : ∀ a ∈ ms, Path.IsName a := fun a ha => before a (List.mem_append_right _ ha)
    have hm : Path.IsName m := hns m (by simp)
    -- both names end with the last one, which has the extension
    have family : inFamily (Path.ofNames (ms ++ [m])) = true := by
      rw [inFamily_ofNames before hm] at family
      rwa [inFamily_ofNames hms hm]
    have ending : (p.withExtension "").endsWith
        ((Path.ofNames (ms ++ [m])).withExtension "") = true := by
      rw [Path.endsWith_iff, Path.same_iff.1 same, Path.components_withExtension hms hm,
        Path.components_withExtension before hm, List.map_append, List.append_assoc]
      exact List.suffix_append _ _
    exact .inr (by rw [family, family', ending]; rfl)

/-- What an unknown start leaves of a path is looked for from the end. -/
theorem ofPath_of_unknown_lead (i : Index) (kind : Kind) (base root : Path) {c : Char}
    {segment rest : List Char} (unknown : c ∈ ['$', '~', '@', '#']) (slash : '/' ∉ segment)
    (cleaned : clean (c :: segment ++ '/' :: rest) = c :: segment ++ '/' :: rest) :
    i.ofPath kind base root (c :: segment ++ '/' :: rest) =
      if isSpecific (concreteTail (Path.ofChars rest)) then
        i.endingIn (concreteTail (Path.ofChars rest))
      else [] := by
  have lead : ∀ c ∈ ['$', '~', '@', '#'], hasUnknownLead (c :: segment ++ '/' :: rest) = true ∧
      c ≠ '/' := by simp [hasUnknownLead]
  obtain ⟨lead, other⟩ := lead c unknown
  have behind : (c :: segment ++ '/' :: rest).dropWhile (· ≠ '/') = '/' :: rest := by
    rw [List.dropWhile_append_of_pos, List.dropWhile_cons_of_neg (by simp)]
    intro d hd
    rw [decide_eq_true_eq]
    rintro rfl
    exact (List.mem_cons.1 hd).elim (fun e => other e.symm) slash
  rw [Index.ofPath]
  simp only [cleaned, lead, if_true, behind]
  rw [if_neg (by simp)]

/-- **Whatever an unknown start stands for, what the path then means is found.** -/
theorem mem_resolve_of_unknown_lead (kind : Kind) (f root : Path) {dir : Path} {c : Char}
    {segment rest : List Char} (unknown : c ∈ ['$', '~', '@', '#'])
    (inside : ∀ d ∈ segment, d ≠ '/' ∧ d ≠ '?' ∧ d ≠ '#')
    (unmarked : ∀ d ∈ rest, d ≠ '?' ∧ d ≠ '#')
    (last : ∀ d ∈ rest.getLast?, d ≠ '/' ∧ Text.isBlank d = false)
    (tail : IsTail names (Path.ofChars rest))
    (specific : 2 ≤ names.length ∨ (Path.ofNames names).extension? ≠ none)
    (archived : p ∈ (Index.ofPaths paths).paths)
    (leads : (dir.join (Path.ofChars rest)).normalize? = some q)
    (meant : p.same q = true ∨
      ((Path.ofChars rest).extension? = none ∧ (p.withExtension "").same q = true) ∨
      (inFamily q = true ∧ inFamily p = true ∧
        (p.withExtension "").same (q.withExtension "") = true)) :
    p ∈ (Index.ofPaths paths).resolve (.path (String.ofList (c :: segment ++ '/' :: rest))) kind f
      root := by
  have some : names ≠ [] := by
    rintro rfl
    rcases specific with two | ext
    · exact absurd two (by decide)
    · exact ext (by decide)
  have written : rest ≠ [] := by
    rintro rfl
    obtain ⟨before, parts, -⟩ := tail
    exact some (List.map_eq_nil_iff.1 (List.append_eq_nil_iff.1 parts.symm).2)
  have cleaned : clean (c :: segment ++ '/' :: rest) = c :: segment ++ '/' :: rest := by
    have first : ∀ c ∈ ['$', '~', '@', '#'], Text.isBlank c = false := by
      simp [Text.isBlank]
    rw [List.cons_append]
    refine clean_of_ends (first c unknown) ?_ ?_
    · intro d hd
      rcases List.mem_append.1 hd with hd | hd
      · simpa [isMark] using (inside d hd).2
      rcases List.mem_cons.1 hd with rfl | hd
      · decide
      · simpa [isMark] using unmarked d hd
    · intro d hd
      refine last d ?_
      rwa [← List.cons_append, List.getLast?_append_cons, ← List.singleton_append,
        List.getLast?_append_of_ne_nil _ written] at hd
  have isName := tail.isName
  have isEmpty := Path.isEmpty_ofNames isName some
  have specific : isSpecific (Path.ofNames names) = true := by
    rw [isSpecific, Path.components_ofNames isName, List.length_map, Bool.or_eq_true,
      decide_eq_true_eq, Option.isSome_iff_ne_none]
    exact specific
  obtain ⟨ns, hns, rfl⟩ := Option.map_eq_some_iff.1 leads
  rw [tail.extension? some] at meant
  have found := endsIn_of_tail isName (Path.isName_of_names? hns) (tail.suffix hns) some meant
  rw [mem_resolve_path,
    ofPath_of_unknown_lead _ _ _ _ unknown (fun slash => (inside _ slash).1 rfl) cleaned,
    tail.concreteTail, if_pos specific, mem_endingIn isEmpty]
  exact ⟨archived, found⟩

/-- `$DIR/../lib/util.js` finds `lib/util.ts`, since `DIR` can be a folder beside `lib`. -/
theorem mem_resolve_of_unknown_lead_sibling :
    (⟨"lib/util.ts"⟩ : Path) ∈ (Index.ofPaths [⟨"lib/util.ts"⟩]).resolve
      (.path (String.ofList ('$' :: "DIR".toList ++ '/' :: "../lib/util.js".toList))) .staticImport
      ⟨"docs/main.ts"⟩ ⟨"/repo"⟩ := by
  have last : ∀ d ∈ "../lib/util.js".toList.getLast?, d ≠ '/' ∧ Text.isBlank d = false := by
    intro d hd
    rw [← Option.some.inj (show some 's' = some d from hd)]
    decide
  have tail : IsTail ["lib", "util.js"] (Path.ofChars "../lib/util.js".toList) :=
    ⟨[.up], by decide, by simp⟩
  have leads : ((⟨"scripts"⟩ : Path).join (Path.ofChars "../lib/util.js".toList)).normalize? =
      some ⟨"lib/util.js"⟩ := by decide
  exact mem_resolve_of_unknown_lead _ _ _ (by decide) (by simp) (by simp) last tail (by decide)
    (mem_ofPaths.2 (by decide)) leads (by decide)

end Reference
end Attic
