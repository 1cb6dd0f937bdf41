import Attic.Proofs.Reference.Ending
import Mathlib

/-!
# Queries behind specifiers

A question mark and what follows it is cut off a specifier, whatever it is: the first
mark is looked for, and behind it nothing counts. A text that starts with a mark itself,
such as an alias `#lib/x`, is not cut anywhere, so that a query is a part of the path
that it says, and there is one that leads elsewhere.

Key theorems: `Reference.clean_query`, `Reference.clean_of_mark`,
`Reference.ofPath_aliased`, `Reference.query_ignored_iff`.
-/

namespace Attic

namespace Reference

variable {paths : List Path} {s q cs : List Char} {c : Char}

/-! ### What is cut off -/

/-- A query is cut off a text that starts with no mark, wherever its first mark stands. -/
theorem clean_query (first : ∀ c ∈ s.head?, Text.isBlank c = false)
    (last : ∀ c ∈ s.getLast?, Text.isBlank c = false) (some : s ≠ [])
    (plain : ∀ c ∈ s.head?, isMark c = false) (q : List Char) :
    clean (s ++ '?' :: q) = clean s := by
  obtain ⟨c, cs, rfl⟩ := List.exists_cons_of_ne_nil some
  have starts (ds : List Char) : Text.trimStart (c :: cs ++ ds) = c :: cs ++ ds :=
    Text.trimStart_of_head (first c rfl)
  have whole : Text.trim (c :: cs ++ '?' :: q) = c :: cs ++ '?' :: Text.trimEnd q := by
    rw [Text.trim, starts, Text.trimEnd_append_cons (by decide)]
  have alone : Text.trim (c :: cs) = c :: cs := by
    have := starts []
    rw [List.append_nil] at this
    rw [Text.trim, this, Text.trimEnd_eq_self last]
  -- the first mark is one of the text, or else that of the query
  have kept : (c :: cs ++ '?' :: Text.trimEnd q).takeWhile (fun d => !isMark d) =
      (c :: cs).takeWhile fun d => !isMark d := by
    rw [List.takeWhile_append]
    split
    · next all =>
      have mark : ('?' :: Text.trimEnd q).takeWhile (fun d => !isMark d) = [] := rfl
      rw [mark, List.append_nil]
      exact ((List.takeWhile_prefix _).eq_of_length all).symm
    · rfl
  rw [clean_eq_rdropWhile, clean_eq_rdropWhile, whole, alone, kept]
  have head : (c :: cs).takeWhile (fun d => !isMark d) ≠ [] := by
    simp [plain c rfl]
  rw [if_neg head, if_neg head]

/-- Nothing is cut off a text that starts with a mark and ends with neither a blank nor a
slash. -/
theorem clean_of_mark (mark : isMark c = true)
    (last : ∀ d ∈ (c :: cs).getLast?, d ≠ '/' ∧ Text.isBlank d = false) :
    clean (c :: cs) = c :: cs := by
  have first : Text.isBlank c = false := by
    have either : c = '?' ∨ c = '#' := by simpa [isMark] using mark
    rcases either with rfl | rfl <;> rfl
  have trimmed : Text.trim (c :: cs) = c :: cs := by
    rw [Text.trim, Text.trimStart_of_head first]
    exact Text.trimEnd_eq_self fun d hd => (last d hd).2
  have none : (c :: cs).takeWhile (fun d => !isMark d) = [] := by
    simp [mark]
  rw [clean_eq_rdropWhile, trimmed, none, if_pos rfl, List.rdropWhile_eq_self_iff]
  intro hne
  simpa using (last _ (List.getLast?_eq_getLast_of_ne_nil hne)).1

/-- What is resolved from a text is what is left of it that says. -/
theorem resolve_congr_clean {raw raw' : List Char} (i : Index) (same : clean raw = clean raw')
    (kind : Kind) (f root : Path) :
    i.resolve (.path (String.ofList raw)) kind f root =
      i.resolve (.path (String.ofList raw')) kind f root := by
  unfold Index.resolve
  simp only [String.toList_ofList, Index.ofPath, same]

/-! ### A query that leads elsewhere -/

/-- A path that turns up before its last name has this name for its tail. -/
theorem isTail_of_pieces {n : String} {ps : List (List Char)} (name : Path.IsName n)
    (pieces : Text.cutEach '/' cs = ps ++ [['.', '.'], n.toList]) :
    IsTail [n] (Path.ofChars cs) := by
  have cut : ∃ l qs, Path.cut cs = (l, qs ++ [['.', '.'], n.toList]) := by
    unfold Path.cut
    rw [pieces]
    cases ps with
    | nil => exact ⟨.bare, [], rfl⟩
    | cons p ps =>
      by_cases empty : p = []
      · subst empty
        cases ps with
        | nil => exact ⟨.root, [], rfl⟩
        | cons q ps => exact ⟨.root, q :: ps, rfl⟩
      by_cases dot : p = ['.']
      · subst dot
        exact ⟨.here, ps, rfl⟩
      · refine ⟨.bare, p :: ps, ?_⟩
        simp [empty, dot]
  obtain ⟨l, qs, cut⟩ := cut
  refine ⟨Path.leadComponents l ++ qs.filterMap Path.pieceComponent? ++ [.up], ?_, by simp⟩
  have turn : Path.pieceComponent? ['.', '.'] = some .up := rfl
  rw [Path.components, Path.lead, Path.body, Path.chars_ofChars, cut]
  simp [name.pieceComponent?, turn]

/-- A query that leads up once and then to a name. -/
def queryTo (n : String) : List Char := "/../".toList ++ n.toList

/-- Behind an alias the query's path is looked for from its end. -/
theorem ofPath_aliased (i : Index) (kind : Kind) (base root : Path) {n : String}
    (name : Path.IsName n) (last : ∀ c ∈ n.toList.getLast?, Text.isBlank c = false)
    (t : List Char) :
    i.ofPath kind base root ('#' :: t ++ '?' :: queryTo n) =
      if isSpecific (Path.ofNames [n]) then i.endingIn (Path.ofNames [n]) else [] := by
  have ends : ∀ c ∈ ('#' :: t ++ '?' :: queryTo n).getLast?, c ≠ '/' ∧ Text.isBlank c = false := by
    intro c hc
    have behind : ('#' :: t ++ '?' :: queryTo n) = ('#' :: t ++ "?/../".toList) ++ n.toList := by
      simp [queryTo]
    rw [behind, List.getLast?_append_of_ne_nil _ name.nonempty] at hc
    refine ⟨?_, last c hc⟩
    rintro rfl
    exact name.no_slash (List.mem_of_getLast? hc)
  have cleaned : clean ('#' :: (t ++ '?' :: queryTo n)) = '#' :: (t ++ '?' :: queryTo n) :=
    clean_of_mark (by decide) ends
  have pieces (u : List Char) : Text.cutEach '/' (u ++ queryTo n) =
      Text.cutEach '/' u ++ [['.', '.'], n.toList] := by
    have turn : queryTo n = '/' :: (['.', '.'] ++ '/' :: n.toList) := rfl
    rw [turn, Text.cutEach_append_cons, Text.cutEach_append _ (by decide),
      Text.cutEach_of_not_mem name.no_slash]
  by_cases slash : '/' ∈ t
  · obtain ⟨segment, y, rfl, hx⟩ := List.eq_append_cons_of_mem slash
    have parts : '#' :: (segment ++ '/' :: y) ++ '?' :: queryTo n =
        '#' :: segment ++ '/' :: (y ++ ['?'] ++ queryTo n) := by simp
    have tail := isTail_of_pieces name (pieces (y ++ ['?']))
    rw [← List.cons_append, parts] at cleaned
    rw [parts, ofPath_of_unknown_lead i kind base root (by simp) hx cleaned, tail.concreteTail]
  · have parts : '#' :: t ++ '?' :: queryTo n =
        '#' :: (t ++ ['?']) ++ '/' :: ("../".toList ++ n.toList) := by simp [queryTo]
    have tail : IsTail [n] (Path.ofChars ("../".toList ++ n.toList)) := by
      have turn : "../".toList ++ n.toList = ['.', '.'] ++ '/' :: n.toList := rfl
      have pieces : Text.cutEach '/' ("../".toList ++ n.toList) =
          [] ++ [['.', '.'], n.toList] := by
        rw [turn, Text.cutEach_append _ (by decide), Text.cutEach_of_not_mem name.no_slash]
        rfl
      exact isTail_of_pieces name pieces
    rw [← List.cons_append, parts] at cleaned
    rw [parts, ofPath_of_unknown_lead i kind base root (by simp) (by simpa using slash) cleaned,
      tail.concreteTail]

/-- A text that starts with a question mark is seen from the folder of the file and from
the root. -/
theorem ofPath_questioned (i : Index) (kind : Kind) (base root : Path)
    (last : ∀ d ∈ ('?' :: cs).getLast?, d ≠ '/' ∧ Text.isBlank d = false) :
    i.ofPath kind base root ('?' :: cs) =
      i.candidate (base.join (Path.ofChars ('?' :: cs))) ++
        i.candidate (Path.ofChars ('?' :: cs)) := by
  have unknown : hasUnknownLead ('?' :: cs) = false := rfl
  have explicit : isExplicit ('?' :: cs) = false := rfl
  have relative : (Path.ofChars ('?' :: cs)).isAbsolute = false :=
    Path.isAbsolute_cons (by decide) cs
  rw [Index.ofPath, clean_of_mark (by decide) last]
  simp [unknown, explicit, relative]

/-- A path that ends with `b.ts` does not lead to a script `a.ts`. -/
theorem not_mem_candidate_other (d : Path) (before : List Char) {ns : List String}
    (hns : ∀ a ∈ ns, Path.IsName a) (start : c ≠ '/') :
    Path.ofNames (ns ++ ["a.ts"]) ∉ (Index.ofPaths paths).candidate
      (d.join (Path.ofChars (c :: before ++ '/' :: "b.ts".toList))) := by
  intro found
  obtain ⟨-, q, -, normal, names⟩ := mem_candidate_iff.1 found
  obtain ⟨ms, leads, rfl⟩ := Option.map_eq_some_iff.1 normal
  have isName := Path.isName_of_names? leads
  obtain ⟨-, st, -, rfl⟩ := (Path.names?_join_name start (by decide)).1 leads
  rw [String.ofList_toList] at isName names
  have before : ∀ a ∈ st.reverse, Path.IsName a := fun a ha => isName a (List.mem_append_left _ ha)
  have a : Path.IsName "a.ts" := by decide
  have b : Path.IsName "b.ts" := by decide
  rw [names_ofNames before b hns a] at names
  rcases names with ⟨-, same⟩ | ⟨bare, -⟩ | ⟨-, -, -, same⟩
  · exact absurd same (by decide)
  · exact absurd bare (by decide)
  · exact absurd same (by decide)

/-- A question and a query: the path goes on from the start of the text, so that the file can
be chosen for it to lead somewhere. -/
theorem questions_apart (t : List Char) (kind : Kind) (root : Path) : ∃ f p : Path,
    p ∈ (Index.ofPaths [p]).resolve
      (.path (String.ofList ('?' :: t ++ '?' :: queryTo "a.ts"))) kind f root ∧
    p ∉ (Index.ofPaths [p]).resolve
      (.path (String.ofList ('?' :: t ++ '?' :: queryTo "b.ts"))) kind f root := by
  have text (n : String) : '?' :: t ++ '?' :: queryTo n =
      '?' :: (t ++ "?/..".toList ++ '/' :: n.toList) := by simp [queryTo]
  have ends (n : String) (hn : n ∈ ["a.ts", "b.ts"]) :
      ∀ d ∈ ('?' :: (t ++ "?/..".toList ++ '/' :: n.toList)).getLast?,
        d ≠ '/' ∧ Text.isBlank d = false := by
    have last : ∀ n ∈ ["a.ts", "b.ts"], n.toList ≠ [] ∧
        ∀ c ∈ n.toList.getLast?, c ≠ '/' ∧ Text.isBlank c = false := by simp [Text.isBlank]
    intro d hd
    have behind : '?' :: (t ++ "?/..".toList ++ '/' :: n.toList) =
        ('?' :: (t ++ "?/../".toList)) ++ n.toList := by simp
    rw [behind, List.getLast?_append_of_ne_nil _ (last n hn).1] at hd
    exact (last n hn).2 d hd
  obtain ⟨ds, ns, folders, leads⟩ := Path.exists_names?_join (t ++ "?/..".toList)
    (show Path.IsName "a.ts" by decide) (show '?' ≠ '/' by decide)
  have isName := Path.isName_of_names? leads
  have hns : ∀ a ∈ ns, Path.IsName a := fun a ha => isName a (List.mem_append_left _ ha)
  have file : (Path.ofNames (ds ++ ["main.ts"])).parent = Path.ofNames ds :=
    Path.parent_ofNames folders (by decide)
  generalize hp : Path.ofNames (ns ++ ["a.ts"]) = p
  have written : p.isEmpty = false := hp ▸ Path.isEmpty_ofNames isName (by simp)
  have normal : p.normalize? = some p := by
    rw [← hp, Path.normalize?, Path.names?_ofNames isName, Option.map_some]
  refine ⟨Path.ofNames (ds ++ ["main.ts"]), p, ?_, ?_⟩
  · have found : p ∈ (Index.ofPaths [p]).candidate ((Path.ofNames ds).join
        (Path.ofChars ('?' :: (t ++ "?/..".toList) ++ '/' :: "a.ts".toList))) := by
      refine mem_candidate_iff.2 ⟨mem_ofPaths.2 ⟨written, p, List.mem_singleton_self p, normal⟩,
        p, written, ?_, .inl (Path.same_refl p)⟩
      rw [Path.normalize?, leads, Option.map_some, hp]
    rw [mem_resolve_path, text, ofPath_questioned _ _ _ _ (ends _ (by simp)), file]
    exact List.mem_append_left _ found
  · have other (d : Path) : p ∉ (Index.ofPaths [p]).candidate (d.join
        (Path.ofChars ('?' :: (t ++ "?/..".toList) ++ '/' :: "b.ts".toList))) := by
      rw [← hp]
      exact not_mem_candidate_other d _ hns (by decide)
    rw [mem_resolve_path, text, ofPath_questioned _ _ _ _ (ends _ (by simp)), file,
      List.mem_append, not_or]
    refine ⟨other (Path.ofNames ds), fun found => other ⟨""⟩ ?_⟩
    rw [Path.empty_join]
    exact found

/-- An alias and a query: what is looked for is what the query says. -/
theorem aliases_apart (t : List Char) (kind : Kind) (f root : Path) :
    ⟨"a.ts"⟩ ∈ (Index.ofPaths [⟨"a.ts"⟩]).resolve
      (.path (String.ofList ('#' :: t ++ '?' :: queryTo "a.ts"))) kind f root ∧
    ⟨"a.ts"⟩ ∉ (Index.ofPaths [⟨"a.ts"⟩]).resolve
      (.path (String.ofList ('#' :: t ++ '?' :: queryTo "b.ts"))) kind f root := by
  rw [mem_resolve_path, mem_resolve_path,
    ofPath_aliased _ _ _ _ (by decide) (by simp [Text.isBlank]), if_pos (by decide),
    ofPath_aliased _ _ _ _ (by decide) (by simp [Text.isBlank]), if_pos (by decide),
    mem_endingIn (by decide), mem_endingIn (by decide)]
  exact ⟨⟨mem_ofPaths.2 (by decide), by decide⟩, fun found => absurd found.2 (by decide)⟩

/-- A text that starts with a mark leads to a script with one query and not with another. -/
theorem exists_queries_apart (mark : isMark c = true) (t : List Char) (kind : Kind)
    (root : Path) : ∃ f p : Path,
      p ∈ (Index.ofPaths [p]).resolve
        (.path (String.ofList (c :: t ++ '?' :: queryTo "a.ts"))) kind f root ∧
      p ∉ (Index.ofPaths [p]).resolve
        (.path (String.ofList (c :: t ++ '?' :: queryTo "b.ts"))) kind f root := by
  have either : c = '?' ∨ c = '#' := by simpa [isMark] using mark
  rcases either with rfl | rfl
  · exact questions_apart t kind root
  · exact ⟨⟨"main.ts"⟩, ⟨"a.ts"⟩, aliases_apart t kind _ root⟩

/-- **A query is ignored, whatever it is, exactly behind a text that starts with no mark**:
with every query, all archived scripts and any file a text without blanks around it resolves
as by itself if and only if it starts with neither `?` nor `#`. -/
theorem query_ignored_iff (some : s ≠ []) (first : ∀ c ∈ s.head?, Text.isBlank c = false)
    (last : ∀ c ∈ s.getLast?, Text.isBlank c = false) (kind : Kind) (root : Path) :
    (∀ (q : List Char) (paths : List Path) (f : Path),
      (Index.ofPaths paths).resolve (.path (String.ofList (s ++ '?' :: q))) kind f root =
        (Index.ofPaths paths).resolve (.path (String.ofList s)) kind f root) ↔
      ∀ c ∈ s.head?, isMark c = false := by
  constructor
  · intro ignored c hc
    by_contra mark
    obtain ⟨t, rfl⟩ := List.head?_eq_some_iff.1 hc
    obtain ⟨f, p, found, missed⟩ :=
      exists_queries_apart (Bool.eq_true_of_not_eq_false mark) t kind root
    rw [ignored] at found missed
    exact missed found
  · intro plain q paths f
    exact resolve_congr_clean _ (clean_query first last some plain q) kind f root

/-- A query is ignored behind a relative path and not behind an alias: `#lib/b.ts` finds
`lib/b.ts`, and `#lib/b.ts?raw` does not. -/
theorem query_ignored_iff_alias :
    (∀ (q : List Char) (paths : List Path) (f : Path),
      (Index.ofPaths paths).resolve
          (.path (String.ofList ("../scripts/b.ts".toList ++ '?' :: q))) .staticImport f ⟨"/repo"⟩ =
        (Index.ofPaths paths).resolve (.path (String.ofList "../scripts/b.ts".toList))
          .staticImport f ⟨"/repo"⟩) ∧
    ¬ ∀ (q : List Char) (paths : List Path) (f : Path),
      (Index.ofPaths paths).resolve
          (.path (String.ofList ("#lib/b.ts".toList ++ '?' :: q))) .staticImport f ⟨"/repo"⟩ =
        (Index.ofPaths paths).resolve (.path (String.ofList "#lib/b.ts".toList))
          .staticImport f ⟨"/repo"⟩ := by
  constructor
  · rw [query_ignored_iff (by decide) (by simp [Text.isBlank]) (by simp [Text.isBlank])]
    simp [isMark]
  · rw [query_ignored_iff (by decide) (by simp [Text.isBlank]) (by simp [Text.isBlank])]
    simp [isMark]

end Reference
end Attic
