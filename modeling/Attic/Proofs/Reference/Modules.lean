import Attic.Proofs.Reference.Named
import Mathlib

/-!
# Imports without an extension

An import can leave out the extension of a script, and the index script of a folder
can be imported by the folder. Whether something is left out is told from the last
name alone: one with a dot in it counts as complete. So a script is found without its
extension if and only if nothing of its stem looks like an extension, and the index
script of a folder if and only if the folder has a name and nothing of that does. The
root of the repository has no name.

Key theorems: `Reference.names_beside`, `Reference.names_below`,
`Reference.exists_names_iff`, `Reference.resolve_without_extension_iff`,
`Reference.resolve_folder_iff`.
-/

namespace Attic
namespace Reference

variable {paths : List Path} {p f root : Path} {kind : Kind} {raw piece : List Char}
variable {ns ms dir : List String} {n m e : String}

/-! ### Names of one folder, and of one above -/

/-- What a path names in its own folder. -/
theorem names_beside (hns : ∀ a ∈ ns, Path.IsName a) (hm : Path.IsName m) (hn : Path.IsName n) :
    Names (Path.ofNames (ns ++ [m])) (Path.ofNames (ns ++ [n])) ↔
      n = m ∨ ((Path.splitDot m.toList).2 = none ∧ Path.stemComponent n = .name m) ∨
      ((∃ e ∈ scriptFamily, (Path.splitDot m.toList).2 = some e.toList) ∧
        (∃ e ∈ scriptFamily, (Path.splitDot n.toList).2 = some e.toList) ∧
        Path.stemComponent n = Path.stemComponent m) := by
  have apart : ns ≠ ns ++ [m] := by simp
  simp only [names_ofNames hns hm hns hn, true_and, apart, false_and, or_false]

/-- Of the scripts further down a path names the index scripts of its folder. -/
theorem names_below (hms : ∀ a ∈ ms, Path.IsName a) (hm : Path.IsName m)
    (hns : ∀ a ∈ ns, Path.IsName a) (hn : Path.IsName n) (below : ms.length < ns.length) :
    Names (Path.ofNames (ms ++ [m])) (Path.ofNames (ns ++ [n])) ↔
      (Path.splitDot m.toList).2 = none ∧ ns = ms ++ [m] ∧
        Path.stemComponent n = .name "index" := by
  have apart : ns ≠ ms := fun same => by
    rw [same] at below
    exact lt_irrefl _ below
  simp only [names_ofNames hms hm hns hn, apart, false_and, and_false, false_or, or_false]

/-- An extension of the family takes three characters of a name, with its dot. -/
theorem length_stem_of_family (family : e ∈ scriptFamily)
    (ext : (Path.splitDot m.toList).2 = some e.toList) :
    (Path.splitDot m.toList).1.length + 3 ≤ m.toList.length := by
  have long : ∀ e ∈ scriptFamily, 2 ≤ e.toList.length := by decide
  have two := long e family
  rcases Path.splitDot_cases m.toList with plain | ⟨stem, after, text, -, -, split⟩
  · rw [plain] at ext
    exact absurd ext (by simp)
  · rw [split] at ext
    obtain rfl := Option.some.inj ext
    have whole := congrArg List.length text
    rw [List.length_append, List.length_cons] at whole
    rw [split]
    show stem.length + 3 ≤ m.toList.length
    omega

/-- A script is named beside by its stem alone, where that is a name of no extension. -/
theorem names_stem_iff {ext : List Char} (hns : ∀ a ∈ ns, Path.IsName a) (hm : Path.IsName m)
    (hn : Path.IsName n) (split : Path.splitDot n.toList = (piece, some ext))
    (part : m.toList.length ≤ piece.length) :
    Names (Path.ofNames (ns ++ [m])) (Path.ofNames (ns ++ [n])) ↔
      m.toList = piece ∧ '.' ∉ piece.tail := by
  have shorter : piece.length < n.toList.length := by
    have cut : (Path.splitDot n.toList).2 ≠ none := by simp [split]
    have stem := Path.length_stem cut
    rwa [split] at stem
  have stem : Path.stemComponent n = .name m ↔ m.toList = piece := by
    constructor
    · intro h
      rw [← Path.stemComponent_eq_name h, split]
    · intro h
      exact Path.stemComponent_of_name hm (by rw [split, h])
  rw [names_beside hns hm hn, stem, Path.splitDot_eq_none_iff]
  constructor
  · rintro (rfl | ⟨plain, rfl⟩ | ⟨⟨e, family, ext'⟩, -, same⟩)
    · omega
    · exact ⟨rfl, plain⟩
    · -- what is left of the shorter name is too short for the stem
      have less := length_stem_of_family family ext'
      simp only [Path.stemComponent, split] at same
      split_ifs at same with dots up
      · have two : piece.length ≤ 2 := by
          rcases dots with rfl | rfl <;> decide
        omega
      · have stems := String.ofList_injective (Path.Component.name.inj same)
        rw [← stems] at less
        omega
  · rintro ⟨rfl, plain⟩
    exact .inr (.inl ⟨plain, rfl⟩)

/-- A piece that is no name stays in the folder or leads up, and from there only index
scripts are named. -/
theorem not_names_above (hns : ∀ a ∈ ns, Path.IsName a) (hn : Path.IsName n)
    (index : Path.stemComponent n ≠ .name "index") (slash : '/' ∉ piece)
    (other : ¬ Path.IsName (String.ofList piece)) (hms : ms ≠ [])
    (way : Path.climb ns.reverse ((Path.told [piece]).map Path.stepComponent) =
      some ms.reverse) :
    ¬ Names (Path.ofNames ms) (Path.ofNames (ns ++ [n])) := by
  have above := Path.climb_suffix slash other way
  obtain ⟨ms, m, rfl⟩ : ∃ ks k, ms = ks ++ [k] :=
    ⟨_, _, (List.dropLast_append_getLast hms).symm⟩
  have reached : ∀ a ∈ ms ++ [m], Path.IsName a := fun a ha =>
    hns a (List.mem_reverse.1 (above.subset (List.mem_reverse.2 ha)))
  have high := above.length_le
  simp only [List.length_reverse, List.length_append, List.length_singleton] at high
  rw [names_below (fun a ha => reached a (List.mem_append_left _ ha)) (reached m (by simp)) hns hn
    (by omega)]
  exact fun names => index names.2.2

/-- From a folder a piece that is a name leads to that name in it. -/
theorem exists_climb_piece (name : Path.IsName (String.ofList piece)) :
    (∃ ms, ms ≠ [] ∧ Path.climb ns.reverse ((Path.told [piece]).map Path.stepComponent) =
        some ms.reverse ∧ Names (Path.ofNames ms) p) ↔
      Names (Path.ofNames (ns ++ [String.ofList piece])) p := by
  rw [Path.climb_piece name]
  constructor
  · rintro ⟨ms, -, way, names⟩
    have turned := congrArg List.reverse (Option.some.inj way)
    rw [List.reverse_cons, List.reverse_reverse, List.reverse_reverse] at turned
    rwa [turned]
  · exact fun names => ⟨_, by simp, by simp, names⟩

/-- In the folder of a script its stem, without blanks at its end, names the script if and
only if there were none and the stem is a name of no extension. -/
theorem exists_names_iff {ext : List Char} (hns : ∀ a ∈ ns, Path.IsName a) (hn : Path.IsName n)
    (split : Path.splitDot n.toList = (piece, some ext)) :
    (∃ ms, ms ≠ [] ∧ Path.climb ns.reverse
        ((Path.told [Text.trimEnd piece]).map Path.stepComponent) = some ms.reverse ∧
        Names (Path.ofNames ms) (Path.ofNames (ns ++ [n]))) ↔
      '.' ∉ piece.tail ∧ piece ≠ ['.'] ∧ ∀ c ∈ piece.getLast?, Text.isBlank c = false := by
  have written : piece ≠ [] := by
    have := hn.stem_ne_nil
    rwa [split] at this
  have slash : '/' ∉ piece := by
    have := hn.stem_no_slash
    rwa [split] at this
  have part := Text.trimEnd_prefix piece
  by_cases name : Path.IsName (String.ofList (Text.trimEnd piece))
  · rw [exists_climb_piece name, names_stem_iff hns name hn split
      (by rw [String.toList_ofList]; exact part.length_le), String.toList_ofList]
    constructor
    · rintro ⟨whole, plain⟩
      rw [whole] at name
      exact ⟨plain, (Path.isName_ofList_iff.1 name).2.2.1, whole ▸ Text.not_isBlank_trimEnd piece⟩
    · rintro ⟨plain, -, last⟩
      exact ⟨Text.trimEnd_eq_self last, plain⟩
  · refine iff_of_false ?_ ?_
    · rintro ⟨ms, hms, way, names⟩
      refine not_names_above hns hn (fun index => name ?_) (fun h => slash (part.subset h)) name hms
        way names
      have stem := Path.stemComponent_eq_name index
      rw [split] at stem
      rw [show piece = "index".toList from stem]
      decide
    · rintro ⟨plain, dot, last⟩
      rw [Text.trimEnd_eq_self last] at name
      refine name (Path.isName_ofList_iff.2 ⟨written, slash, dot, fun up => plain ?_⟩)
      rw [up]
      decide

/-! ### What imports find -/

/-- A path that is written from its place has a last piece behind its dots. -/
theorem exists_last_piece (explicit : isExplicit raw = true) :
    ∃ before piece, raw = '.' :: before ++ '/' :: piece ∧ '/' ∉ piece := by
  obtain ⟨cs, rfl⟩ := StartsHere.exists_cons (.inr (.inr explicit))
  have slash : '/' ∈ '.' :: cs := by
    rw [isExplicit, Bool.or_eq_true, List.isPrefixOf_iff_prefix,
      List.isPrefixOf_iff_prefix] at explicit
    rcases explicit with lead | lead
    · exact lead.subset (by simp)
    · exact lead.subset (by simp)
  have later : '/' ∈ cs := (List.mem_cons.1 slash).resolve_left (by decide)
  obtain ⟨after, before, turned, hafter⟩ := List.eq_append_cons_of_mem (List.mem_reverse.2 later)
  refine ⟨before.reverse, after.reverse, ?_, by simpa using hafter⟩
  rw [List.cons_append, ← List.reverse_reverse cs, turned]
  simp

/-- A piece with an extension of the family is a name. -/
theorem isName_of_family (slash : '/' ∉ piece) (family : e ∈ scriptFamily) :
    Path.IsName (String.ofList (piece ++ '.' :: e.toList)) := by
  have known : ∀ e ∈ scriptFamily, '/' ∉ e.toList ∧ 2 ≤ e.toList.length := by decide
  obtain ⟨noSlash, two⟩ := known e family
  have long : 3 ≤ (piece ++ '.' :: e.toList).length := by
    rw [List.length_append, List.length_cons]
    omega
  refine Path.isName_ofList_iff.2 ⟨by simp, by simp [slash, noSlash], fun dot => ?_, fun up => ?_⟩
  · rw [dot] at long
    exact absurd long (by decide)
  · rw [up] at long
    exact absurd long (by decide)

/-- Without blanks at its end and slashes before them, a text leads where it leads. -/
theorem names?_join_clean (base : Path) (here : StartsHere raw) (query : '?' ∉ raw)
    (fragment : '#' ∉ raw) :
    (base.join (Path.ofChars (clean raw))).names? =
      (base.join (Path.ofChars (Text.trimEnd raw))).names? := by
  obtain ⟨k, whole⟩ := exists_clean here query fragment
  have cleaned := startsHere_clean here
  refine Path.names?_join_congr cleaned.isAbsolute ?_ ?_
  · obtain ⟨cs, start⟩ := cleaned.exists_cons
    rw [whole, start]
    exact Path.isAbsolute_dot _
  · rw [Path.steps_ofChars, Path.steps_ofChars, whole, Path.steps_slashes]

/-- **A script is found without its extension if and only if the rest of its name has no
extension itself**, is more than a dot and does not end with a blank. -/
theorem resolve_without_extension_iff (archived : p ∈ (Index.ofPaths paths).paths)
    (ext : p.extension? = some e) (family : e ∈ scriptFamily) (imports : kind.isShell = false)
    (explicit : isExplicit raw = true) (query : '?' ∉ raw) (fragment : '#' ∉ raw)
    (leads : (f.parent.join (Path.ofChars (raw ++ '.' :: e.toList))).normalize? = some p) :
    p ∈ (Index.ofPaths paths).resolve (.path (String.ofList raw)) kind f root ↔
      ∃ stem, p.stem? = some stem ∧ '.' ∉ stem.toList.tail ∧ stem ≠ "." ∧
        ∀ c ∈ stem.toList.getLast?, Text.isBlank c = false := by
  have here : StartsHere raw := .inr (.inr explicit)
  have cleaned := names?_join_clean f.parent here query fragment
  obtain ⟨before, piece, rfl, slash⟩ := exists_last_piece explicit
  rw [Text.trimEnd_append_cons (by decide)] at cleaned
  have trimmed : '/' ∉ Text.trimEnd piece := fun h => slash ((Text.trimEnd_prefix piece).subset h)
  -- the last name of the script is the last piece with the extension
  have name := isName_of_family slash family
  have file : '.' :: before ++ '/' :: piece ++ '.' :: e.toList =
      '.' :: before ++ '/' :: (piece ++ '.' :: e.toList) := by simp
  obtain ⟨names, hnames, rfl⟩ := Option.map_eq_some_iff.1 leads
  have isName := Path.isName_of_names? hnames
  rw [file, Path.names?_join_name (by decide) name] at hnames
  obtain ⟨rooted, st, way, rfl⟩ := hnames
  have hst : ∀ a ∈ st.reverse, Path.IsName a := fun a ha => isName a (List.mem_append_left _ ha)
  have split := Path.splitDot_of_extension? hst name ext
  have plain : '.' ∉ piece.tail ∧ piece ≠ ['.'] ∧
      (∀ c ∈ piece.getLast?, Text.isBlank c = false) ↔
      ∃ stem, some (String.ofList piece) = some stem ∧ '.' ∉ stem.toList.tail ∧ stem ≠ "." ∧
        ∀ c ∈ stem.toList.getLast?, Text.isBlank c = false := by
    have dot : String.ofList piece = "." ↔ piece = ['.'] := String.ofList_inj
    simp [dot]
  have climbed (ns : List String) :
      (f.parent.join (Path.ofChars ('.' :: before ++ '/' :: Text.trimEnd piece))).names? =
          some ns ↔
        Path.climb st.reverse.reverse ((Path.told [Text.trimEnd piece]).map Path.stepComponent) =
          some ns.reverse := by
    rw [Path.names?_join_piece (by decide) trimmed, and_iff_right rooted, way]
    simp
  rw [mem_resolve_iff_names imports (startsHere_clean here), cleaned,
    Path.stem?_ofNames hst name, split, ← plain, ← exists_names_iff hst name split,
    and_iff_right archived]
  simp only [climbed]

/-- `./user.service` does not find the script beside it that has this stem. -/
theorem resolve_without_extension_iff_service :
    (⟨"src/user.service.ts"⟩ : Path) ∉ (Index.ofPaths [⟨"src/user.service.ts"⟩]).resolve
      (.path (String.ofList "./user.service".toList)) .staticImport ⟨"src/main.ts"⟩ ⟨"/repo"⟩ := by
  rw [resolve_without_extension_iff (e := "ts") (mem_ofPaths.2 (by decide)) (by decide)
    (by decide) rfl (by decide) (by decide) (by decide) (by decide)]
  rintro ⟨stem, named, plain, -⟩
  rw [show (⟨"src/user.service.ts"⟩ : Path).stem? = some "user.service" by decide] at named
  rw [← Option.some.inj named] at plain
  exact plain (by decide)

/-- **The index script of a folder is found by the folder if and only if the folder is not
the root and its name has no extension.** -/
theorem resolve_folder_iff (family : e ∈ scriptFamily) (isName : ∀ a ∈ dir, Path.IsName a)
    (archived : Path.ofNames (dir ++ ["index." ++ e]) ∈ (Index.ofPaths paths).paths)
    (imports : kind.isShell = false) (here : StartsHere raw) (query : '?' ∉ raw)
    (fragment : '#' ∉ raw) (last : ∀ c ∈ raw.getLast?, Text.isBlank c = false)
    (leads : (f.parent.join (Path.ofChars raw)).normalize? = some (Path.ofNames dir)) :
    Path.ofNames (dir ++ ["index." ++ e]) ∈
        (Index.ofPaths paths).resolve (.path (String.ofList raw)) kind f root ↔
      dir ≠ [] ∧ (Path.ofNames dir).extension? = none := by
  have index : ∀ e ∈ scriptFamily, Path.IsName ("index." ++ e) ∧
      Path.stemComponent ("index." ++ e) = .name "index" := by decide
  obtain ⟨script, stem⟩ := index e family
  have place : (f.parent.join (Path.ofChars raw)).names? = some dir := by
    obtain ⟨ns, hns, same⟩ := Option.map_eq_some_iff.1 leads
    have back := congrArg Path.names? same
    rw [Path.names?_ofNames (Path.isName_of_names? hns), Path.names?_ofNames isName] at back
    rw [hns, back]
  rw [mem_resolve_iff_names imports (startsHere_clean here),
    names?_join_clean _ here query fragment, Text.trimEnd_eq_self last, place,
    and_iff_right archived]
  rcases List.eq_nil_or_concat dir with rfl | ⟨ms, m, rfl⟩
  · simp
  rw [List.concat_eq_append] at isName ⊢
  have hms : ∀ a ∈ ms, Path.IsName a := fun a ha => isName a (List.mem_append_left _ ha)
  have hm : Path.IsName m := isName m (by simp)
  have named : Names (Path.ofNames (ms ++ [m]))
      (Path.ofNames (ms ++ [m] ++ ["index." ++ e])) ↔ (Path.splitDot m.toList).2 = none := by
    rw [names_below hms hm isName script (by simp), stem]
    simp
  rw [Path.extension?_ofNames hms hm, Option.map_eq_none_iff, ← named]
  constructor
  · rintro ⟨ns, hne, same, names⟩
    obtain rfl := Option.some.inj same
    exact ⟨hne, names⟩
  · rintro ⟨hne, names⟩
    exact ⟨_, hne, rfl, names⟩

/-- `.` does not find the index script of the root, nor `./lib.v2` that of `lib.v2`. -/
theorem resolve_folder_iff_corners :
    Path.ofNames ([] ++ ["index." ++ "ts"]) ∉ (Index.ofPaths [⟨"index.ts"⟩]).resolve
        (.path (String.ofList ['.'])) .staticImport ⟨"main.ts"⟩ ⟨"/repo"⟩ ∧
      Path.ofNames (["lib.v2"] ++ ["index." ++ "ts"]) ∉
        (Index.ofPaths [⟨"lib.v2/index.ts"⟩]).resolve
          (.path (String.ofList "./lib.v2".toList)) .staticImport ⟨"main.ts"⟩ ⟨"/repo"⟩ := by
  constructor
  · rw [resolve_folder_iff (e := "ts") (by decide) (by decide) (mem_ofPaths.2 (by decide)) rfl
      (by decide) (by decide) (by decide) (by simp; decide) (by decide)]
    decide
  · rw [resolve_folder_iff (e := "ts") (by decide) (by decide) (mem_ofPaths.2 (by decide)) rfl
      (by decide) (by decide) (by decide) (by simp; decide) (by decide)]
    decide

end Reference
end Attic
