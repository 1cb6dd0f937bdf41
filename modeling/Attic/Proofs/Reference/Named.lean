import Attic.Proofs.Path.Extension
import Attic.Proofs.Path.Joined
import Attic.Proofs.Reference.Cleaning
import Attic.Proofs.Reference.Merging
import Mathlib

/-!
# What a path names

A normal path names an archived script if it is the script, if it has no extension
and is the script or the index script of a folder without its extension, or if both
have extensions of one family and agree without them. What is resolved from a path
that says itself where it starts is what its normal form names, seen from the folder
of the file.

Key definitions: `Reference.Names`, `Reference.StartsHere`, `Reference.searchNamed`.
Key theorems: `Reference.mem_named`, `Reference.names_ofNames`,
`Reference.clean_eq`, `Reference.mem_candidate_iff`, `Reference.mem_resolve_iff`,
`Reference.resolve_explicit_eq`.
-/

namespace Attic

namespace Reference

variable {paths : List Path} {c p f root : Path} {kind : Kind} {raw : List Char}
variable {ns ms : List String} {n m : String}

/-! ### Names -/

/-- Whether a normal path names a script as modules do. -/
def Names (c p : Path) : Prop :=
  p.same c = true ∨
  (c.extension? = none ∧ ((p.withExtension "").same c = true ∨
    (p.withExtension "").same (c.join ⟨"index"⟩) = true)) ∨
  (inFamily c = true ∧ inFamily p = true ∧
    (p.withExtension "").same (c.withExtension "") = true)

instance (c p : Path) : Decidable (Names c p) :=
  inferInstanceAs (Decidable (_ ∨ (_ ∧ (_ ∨ _)) ∨ (_ ∧ _ ∧ _)))

theorem mem_exactly (normal : c.IsNormal) :
    p ∈ (Index.ofPaths paths).exactly c ↔ p ∈ (Index.ofPaths paths).paths ∧ p.same c = true := by
  have alike {q : Path} (hq : q ∈ (Index.ofPaths paths).paths) (same : q.same c = true) :
      q = c := by
    obtain ⟨-, a, -, normal'⟩ := mem_ofPaths.1 hq
    exact (Path.isNormal_of_normalize? normal').eq_of_same normal same
  unfold Index.exactly
  split
  · next there =>
    obtain ⟨q, hq, same⟩ := List.any_eq_true.1 there
    rw [List.mem_singleton]
    constructor
    · rintro rfl
      exact ⟨alike hq same ▸ hq, Path.same_refl _⟩
    · rintro ⟨hp, same⟩
      exact alike hp same
  · next none =>
    refine iff_of_false (by simp) ?_
    rintro ⟨hp, same⟩
    exact none (List.any_eq_true.2 ⟨p, hp, same⟩)

/-- **What is found of a normal path are the archived scripts that it names.** -/
theorem mem_named (normal : c.IsNormal) (written : c.isEmpty = false) :
    p ∈ (Index.ofPaths paths).named c ↔ p ∈ (Index.ofPaths paths).paths ∧ Names c p := by
  rw [Index.named, written, if_neg Bool.false_ne_true, List.mem_append, mem_exactly normal, Names]
  cases ext : c.extension? with
  | none =>
    have family : inFamily c = false := by rw [inFamily, ext]
    simp only [Option.isNone_none, if_true, List.mem_append, Index.withStem_eq, List.mem_filter,
      family, Bool.false_eq_true, false_and, or_false, true_and, and_or_left]
  | some e =>
    simp only [Option.isNone_some, Bool.false_eq_true, if_false, reduceCtorEq, false_and, false_or]
    split
    · next family =>
      simp only [Index.withStem_eq, List.mem_filter, family, true_and, and_or_left, and_assoc,
        and_comm (a := inFamily p = true)]
    · next family =>
      simp only [List.not_mem_nil, or_false, family, Bool.false_eq_true, false_and]

theorem inFamily_ofNames (h : ∀ a ∈ ns, Path.IsName a) (hn : Path.IsName n) :
    inFamily (Path.ofNames (ns ++ [n])) = true ↔
      ∃ e ∈ scriptFamily, (Path.splitDot n.toList).2 = some e.toList := by
  rw [inFamily, Path.extension?_ofNames h hn]
  cases ext : (Path.splitDot n.toList).2 with
  | none => simp
  | some e =>
    rw [Option.map_some]
    constructor
    · intro family
      exact ⟨String.ofList e, List.contains_iff_mem.1 family, by rw [String.toList_ofList]⟩
    · rintro ⟨e', he', same⟩
      obtain rfl := Option.some.inj same
      rw [String.ofList_toList]
      exact List.contains_iff_mem.2 he'

/-- What a path of names says of the names of another. -/
theorem names_ofNames (hms : ∀ a ∈ ms, Path.IsName a) (hm : Path.IsName m)
    (hns : ∀ a ∈ ns, Path.IsName a) (hn : Path.IsName n) :
    Names (Path.ofNames (ms ++ [m])) (Path.ofNames (ns ++ [n])) ↔
      (ns = ms ∧ n = m) ∨
      ((Path.splitDot m.toList).2 = none ∧ ((ns = ms ∧ Path.stemComponent n = .name m) ∨
        (ns = ms ++ [m] ∧ Path.stemComponent n = .name "index"))) ∨
      ((∃ e ∈ scriptFamily, (Path.splitDot m.toList).2 = some e.toList) ∧
        (∃ e ∈ scriptFamily, (Path.splitDot n.toList).2 = some e.toList) ∧
        ns = ms ∧ Path.stemComponent n = Path.stemComponent m) := by
  have whole {xs : List String} {x : String} (hxs : ∀ a ∈ xs, Path.IsName a)
      (hx : Path.IsName x) : (Path.ofNames (xs ++ [x])).components =
        xs.map .name ++ [.name x] := by
    rw [Path.components_ofNames (Path.isName_concat hxs hx), List.map_append]
    rfl
  have index : (Path.ofNames (ms ++ [m])).join ⟨"index"⟩ =
      Path.ofNames (ms ++ [m] ++ ["index"]) :=
    Path.ofNames_join (Path.isName_concat hms hm) (by decide)
  have hmm := Path.isName_concat hms hm
  simp only [Names, Path.same_iff, index, inFamily_ofNames hms hm, inFamily_ofNames hns hn,
    Path.components_withExtension hns hn, Path.components_withExtension hms hm, whole hms hm,
    whole hns hn, whole hmm (show Path.IsName "index" by decide),
    Path.concat_names_inj, Path.extension?_ofNames hms hm, Option.map_eq_none_iff,
    Path.Component.name.injEq]

/-! ### Paths that say where they start -/

/-- A path that says itself where it starts: `.`, `..` or one that goes on from them. -/
def StartsHere (raw : List Char) : Prop :=
  raw = ['.'] ∨ raw = ['.', '.'] ∨ isExplicit raw = true

instance (raw : List Char) : Decidable (StartsHere raw) :=
  inferInstanceAs (Decidable (_ ∨ _ ∨ _))

theorem StartsHere.exists_cons (h : StartsHere raw) : ∃ cs, raw = '.' :: cs := by
  rcases h with rfl | rfl | h
  · exact ⟨_, rfl⟩
  · exact ⟨_, rfl⟩
  · rw [isExplicit, Bool.or_eq_true, List.isPrefixOf_iff_prefix, List.isPrefixOf_iff_prefix] at h
    rcases h with ⟨cs, rfl⟩ | ⟨cs, rfl⟩
    · exact ⟨_, rfl⟩
    · exact ⟨_, rfl⟩

theorem StartsHere.isAbsolute (h : StartsHere raw) : (Path.ofChars raw).isAbsolute = false := by
  obtain ⟨cs, rfl⟩ := h.exists_cons
  exact Path.isAbsolute_dot cs

/-- What a path that says where it starts begins with says so too. -/
theorem StartsHere.of_prefix {cs : List Char} (h : StartsHere raw) (start : cs <+: raw)
    (hne : cs ≠ []) : StartsHere cs := by
  have short : ∀ w ∈ [['.'], ['.', '.'], ['.', '/'], ['.', '.', '/']], ∀ ds ∈ w.inits,
      ds ≠ [] → StartsHere ds := by decide
  have within {w : List Char} (hw : w ∈ [['.'], ['.', '.'], ['.', '/'], ['.', '.', '/']])
      (inside : cs <+: w) : StartsHere cs :=
    short w hw cs ((List.mem_inits cs w).2 inside) hne
  rcases h with rfl | rfl | explicit
  · exact within (by simp) start
  · exact within (by simp) start
  · rw [isExplicit, Bool.or_eq_true, List.isPrefixOf_iff_prefix,
      List.isPrefixOf_iff_prefix] at explicit
    rcases explicit with lead | lead
    · rcases List.prefix_or_prefix_of_prefix lead start with more | less
      · exact .inr (.inr (by simp [isExplicit, List.isPrefixOf_iff_prefix.2 more]))
      · exact within (by simp) less
    · rcases List.prefix_or_prefix_of_prefix lead start with more | less
      · exact .inr (.inr (by simp [isExplicit, List.isPrefixOf_iff_prefix.2 more]))
      · exact within (by simp) less

/-- A cleaned text is without blanks and then slashes at its end. -/
theorem clean_eq (here : StartsHere raw) (query : '?' ∉ raw) (fragment : '#' ∉ raw) :
    clean raw = ((Text.trimEnd raw).reverse.dropWhile (· = '/')).reverse := by
  have trimmed : Text.trim raw = Text.trimEnd raw := by
    obtain ⟨cs, rfl⟩ := here.exists_cons
    rw [Text.trim, Text.trimStart_of_head (by decide)]
  have kept : (Text.trimEnd raw).takeWhile (fun c => !(decide (c = '?') || decide (c = '#'))) =
      Text.trimEnd raw := by
    rw [List.takeWhile_eq_self_iff]
    intro c hc
    have inside := (Text.trimEnd_prefix raw).subset hc
    have notQuery : c ≠ '?' := fun e => query (e ▸ inside)
    have notFragment : c ≠ '#' := fun e => fragment (e ▸ inside)
    simp [notQuery, notFragment]
  rw [clean, trimmed]
  simp only [kept, ite_self]

/-- Nothing is cleaned off a text that ends with neither a blank nor a slash. -/
theorem clean_eq_self (here : StartsHere raw) (query : '?' ∉ raw)
    (fragment : '#' ∉ raw) (last : ∀ c ∈ raw.getLast?, c ≠ '/' ∧ Text.isBlank c = false) :
    clean raw = raw := by
  obtain ⟨cs, rfl⟩ := here.exists_cons
  rw [List.mem_cons, not_or] at query fragment
  refine clean_of_ends (by decide) (fun c hc => ?_) last
  have notQuery : c ≠ '?' := fun e => query.2 (e ▸ hc)
  have notFragment : c ≠ '#' := fun e => fragment.2 (e ▸ hc)
  simp [isMark, notQuery, notFragment]

/-- A cleaned text lacks slashes at its end only. -/
theorem exists_clean (here : StartsHere raw) (query : '?' ∉ raw) (fragment : '#' ∉ raw) :
    ∃ k, Text.trimEnd raw = clean raw ++ List.replicate k '/' := by
  have whole := List.takeWhile_append_dropWhile (p := (· = '/')) (l := (Text.trimEnd raw).reverse)
  have slashes := List.eq_replicate_of_mem (a := '/')
    (l := (Text.trimEnd raw).reverse.takeWhile (· = '/')) fun c hc => by
      simpa using List.mem_takeWhile_imp hc
  generalize (Text.trimEnd raw).reverse.takeWhile (· = '/') = dropped at whole slashes
  refine ⟨dropped.length, ?_⟩
  have turned := congrArg List.reverse whole
  rw [List.reverse_append, List.reverse_reverse, slashes, List.reverse_replicate] at turned
  rw [clean_eq here query fragment]
  exact turned.symm

/-- What is left of a cleaned text starts as the text does. -/
theorem startsHere_clean (here : StartsHere raw) : StartsHere (clean raw) := by
  obtain ⟨cs, rfl⟩ := here.exists_cons
  have dot : Solid ['.'] :=
    ⟨by simp, by simp [isMark], by simp [Text.isBlank], by simp [Text.isBlank]⟩
  rcases clean_around [] cs with ⟨-, -, ⟨c, hc, -⟩, -⟩ | ⟨w, start, kept⟩
  · simp at hc
  · have cleaned : clean ('.' :: cs) = '.' :: w := kept ['.'] dot
    rw [cleaned]
    exact here.of_prefix (List.prefix_cons_inj '.' |>.2 start) (List.cons_ne_nil _ _)

/-- A relative path is seen from the folder of the file, and from the root if it does not
say where it starts. -/
theorem ofPath_relative (i : Index) (imports : kind.isShell = false) (base root : Path)
    (written : clean raw ≠ []) (known : hasUnknownLead (clean raw) = false)
    (relative : (Path.ofChars (clean raw)).isAbsolute = false) :
    i.ofPath kind base root raw = i.candidate (base.join (Path.ofChars (clean raw))) ++
      if isExplicit (clean raw) then [] else i.candidate (Path.ofChars (clean raw)) := by
  rw [Index.ofPath]
  simp only [written, if_false, known, Bool.false_eq_true, relative, imports, Bool.false_or]
  cases isExplicit (clean raw) <;> rfl

/-- From the root a path that says where it starts names nothing else. -/
theorem ofPath_here (i : Index) (imports : kind.isShell = false) (base root : Path)
    (here : StartsHere (clean raw)) :
    i.ofPath kind base root raw = i.candidate (base.join (Path.ofChars (clean raw))) := by
  obtain ⟨cs, start⟩ := here.exists_cons
  have known : hasUnknownLead (clean raw) = false := by
    rw [start]
    rfl
  have silent : (if isExplicit (clean raw) then [] else
      i.candidate (Path.ofChars (clean raw))) = [] := by
    rcases here with dot | dots | explicit
    · rw [dot]
      rfl
    · rw [dots]
      rfl
    · rw [explicit, if_pos rfl]
  rw [ofPath_relative i imports base root (by simp [start]) known here.isAbsolute, silent,
    List.append_nil]

/-- What a path finds are the archived scripts that its normal form names. -/
theorem mem_candidate_iff {q : Path} : p ∈ (Index.ofPaths paths).candidate q ↔
    p ∈ (Index.ofPaths paths).paths ∧ ∃ c, c.isEmpty = false ∧ q.normalize? = some c ∧
      Names c p := by
  unfold Index.candidate
  split
  · next c normal =>
    rw [normal]
    cases written : c.isEmpty with
    | true => simp [Index.named, written]
    | false =>
      rw [mem_named (Path.isNormal_of_normalize? normal) written]
      simp [written]
  · next normal => simp [normal]

/-- Sorting archived scripts leaves out none, and there are none in an empty index. -/
theorem mem_unlessEmpty {l : List Path} (inside : l ⊆ (Index.ofPaths paths).paths) :
    p ∈ (if (Index.ofPaths paths).isEmpty then [] else Order.sortDistinct Path.before l) ↔
      p ∈ l := by
  split
  · next none =>
    rw [Index.isEmpty, List.isEmpty_iff] at none
    rw [none] at inside
    rw [List.eq_nil_of_subset_nil inside]
  · exact Order.mem_sortDistinct Path.before_byKey fun a ha b hb =>
      (ofPaths_ascends paths).one a (inside ha) b (inside hb)

theorem ofPath_subset (kind : Kind) (base root : Path) (raw : List Char) :
    (Index.ofPaths paths).ofPath kind base root raw ⊆ (Index.ofPaths paths).paths := by
  have found (q : Path) : (Index.ofPaths paths).candidate q ⊆ (Index.ofPaths paths).paths :=
    fun a ha => (mem_candidate_iff.1 ha).1
  have ending (tail : Path) :
      (Index.ofPaths paths).endingIn tail ⊆ (Index.ofPaths paths).paths := by
    unfold Index.endingIn
    split
    · exact List.nil_subset _
    · exact List.filter_subset_self _
  unfold Index.ofPath
  dsimp only
  split_ifs
  · exact List.nil_subset _
  · split
    · exact List.nil_subset _
    · split_ifs
      · exact ending _
      · exact List.nil_subset _
  · exact found _
  · exact List.append_subset.2 ⟨found _, found _⟩
  · exact List.append_subset.2 ⟨found _, List.nil_subset _⟩

theorem mem_resolve_path :
    p ∈ (Index.ofPaths paths).resolve (.path (String.ofList raw)) kind f root ↔
      p ∈ (Index.ofPaths paths).ofPath kind f.parent root raw := by
  rw [Index.resolve]
  simp only [String.toList_ofList]
  exact mem_unlessEmpty (ofPath_subset _ _ _ _)

/-- **What is resolved from a path that says where it starts** are the archived scripts
that its normal form names. -/
theorem mem_resolve_iff (imports : kind.isShell = false) (here : StartsHere (clean raw)) :
    p ∈ (Index.ofPaths paths).resolve (.path (String.ofList raw)) kind f root ↔
      p ∈ (Index.ofPaths paths).paths ∧ ∃ c, c.isEmpty = false ∧
        (f.parent.join (Path.ofChars (clean raw))).normalize? = some c ∧ Names c p := by
  rw [mem_resolve_path, ofPath_here _ imports _ _ here, mem_candidate_iff]

/-- The same with the names of the normal form. -/
theorem mem_resolve_iff_names (imports : kind.isShell = false) (here : StartsHere (clean raw)) :
    p ∈ (Index.ofPaths paths).resolve (.path (String.ofList raw)) kind f root ↔
      p ∈ (Index.ofPaths paths).paths ∧ ∃ ns, ns ≠ [] ∧
        (f.parent.join (Path.ofChars (clean raw))).names? = some ns ∧
        Names (Path.ofNames ns) p := by
  rw [mem_resolve_iff imports here, Path.normalize?]
  refine and_congr_right fun _ => ⟨?_, ?_⟩
  · rintro ⟨c, written, normal, names⟩
    obtain ⟨ns, hns, rfl⟩ := Option.map_eq_some_iff.1 normal
    refine ⟨ns, ?_, hns, names⟩
    rintro rfl
    exact absurd written (by decide)
  · rintro ⟨ns, hne, hns, names⟩
    exact ⟨_, Path.isEmpty_ofNames (Path.isName_of_names? hns) hne, by rw [hns]; rfl, names⟩

/-! ### Groups and a search -/

/-- The archived scripts that a normal path names, searched for one by one. -/
def searchNamed (archived : List Path) (c : Path) : List Path :=
  if c.isEmpty then []
  else Order.sortDistinct Path.before ((normalForms archived).filter fun p => Names c p)

theorem mem_searchNamed {archived : List Path} : p ∈ searchNamed archived c ↔
    c.isEmpty = false ∧ p ∈ normalForms archived ∧ Names c p := by
  unfold searchNamed
  split
  · next empty => simp [empty]
  · next written =>
    rw [Order.mem_sortDistinct Path.before_byKey fun a ha b hb =>
      normalForms_one a (List.mem_of_mem_filter ha) b (List.mem_of_mem_filter hb)]
    simp [written]

theorem searchNamed_ascends (archived : List Path) (c : Path) :
    Order.Ascends Path.key (searchNamed archived c) := by
  unfold searchNamed
  split
  · exact .nil
  · exact Order.ascends_sortDistinct Path.before_byKey _

/-- **The groups of the index find what a search of all scripts finds.** From a path that is
written from its place nothing is resolved if it has no normal form, seen from the folder
of the file, and else what this form names of the archived scripts, one by one. -/
theorem resolve_explicit_eq (paths : List Path) (f root : Path) (imports : kind.isShell = false)
    (explicit : isExplicit raw = true) :
    (Index.ofPaths paths).resolve (.path (String.ofList raw)) kind f root =
      match (f.parent.join (Path.ofChars (clean raw))).normalize? with
      | none => []
      | some c => searchNamed paths c := by
  have here := startsHere_clean (.inr (.inr explicit))
  have archived {p : Path} : p ∈ (Index.ofPaths paths).paths ↔ p ∈ normalForms paths :=
    mem_ofPaths.trans mem_normalForms.symm
  split
  · next none =>
    rw [List.eq_nil_iff_forall_not_mem]
    intro p hp
    obtain ⟨-, c, -, normal, -⟩ := (mem_resolve_iff imports here).1 hp
    exact absurd (none.symm.trans normal) (by simp)
  · next c normal =>
    refine (resolve_ascends _ _ _ _ _).eq_of_mem_iff (searchNamed_ascends paths c) fun p => ?_
    rw [mem_resolve_iff imports here, mem_searchNamed, archived, normal]
    constructor
    · rintro ⟨hp, c, written, same, names⟩
      obtain rfl := Option.some.inj same
      exact ⟨written, hp, names⟩
    · rintro ⟨written, hp, names⟩
      exact ⟨hp, c, written, rfl, names⟩

/-- Scripts whose names have dots in all places, one of them twice. -/
def dottedScripts : List Path :=
  [⟨"src/a.b.ts"⟩, ⟨"src/a.b"⟩, ⟨"src/a.b.sh"⟩, ⟨"src/./a.b.ts"⟩, ⟨"src/a.b."⟩, ⟨"src/.a.b.ts"⟩,
    ⟨"src/a.b.js/index.ts"⟩]

/-- Of these `./a.b.js` finds the one that is written so up to its extension. -/
theorem resolve_explicit_eq_dots :
    (Index.ofPaths dottedScripts).resolve (.path (String.ofList "./a.b.js?raw".toList))
      .staticImport ⟨"src/main.ts"⟩ ⟨"/repo"⟩ = [⟨"src/a.b.ts"⟩] := by
  have normal : ((⟨"src/main.ts"⟩ : Path).parent.join
      (Path.ofChars (clean "./a.b.js?raw".toList))).normalize? = some ⟨"src/a.b.js"⟩ := by decide
  have found : (normalForms dottedScripts).filter (fun p => Names ⟨"src/a.b.js"⟩ p) =
      [⟨"src/a.b.ts"⟩, ⟨"src/a.b.ts"⟩] := by decide +kernel
  rw [resolve_explicit_eq _ _ _ rfl (by decide), normal]
  refine (searchNamed_ascends _ _).eq_of_mem_iff (List.pairwise_singleton _ _) fun p => ?_
  have one_by_one : p ∈ (normalForms dottedScripts).filter (fun p => Names ⟨"src/a.b.js"⟩ p) ↔
      p ∈ normalForms dottedScripts ∧ Names ⟨"src/a.b.js"⟩ p := by
    rw [List.mem_filter, decide_eq_true_eq]
  rw [found] at one_by_one
  rw [mem_searchNamed, ← one_by_one]
  simp [Path.isEmpty]

end Reference
end Attic
