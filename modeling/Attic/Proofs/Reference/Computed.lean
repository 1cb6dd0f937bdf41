import Attic.Proofs.Path.Around
import Attic.Proofs.Reference.Holes
import Attic.Proofs.Tree.Climbing
import Mathlib

/-!
# Computed paths and plain ones

A path with one hole is cleaned, seen from a folder and given its normal form just as the
plain path with a value in the place of the hole, and the two normal forms differ in the
hole alone. Of the scripts that the plain path finds, the computed one finds those that
this normal form is, and those that it is but for their extension if it has none. Another
extension of the family is found only where the hole covers the difference; the index
script of a folder, and what a bare path finds beside the file, are not found.

Key definitions: `Reference.Holed`, `Reference.leadsTo?`, `Reference.Outline`,
`Reference.ComesTo`, `Reference.Means`, `Reference.Swaps`.
Key theorems: `Reference.Holed.fillHoles_clean`, `Reference.Holed.leads_alike`,
`Reference.Holed.mem_ofComputed`, `Reference.Names.length_cases`,
`Reference.Holed.resolve_computed_of_plain`.
-/

namespace Attic
namespace Reference

variable {paths : List Path} {base c f g p root : Path} {kind : Kind} {n v : String}
variable {x : List Char} {xs ns : List String}

/-! ### Texts with one hole -/

/-- A text around one hole, with what is written in the hole. -/
structure Holed where
  before : List Char
  body : List Char
  after : List Char
  /-- No other hole opens. -/
  once : ¬ opening <:+: before ∧ ¬ opening <:+: after
  /-- Nor is there another character that stands for one. -/
  apart : hole ∉ before ∧ hole ∉ after
  /-- The hole ends with its brace, and no query or fragment starts in it. -/
  closed : '\x7d' ∉ body ∧ '?' ∉ body ∧ '#' ∉ body

/-- What stands for a hole is a name. -/
def gap : String := String.ofList [hole]

namespace Holed

/-- The text with something in the place of the hole. -/
def put (t : Holed) (x : List Char) : List Char := t.before ++ x ++ t.after

/-- The text as it is written. -/
def text (t : Holed) : List Char := t.put ('$' :: '\x7b' :: (t.body ++ ['\x7d']))

/-- What is kept of the text around something solid. -/
theorem clean_put (t : Holed) :
    (∃ u, u <+: Text.trimStart t.before ∧ ∀ x, Solid x → clean (t.put x) = u) ∨
      ∃ w, w <+: t.after ∧
        ∀ x, Solid x → clean (t.put x) = Text.trimStart t.before ++ x ++ w := by
  rcases clean_around t.before t.after with ⟨u, start, -, cut⟩ | kept
  · exact .inl ⟨u, start, cut⟩
  · exact .inr kept

/-- A character is solid by itself. -/
theorem solid_char {c : Char} (h : isMark c = false ∧ c ≠ '/' ∧ Text.isBlank c = false) :
    Solid (String.ofList [c]).toList := by
  rw [String.toList_ofList]
  exact ⟨by simp, by simpa using h.1, by simpa using h.2.2, by simpa using h.2⟩

theorem solid_gap : Solid gap.toList := solid_char (by decide)

theorem solid_written (t : Holed) : Solid ('$' :: '\x7b' :: (t.body ++ ['\x7d'])) := by
  have dollar : isMark '$' = false ∧ Text.isBlank '$' = false := by decide
  have brace : isMark '\x7b' = false := by decide
  have ends : isMark '\x7d' = false ∧ '\x7d' ≠ '/' ∧ Text.isBlank '\x7d' = false := by decide
  refine ⟨by simp, fun c hc => ?_, by simpa using dollar.2, fun c hc => ?_⟩
  · simp only [List.mem_cons, List.mem_append, List.not_mem_nil, or_false] at hc
    rcases hc with rfl | rfl | inside | rfl
    · exact dollar.1
    · exact brace
    · have query : c ≠ '?' := fun e => t.closed.2.1 (e ▸ inside)
      have fragment : c ≠ '#' := fun e => t.closed.2.2 (e ▸ inside)
      simp [isMark, query, fragment]
    · exact ends.1
  · rw [← List.cons_append, ← List.cons_append, List.getLast?_concat, Option.mem_some_iff] at hc
    exact hc ▸ ends.2

/-- **The hole of a cleaned text becomes a gap**, as if the gap had been written there. -/
theorem fillHoles_clean (t : Holed) (fuel : ℕ) :
    fillHoles (fuel + 1) (clean t.text) = clean (t.put gap.toList) := by
  have start : Text.trimStart t.before <:+ t.before := List.dropWhile_suffix _
  have closed : ¬ opening <:+: Text.trimStart t.before := fun h => t.once.1 (h.trans start.isInfix)
  rcases t.clean_put with ⟨u, inside, cut⟩ | ⟨w, inside, kept⟩
  · rw [text, cut _ t.solid_written, cut _ solid_gap]
    exact fillHoles_none (fun h => closed (h.trans inside.isInfix)) _
  · have later : ¬ opening <:+: w := fun h => t.once.2 (h.trans inside.isInfix)
    have filled := fillHoles_gap closed t.closed.1 fuel w
    rw [fillHoles_none later] at filled
    rw [text, kept _ t.solid_written, kept _ solid_gap]
    simpa [gap] using filled

end Holed

/-! ### Where a text with a hole leads -/

/-- Whether a path is written from its place is not told from a name in it. -/
theorem isExplicit_around (hn : Path.IsName n) (before after : List Char) :
    isExplicit (before ++ n.toList ++ after) = isExplicit before := by
  have iff (cs : List Char) : isExplicit cs = true ↔
      ∃ dots ∈ [['.'], ['.', '.']], dots ++ ['/'] <+: cs := by
    simp [isExplicit]
  have short : ∀ dots ∈ [['.'], ['.', '.']], ∀ x ∈ dots.sublists, x ≠ [] →
      x = ['.'] ∨ x = ['.', '.'] := by decide
  rw [Bool.eq_iff_iff, iff, iff, List.append_assoc]
  refine exists_congr fun dots => and_congr_right fun hdots => ⟨fun start => ?_, fun start =>
    start.trans (List.prefix_append _ _)⟩
  rcases List.prefix_or_prefix_of_prefix start (List.prefix_append before _) with whole | part
  · exact whole
  rcases List.prefix_concat_iff.1 part with rfl | ⟨more, rfl⟩
  · exact List.prefix_rfl
  -- the name would start with what is left of the dots
  rw [List.append_assoc, List.prefix_append_right_inj] at start
  exfalso
  rcases List.prefix_or_prefix_of_prefix start (List.prefix_append n.toList after) with slash | dot
  · exact hn.no_slash (slash.subset (by simp))
  · rcases List.prefix_concat_iff.1 dot with same | inside
    · exact hn.no_slash (by simp [same])
    · have part := (inside.sublist.trans (List.sublist_append_right before more))
      rcases short _ hdots _ (List.mem_sublists.2 part) hn.nonempty with e | e
      · exact hn.not_dot (String.toList_injective e)
      · exact hn.not_up (String.toList_injective e)

/-- The folder that a computed path is seen from: that of the file, if it is written from
its place, and else the root. -/
def place (base : Path) (cs : List Char) : Path := if isExplicit cs then base else ⟨""⟩

/-- The normal form of a text, seen from there. -/
def leadsTo? (base : Path) (cs : List Char) : Option Path :=
  ((place base cs).join (Path.ofChars cs)).normalize?

/-- A path with a gap in one of its names, next to the path with the gap filled. -/
structure Outline (g c : Path) : Prop where
  filled : Glob.Filled hole g.chars c.chars
  bare : c.extension? = none → g.extension? = none
  length : g.components.length = c.components.length

/-- Whether a path with gaps comes to a script, or to the script without its extension if it
has none itself. -/
def ComesTo (g p : Path) : Prop :=
  Glob.Filled hole g.chars p.chars ∨
    (g.extension? = none ∧ Glob.Filled hole g.chars (p.withExtension "").chars)

instance {t v : List Char} : Decidable (Glob.Filled hole t v) :=
  decidable_of_iff _ (Glob.matchTokens_map_token (by decide))

instance (g p : Path) : Decidable (ComesTo g p) := inferInstanceAs (Decidable (_ ∨ (_ ∧ _)))

namespace Holed

/-- Where a text leads does not depend on what is written in its hole, or that is part of
one of the names there. -/
theorem names?_put (t : Holed) (base : Path) :
    (∃ out, ∀ n, Path.IsName n → Solid n.toList → ((place base (clean (t.put n.toList))).join
        (Path.ofChars (clean (t.put n.toList)))).names? = out) ∨
      ∃ xs u v ys, ∀ n, Path.IsName n → Solid n.toList →
        ((place base (clean (t.put n.toList))).join
          (Path.ofChars (clean (t.put n.toList)))).names? =
          some (xs ++ String.ofList (u ++ n.toList ++ v) :: ys) := by
  rcases t.clean_put with ⟨u, -, cut⟩ | ⟨w, -, kept⟩
  · exact .inl ⟨_, fun n _ solid => by rw [cut _ solid]⟩
  · have seen {n : String} (hn : Path.IsName n) :
        place base (Text.trimStart t.before ++ n.toList ++ w) =
          place base (Text.trimStart t.before) := by
      rw [place, isExplicit_around hn, place]
    have around := Path.names?_around (place base (Text.trimStart t.before))
      (Text.trimStart t.before) w
    rcases around with ⟨out, same⟩ | ⟨xs, u, v, ys, other⟩
    · exact .inl ⟨out, fun n hn solid => by rw [kept _ solid, seen hn, same n hn]⟩
    · exact .inr ⟨xs, u, v, ys, fun n hn solid => by rw [kept _ solid, seen hn, other n hn]⟩

/-- With something else in the place of the hole nothing there stands for one. -/
theorem not_mem_names {m : String} (t : Holed) (nul : hole ∉ base.chars) (free : hole ∉ x)
    (h : ((place base (clean (t.put x))).join (Path.ofChars (clean (t.put x)))).names? = some ns)
    (hm : m ∈ ns) : hole ∉ m.toList := by
  refine Path.not_mem_of_names?_join (by decide) ?_ (fun inside => ?_) h hm
  · unfold place
    split
    · exact nul
    · decide
  · have inside := (clean_within _).subset inside
    simp only [put, List.mem_append] at inside
    rcases inside with (before | letter) | after
    · exact t.apart.1 before
    · exact free letter
    · exact t.apart.2 after

theorem isName_gap : Path.IsName gap := by decide

theorem not_mem_chars (h : ∀ m ∈ ns, hole ∉ m.toList) : hole ∉ (Path.ofNames ns).chars := by
  rw [Path.ofNames, Path.chars_ofChars]
  intro inside
  rcases Text.mem_glue inside with slash | ⟨piece, hp, inside⟩
  · exact absurd slash (by decide)
  · obtain ⟨m, hm, rfl⟩ := List.mem_map.1 hp
    exact h m hm inside

/-- Where a text with a gap leads there is no other gap beside it. -/
theorem gap_once (t : Holed) (nul : hole ∉ base.chars)
    (leads : leadsTo? base (clean (t.put gap.toList)) = some g) : ¬ [hole, hole] <:+: g.chars := by
  -- a letter instead of the gap leads to the same names beside it
  have letter : Path.IsName (String.ofList ['x']) := by decide
  have solid : Solid (String.ofList ['x']).toList := solid_char (by decide)
  have free : hole ∉ (String.ofList ['x']).toList := by decide
  rw [leadsTo?, Path.normalize?] at leads
  obtain ⟨names, hnames, rfl⟩ := Option.map_eq_some_iff.1 leads
  rcases t.names?_put base with ⟨out, same⟩ | ⟨xs, u, v, ys, other⟩
  · rw [same _ isName_gap solid_gap, ← same _ letter solid] at hnames
    have none := not_mem_chars fun m hm => t.not_mem_names nul free hnames hm
    intro adjoin
    exact none (adjoin.subset (by simp))
  · rw [other _ isName_gap solid_gap] at hnames
    obtain rfl := Option.some.inj hnames
    have none := not_mem_chars fun m hm => t.not_mem_names nul free (other _ letter solid) hm
    obtain ⟨a, b, around⟩ :=
      Text.exists_glue_around '/' (ys.map String.toList) (xs.map String.toList)
    rw [Path.ofNames, Path.chars_ofChars, List.map_append, List.map_cons, String.toList_ofList,
      around] at none ⊢
    have text : gap.toList = [hole] := String.toList_ofList
    simp only [List.mem_append, not_or] at none
    rw [text]
    have apart : ¬ [hole, hole] <:+: a ++ u ++ hole :: (v ++ b) :=
      Glob.not_adjoining (by simp [none]) (by simp [none])
    simpa using apart

/-- **A text with a gap leads nowhere or to the outline of where the text with a value in
its place leads.** -/
theorem leads_alike (t : Holed) (base : Path) (value : Path.IsName v) (solid : Solid v.toList) :
    (leadsTo? base (clean (t.put gap.toList)) = none ∧
        leadsTo? base (clean (t.put v.toList)) = none) ∨
      ∃ g c, leadsTo? base (clean (t.put gap.toList)) = some g ∧
        leadsTo? base (clean (t.put v.toList)) = some c ∧ Outline g c := by
  unfold leadsTo? Path.normalize?
  rcases t.names?_put base with ⟨out, same⟩ | ⟨xs, u, w, ys, other⟩
  · rw [same _ isName_gap solid_gap, same _ value solid]
    cases out with
    | none => exact .inl ⟨rfl, rfl⟩
    | some names => exact .inr ⟨_, _, rfl, rfl, .refl _, id, rfl⟩
  · have names := other _ value solid
    have names' := other _ isName_gap solid_gap
    have isName := Path.isName_of_names? names
    have isName' := Path.isName_of_names? names'
    rw [names, names']
    refine .inr ⟨_, _, rfl, rfl, ?_, fun bare => ?_, ?_⟩
    · obtain ⟨a, b, around⟩ :=
        Text.exists_glue_around '/' (ys.map String.toList) (xs.map String.toList)
      rw [Path.ofNames, Path.ofNames, Path.chars_ofChars, Path.chars_ofChars, List.map_append,
        List.map_append, List.map_cons, List.map_cons, String.toList_ofList,
        String.toList_ofList, around, around]
      have filled : Glob.Filled hole (a ++ u ++ hole :: (w ++ b))
          (a ++ u ++ v.toList ++ (w ++ b)) := .around value.no_slash _ _
      have text : gap.toList = [hole] := String.toList_ofList
      rw [text]
      simpa using filled
    · exact Path.extension?_around isName isName' value.nonempty (by decide) bare
    · rw [Path.components_ofNames isName, Path.components_ofNames isName']
      simp

/-! ### What a computed path finds -/

/-- Whether a text with a gap leads to what comes to a script. -/
def Reaches (t : Holed) (base p : Path) : Prop :=
  ∃ g, leadsTo? base (clean (t.put gap.toList)) = some g ∧ ComesTo g p

/-- **A computed path finds what the text with a gap comes to**, and nothing else. -/
theorem mem_ofComputed (t : Holed) (i : Index) (nul : hole ∉ base.chars) :
    p ∈ i.ofComputed base t.text ↔ p ∈ i.paths ∧ t.Reaches base p := by
  obtain ⟨k, hk⟩ : ∃ k, t.text.length = k + 1 := ⟨_, by simp [text, put]; rfl⟩
  have seen (cs : List Char) : (if isExplicit cs then base.join (Path.ofChars cs)
      else Path.ofChars cs).normalize? = leadsTo? base cs := by
    rw [leadsTo?, place]
    split
    · rfl
    · rw [Path.empty_join]
  rw [Index.ofComputed]
  simp only [hk, t.fillHoles_clean, seen]
  cases leads : leadsTo? base (clean (t.put gap.toList)) with
  | none => simp [Reaches, leads]
  | some g =>
    obtain ⟨pattern, read, accepts⟩ := Glob.read_apart (by decide) (t.gap_once nul leads)
    simp only [holePattern, read, List.mem_filter, Bool.or_eq_true, Bool.and_eq_true,
      accepts, Option.isNone_iff_eq_none, Reaches, ComesTo, leads, Option.some.injEq,
      exists_eq_left']

end Holed

/-! ### What a plain path finds -/

/-- Whether a path is a script, or has no extension and is the script without its own. -/
def Means (c p : Path) : Prop :=
  p.same c = true ∨ (c.extension? = none ∧ (p.withExtension "").same c = true)

/-- Whether a path is a script up to their extensions, both of the family. -/
def Swaps (c p : Path) : Prop :=
  inFamily c = true ∧ inFamily p = true ∧
    (p.withExtension "").same (c.withExtension "") = true

instance (c p : Path) : Decidable (Means c p) := inferInstanceAs (Decidable (_ ∨ (_ ∧ _)))

/-- What a path names is as long, unless it is the index script of a folder. -/
theorem Names.length_cases (hc : c.IsNormal) (hc' : c.isEmpty = false) (hp : p.IsNormal)
    (hp' : p.isEmpty = false) (h : Names c p) :
    (p.components.length = c.components.length ∧ (Means c p ∨ Swaps c p)) ∨
      p.components.length = c.components.length + 1 := by
  obtain ⟨ns, n, rfl, hns, hn⟩ := hp.exists_concat hp'
  obtain ⟨ms, m, rfl, hms, hm⟩ := hc.exists_concat hc'
  have shorter := Path.length_withExtension hns hn
  rcases h with same | ⟨bare, same | index⟩ | swap
  · exact .inl ⟨by rw [Path.same_iff.1 same], .inl (.inl same)⟩
  · exact .inl ⟨by rw [← shorter, Path.same_iff.1 same], .inl (.inr ⟨bare, same⟩)⟩
  · right
    have isName := Path.isName_concat hms hm
    rw [← shorter, Path.same_iff.1 index, Path.ofNames_join isName (by decide),
      Path.components_ofNames (Path.isName_concat isName (by decide)),
      Path.components_ofNames isName]
    simp
  · refine .inl ⟨?_, .inr swap⟩
    rw [← shorter, Path.same_iff.1 swap.2.2, Path.length_withExtension hms hm]

/-- What a path finds that starts with no variable is named by what it leads to, seen from
where a computed path is seen from, or by the same with names before it. -/
theorem exists_names_of_mem_resolve {raw : List Char} (imports : kind.isShell = false)
    (known : hasUnknownLead (clean raw) = false)
    (found : p ∈ (Index.ofPaths paths).resolve (.path (String.ofList raw)) kind f root)
    (leads : leadsTo? f.parent (clean raw) = some c) :
    ∃ d, d.IsNormal ∧ d.isEmpty = false ∧ Names d p ∧ c.components <:+ d.components := by
  rw [leadsTo?, Path.normalize?, place] at leads
  obtain ⟨names, hnames, rfl⟩ := Option.map_eq_some_iff.1 leads
  have relative := Path.isAbsolute_of_names?_join hnames
  have written : clean raw ≠ [] := by
    intro empty
    rw [mem_resolve_path, Index.ofPath] at found
    simp [empty] at found
  have named {q : Path} (hq : p ∈ (Index.ofPaths paths).candidate q)
      (ends : ∀ ns, q.names? = some ns → names <:+ ns) :
      ∃ d, d.IsNormal ∧ d.isEmpty = false ∧ Names d p ∧
        (Path.ofNames names).components <:+ d.components := by
    obtain ⟨-, d, some, normal, names⟩ := mem_candidate_iff.1 hq
    obtain ⟨ns, hns, rfl⟩ := Option.map_eq_some_iff.1 normal
    refine ⟨_, Path.isNormal_of_normalize? normal, some, names, ?_⟩
    rw [Path.components_ofNames (Path.isName_of_names? hnames),
      Path.components_ofNames (Path.isName_of_names? hns)]
    exact (ends ns hns).map _
  rw [mem_resolve_path, ofPath_relative _ imports _ _ written known relative,
    List.mem_append] at found
  cases explicit : isExplicit (clean raw) with
  | true =>
    rw [explicit, if_pos rfl] at hnames found
    refine named (found.resolve_right List.not_mem_nil) fun ns hns => ?_
    rw [Option.some.inj (hnames.symm.trans hns)]
  | false =>
    rw [explicit, if_neg Bool.false_ne_true] at hnames found
    rw [Path.empty_join] at hnames
    rcases found with beside | atRoot
    · exact named beside fun ns hns => Path.suffix_of_names? hnames hns
    · refine named atRoot fun ns hns => ?_
      rw [Option.some.inj (hnames.symm.trans hns)]

/-! ### Computed and plain -/

/-- What fills the gaps of a path has as many names. -/
theorem length_of_filled {s : String} (hxs : ∀ a ∈ xs, Path.IsName a)
    (hns : ∀ a ∈ ns, Path.IsName a) (written : s.toList ≠ []) (slash : '/' ∉ s.toList)
    (fills : Glob.Filled hole (Path.ofNames xs).chars (Path.ofNames (ns ++ [s])).chars) :
    xs.length = ns.length + 1 := by
  have cut := Path.cutEach_concat hns slash
  have pieces := fills.pieces (by decide)
  by_cases none : xs = []
  · -- one empty piece would be filled to the name
    have empty : Text.cutEach '/' (Path.ofNames []).chars = [[]] := rfl
    rw [none, cut, empty] at pieces
    obtain rfl : ns = [] := by
      have one := pieces.length_eq
      simpa using one
    rw [List.map_nil, List.nil_append, List.forall₂_cons] at pieces
    exact absurd (pieces.1.eq_of_not_mem List.not_mem_nil).symm written
  · rw [Path.cutEach_ofNames hxs none, cut] at pieces
    simpa using pieces.length_eq

/-- A path with gaps has as many names as the script that it comes to. -/
theorem ComesTo.length (h : ComesTo g p) (hg : g.IsNormal) (hp : p.IsNormal)
    (written : p.isEmpty = false) : g.components.length = p.components.length := by
  obtain ⟨ns, n, rfl, hns, hn⟩ := hp.exists_concat written
  obtain ⟨xs, rfl, hxs⟩ := hg.exists_names
  obtain ⟨some, slash, -⟩ := hn.extended
  have length : xs.length = ns.length + 1 := by
    rcases h with fills | ⟨-, fills⟩
    · exact length_of_filled hxs hns hn.nonempty hn.no_slash fills
    · rw [Path.withExtension_ofNames hns hn] at fills
      exact length_of_filled hxs hns some slash fills
  rw [Path.components_ofNames hxs, Path.components_ofNames (Path.isName_concat hns hn)]
  simpa using length

/-- What a filled path means the path with gaps comes to. -/
theorem Outline.comesTo (h : Outline g c) (hp : p.IsNormal) (written : p.isEmpty = false)
    (hc : c.IsNormal) (means : Means c p) : ComesTo g p := by
  rcases means with same | ⟨bare, same⟩
  · rw [hp.eq_of_same hc same]
    exact .inl h.filled
  · obtain ⟨ns, n, rfl, hns, hn⟩ := hp.exists_concat written
    refine .inr ⟨h.bare bare, ?_⟩
    rw [Path.withExtension_eq_of_same hns hn hc same]
    exact h.filled

namespace Holed

/-- What the plain path means the computed path reaches. -/
theorem reaches_of_means (t : Holed) (value : Path.IsName v) (solid : Solid v.toList)
    (hp : p.IsNormal) (written : p.isEmpty = false)
    (leads : leadsTo? base (clean (t.put v.toList)) = some c) (means : Means c p) :
    t.Reaches base p := by
  rcases t.leads_alike base value solid with ⟨-, none⟩ | ⟨g, _, gapped, leads', outline⟩
  · exact absurd (leads.symm.trans none) (by simp)
  · obtain rfl := Option.some.inj (leads'.symm.trans leads)
    exact ⟨g, gapped, outline.comesTo hp written (Path.isNormal_of_normalize? leads) means⟩

/-- What both paths find the plain one means, or it swaps the extension: the computed path
finds neither an index script nor what lies deeper. -/
theorem means_or_swaps (t : Holed) (imports : kind.isShell = false) (value : Path.IsName v)
    (solid : Solid v.toList) (known : hasUnknownLead (clean (t.put v.toList)) = false)
    (found : p ∈ (Index.ofPaths paths).resolve (.path (String.ofList (t.put v.toList))) kind f
      root) (hp : p.IsNormal) (written : p.isEmpty = false) (reaches : t.Reaches f.parent p) :
    ∃ c, leadsTo? f.parent (clean (t.put v.toList)) = some c ∧ (Means c p ∨ Swaps c p) := by
  obtain ⟨g, gapped, comes⟩ := reaches
  rcases t.leads_alike f.parent value solid with ⟨none, -⟩ | ⟨_, c, gapped', leads, outline⟩
  · exact absurd (gapped.symm.trans none) (by simp)
  obtain rfl := Option.some.inj (gapped'.symm.trans gapped)
  have hc := Path.isNormal_of_normalize? leads
  have long := comes.length (Path.isNormal_of_normalize? gapped) hp written
  have same := outline.length
  obtain ⟨d, hd, some, names, ends⟩ := exists_names_of_mem_resolve imports known found leads
  have short := ends.length_le
  rcases names.length_cases hd some hp written with ⟨equal, named⟩ | longer
  · have whole := ends.eq_of_length (by omega)
    rw [hd.eq_of_same hc (Path.same_iff.2 whole.symm)] at named
    exact ⟨c, leads, named⟩
  · omega

/-- **Of what the plain path finds the computed path finds** what it leads to, seen from its
place or from the root, exactly or without an extension. Where the value is cut or the plain
path starts with a variable, and for another extension of the family, it finds what its
pattern covers. -/
theorem resolve_computed_of_plain (t : Holed) (imports : kind.isShell = false)
    (nul : hole ∉ f.chars) (value : Path.IsName v)
    (found : p ∈ (Index.ofPaths paths).resolve (.path (String.ofList (t.put v.toList))) kind f
      root) :
    p ∈ (Index.ofPaths paths).resolve (.computed (String.ofList t.text)) kind f root ↔
      (Solid v.toList ∧
        ∃ c, leadsTo? f.parent (clean (t.put v.toList)) = some c ∧ Means c p) ∨
      ((Solid v.toList → hasUnknownLead (clean (t.put v.toList)) = false →
        ∃ c, leadsTo? f.parent (clean (t.put v.toList)) = some c ∧ Swaps c p) ∧
          t.Reaches f.parent p) := by
  have nul : hole ∉ f.parent.chars := by
    rw [Path.parent]
    cases above : f.parent? with
    | none => decide
    | some q => exact fun inside => nul ((Path.parent_prefix above).subset inside)
  have archived := ofPath_subset _ _ _ _ (mem_resolve_path.1 found)
  obtain ⟨written, a, -, normal⟩ := mem_ofPaths.1 archived
  have hp := Path.isNormal_of_normalize? normal
  rw [mem_resolve_computed, t.mem_ofComputed _ nul, and_iff_right archived]
  constructor
  · intro reaches
    by_cases plain : Solid v.toList ∧ hasUnknownLead (clean (t.put v.toList)) = false
    · obtain ⟨c, leads, named⟩ :=
        t.means_or_swaps imports value plain.1 plain.2 found hp written reaches
      exact named.imp (fun means => ⟨plain.1, c, leads, means⟩)
        fun swaps => ⟨fun _ _ => ⟨c, leads, swaps⟩, reaches⟩
    · exact .inr ⟨fun solid known => absurd ⟨solid, known⟩ plain, reaches⟩
  · rintro (⟨solid, c, leads, means⟩ | ⟨-, reaches⟩)
    · exact t.reaches_of_means value solid hp written leads means
    · exact reaches

/-- The path `./${n}.js`. -/
def besideHole : Holed := ⟨"./".toList, ['n'], ".js".toList, by decide, by decide, by decide⟩

/-- The path `./lib/${n}`. -/
def folderHole : Holed := ⟨"./lib/".toList, ['n'], [], by decide, by decide, by decide⟩

/-- The path `lib/${n}`. -/
def bareHole : Holed := ⟨"lib/".toList, ['n'], [], by decide, by decide, by decide⟩

/-- A script of another extension, the index script of a folder and a script below the
folder of the file are found by the plain path only. -/
theorem resolve_computed_of_plain_missed :
    ((⟨"scripts/b.ts"⟩ : Path) ∈ (Index.ofPaths [⟨"scripts/b.ts"⟩]).resolve
        (.path (String.ofList (besideHole.put "b".toList))) .dynamicImport ⟨"scripts/main.ts"⟩
        ⟨"/repo"⟩ ∧
      (⟨"scripts/b.ts"⟩ : Path) ∉ (Index.ofPaths [⟨"scripts/b.ts"⟩]).resolve
        (.computed (String.ofList besideHole.text)) .dynamicImport ⟨"scripts/main.ts"⟩ ⟨"/repo"⟩) ∧
    ((⟨"lib/a/index.ts"⟩ : Path) ∈ (Index.ofPaths [⟨"lib/a/index.ts"⟩]).resolve
        (.path (String.ofList (folderHole.put "a".toList))) .dynamicImport ⟨"main.ts"⟩ ⟨"/repo"⟩ ∧
      (⟨"lib/a/index.ts"⟩ : Path) ∉ (Index.ofPaths [⟨"lib/a/index.ts"⟩]).resolve
        (.computed (String.ofList folderHole.text)) .dynamicImport ⟨"main.ts"⟩ ⟨"/repo"⟩) ∧
    ((⟨"app/lib/a.ts"⟩ : Path) ∈ (Index.ofPaths [⟨"app/lib/a.ts"⟩]).resolve
        (.path (String.ofList (bareHole.put "a".toList))) .dynamicImport ⟨"app/main.ts"⟩ ⟨"/repo"⟩ ∧
      (⟨"app/lib/a.ts"⟩ : Path) ∉ (Index.ofPaths [⟨"app/lib/a.ts"⟩]).resolve
        (.computed (String.ofList bareHole.text)) .dynamicImport ⟨"app/main.ts"⟩ ⟨"/repo"⟩) := by
  have missed {paths : List Path} {p f c d g : Path} {v : String} (t : Holed)
      (nul : hole ∉ f.chars) (value : Path.IsName v)
      (relative : clean (t.put v.toList) ≠ [] ∧ hasUnknownLead (clean (t.put v.toList)) = false ∧
        (Path.ofChars (clean (t.put v.toList))).isAbsolute = false)
      (archived : p.isEmpty = false ∧ ∃ a ∈ paths, a.normalize? = some p)
      (named : d.isEmpty = false ∧
        (f.parent.join (Path.ofChars (clean (t.put v.toList)))).normalize? = some d ∧ Names d p)
      (leads : leadsTo? f.parent (clean (t.put v.toList)) = some c ∧ ¬ Means c p)
      (gapped : leadsTo? f.parent (clean (t.put gap.toList)) = some g ∧ ¬ ComesTo g p) :
      p ∈ (Index.ofPaths paths).resolve (.path (String.ofList (t.put v.toList))) .dynamicImport f
          ⟨"/repo"⟩ ∧
        p ∉ (Index.ofPaths paths).resolve (.computed (String.ofList t.text)) .dynamicImport f
          ⟨"/repo"⟩ := by
    have found : p ∈ (Index.ofPaths paths).resolve (.path (String.ofList (t.put v.toList)))
        .dynamicImport f ⟨"/repo"⟩ := by
      rw [mem_resolve_path, ofPath_relative _ rfl _ _ relative.1 relative.2.1 relative.2.2]
      exact List.mem_append_left _ (mem_candidate_iff.2 ⟨mem_ofPaths.2 archived, d, named⟩)
    refine ⟨found, ?_⟩
    rw [t.resolve_computed_of_plain rfl nul value found]
    rintro (⟨-, c', leads', means⟩ | ⟨-, g', gapped', comes⟩)
    · obtain rfl := Option.some.inj (leads.1.symm.trans leads')
      exact leads.2 means
    · obtain rfl := Option.some.inj (gapped.1.symm.trans gapped')
      exact gapped.2 comes
  refine ⟨?_, ?_, ?_⟩
  · exact missed besideHole (c := ⟨"scripts/b.js"⟩) (d := ⟨"scripts/b.js"⟩)
      (g := ⟨"scripts/\x00.js"⟩) (by decide) (by decide) (by decide) (by decide) (by decide)
      (by decide) (by decide)
  · exact missed folderHole (c := ⟨"lib/a"⟩) (d := ⟨"lib/a"⟩) (g := ⟨"lib/\x00"⟩) (by decide)
      (by decide) (by decide) (by decide) (by decide) (by decide) (by decide)
  · exact missed bareHole (c := ⟨"lib/a"⟩) (d := ⟨"app/lib/a"⟩) (g := ⟨"lib/\x00"⟩) (by decide)
      (by decide) (by decide) (by decide) (by decide) (by decide) (by decide)

end Holed

end Reference
end Attic
