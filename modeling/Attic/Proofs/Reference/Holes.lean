import Attic.Proofs.Glob.Reading
import Attic.Proofs.Reference.Named
import Mathlib

/-!
# Paths with holes

A path with holes is a text with gaps: where its holes are filled without a slash, so
that the components with holes stay names, it leads to a script from any folder just as
the text with gaps leads to a path with gaps. The script is then found if and only if
the components of that path are readable as patterns, that is, unless holes adjoin in
one that has more than the two of them.

Key definitions: `Reference.Item`, `Reference.written`, `Reference.punched`,
`Reference.filled`, `Reference.Item.IsPlain`.
Key theorems: `Reference.fillHoles_written`, `Reference.told_alike`,
`Reference.climb_alike`, `Reference.resolve_computed_iff`.
-/

namespace Attic
namespace Reference

variable {paths : List Path} {p f root : Path} {kind : Kind}
variable {t v cs : List Char} {fuel : ℕ} {ts vs : List (List Char)}

/-! ### Texts with holes -/

/-- A character of a text, or a hole in it with what is written there and what it comes to. -/
inductive Item where
  | char (c : Char)
  | gap (body value : List Char)

namespace Item

def written : Item → List Char
  | .char c => [c]
  | .gap body _ => '$' :: '\x7b' :: (body ++ ['\x7d'])

def punched : Item → List Char
  | .char c => [c]
  | .gap _ _ => [hole]

def filled : Item → List Char
  | .char c => [c]
  | .gap _ value => value

/-- Whether the text ends no path and starts no hole, what is written in a hole does not
end it, and what it comes to stays in its component. -/
def IsPlain : Item → Prop
  | .char c => c ≠ '?' ∧ c ≠ '#' ∧ c ≠ '$' ∧ c ≠ hole
  | .gap body value => '?' ∉ body ∧ '#' ∉ body ∧ '\x7d' ∉ body ∧ '/' ∉ value

instance : (i : Item) → Decidable i.IsPlain
  | .char _ => inferInstanceAs (Decidable (_ ∧ _))
  | .gap _ _ => inferInstanceAs (Decidable (_ ∧ _))

end Item

/-- The text of a computed path. -/
def written (items : List Item) : List Char := items.flatMap Item.written

/-- The text with a gap for each hole. -/
def punched (items : List Item) : List Char := items.flatMap Item.punched

/-- The text with what each hole comes to. -/
def filled (items : List Item) : List Char := items.flatMap Item.filled

variable {items : List Item}

theorem not_mem_written {c : Char} (plain : ∀ i ∈ items, i.IsPlain) (h : c = '?' ∨ c = '#') :
    c ∉ written items := by
  intro hc
  obtain ⟨i, hi, inside⟩ := List.mem_flatMap.1 hc
  have plain := plain i hi
  cases i with
  | char d =>
    obtain rfl := List.mem_singleton.1 inside
    exact h.elim plain.1 plain.2.1
  | gap body value =>
    obtain ⟨query, fragment, -, -⟩ := plain
    rcases h with rfl | rfl
    · simp [Item.written, query] at inside
    · simp [Item.written, fragment] at inside

/-- A path that is written from its place starts with characters of its text, not with a
hole. -/
theorem exists_start (explicit : isExplicit (written items) = true) :
    ∃ rest, (items = .char '.' :: .char '/' :: rest) ∨
      (items = .char '.' :: .char '.' :: .char '/' :: rest) := by
  have head {d : Char} {ds : List Char} {is : List Item} (hd : d ≠ '$')
      (start : d :: ds <+: written is) : ∃ js, is = .char d :: js ∧ ds <+: written js := by
    cases is with
    | nil => simp [written] at start
    | cons i js =>
      cases i with
      | char c =>
        obtain ⟨rfl, rest⟩ := List.cons_prefix_cons.1 start
        exact ⟨js, rfl, rest⟩
      | gap body value => exact absurd (List.cons_prefix_cons.1 start).1 hd
  rw [isExplicit, Bool.or_eq_true, List.isPrefixOf_iff_prefix,
    List.isPrefixOf_iff_prefix] at explicit
  rcases explicit with start | start
  · obtain ⟨is, rfl, second⟩ := head (by decide) start
    obtain ⟨js, rfl, -⟩ := head (by decide) second
    exact ⟨js, .inl rfl⟩
  · obtain ⟨is, rfl, second⟩ := head (by decide) start
    obtain ⟨js, rfl, third⟩ := head (by decide) second
    obtain ⟨ks, rfl, -⟩ := head (by decide) third
    exact ⟨ks, .inr rfl⟩

/-! ### Filling holes -/

/-- What a hole starts with. -/
def opening : List Char := ['$', '\x7b']

/-- What stands before a hole is cut off there, if no hole opens in it. -/
theorem cutFirst?_opening (rest : List Char) : ∀ {before : List Char}, ¬ opening <:+: before →
    Text.cutFirst? opening (before ++ '$' :: '\x7b' :: rest) = some (before, rest)
  | [], _ => by
    rw [List.nil_append, Text.cutFirst?, if_pos (by simp [opening, List.isPrefixOf])]
    rfl
  | c :: before, h => by
    rw [List.infix_cons_iff, not_or] at h
    have later : ¬ opening.isPrefixOf (c :: (before ++ '$' :: '\x7b' :: rest)) = true := by
      rw [List.isPrefixOf_iff_prefix, opening, List.cons_prefix_cons]
      rintro ⟨dollar, second⟩
      cases before with
      | nil => exact absurd (List.cons_prefix_cons.1 second).1 (by decide)
      | cons d before =>
        refine h.1 (List.cons_prefix_cons.2 ⟨dollar, ?_⟩)
        obtain ⟨brace, -⟩ := List.cons_prefix_cons.1 second
        simpa using brace
    rw [List.cons_append, Text.cutFirst?, if_neg later, cutFirst?_opening rest h.2, Option.map_some]

/-- Nothing is filled where no hole opens. -/
theorem fillHoles_none (h : ¬ opening <:+: cs) : ∀ fuel, fillHoles fuel cs = cs
  | 0 => rfl
  | fuel + 1 => by
    have none := Text.cutFirst?_eq_none h
    rw [opening] at none
    rw [fillHoles, none]

theorem fillHoles_gap {before body : List Char} (h : ¬ opening <:+: before)
    (closed : '\x7d' ∉ body) (fuel : ℕ) (cs : List Char) :
    fillHoles (fuel + 1) (before ++ '$' :: '\x7b' :: (body ++ '\x7d' :: cs)) =
      before ++ hole :: fillHoles fuel cs := by
  have first := cutFirst?_opening (body ++ '\x7d' :: cs) h
  rw [opening] at first
  have rest : (body ++ '\x7d' :: cs).dropWhile (· ≠ '\x7d') = '\x7d' :: cs := by
    rw [List.dropWhile_append_of_pos, List.dropWhile_cons]
    · simp
    · intro c hc
      have other : c ≠ '\x7d' := by
        rintro rfl
        exact closed hc
      simpa using other
  rw [fillHoles, first]
  simp only [rest]

theorem fillHoles_cons {c : Char} (h : c ≠ '$') : ∀ (fuel : ℕ) (cs : List Char),
    fillHoles fuel (c :: cs) = c :: fillHoles fuel cs
  | 0, cs => rfl
  | fuel + 1, cs => by
    have later : Text.cutFirst? ['$', '\x7b'] (c :: cs) =
        (Text.cutFirst? ['$', '\x7b'] cs).map fun cut => (c :: cut.1, cut.2) := by
      have other : ¬ ['$', '\x7b'].isPrefixOf (c :: cs) = true := by
        rw [List.isPrefixOf_iff_prefix, List.cons_prefix_cons]
        exact fun start => h start.1.symm
      rw [Text.cutFirst?, if_neg other]
    rw [fillHoles, fillHoles, later]
    cases Text.cutFirst? ['$', '\x7b'] cs with
    | none => rfl
    | some cut =>
      rw [Option.map_some]
      simp only
      split <;> rfl

/-- **The holes of a computed path become gaps.** -/
theorem fillHoles_written : ∀ (items : List Item) (fuel : ℕ), (∀ i ∈ items, i.IsPlain) →
    (written items).length ≤ fuel → fillHoles fuel (written items) = punched items
  | [], fuel, _, _ => by cases fuel <;> rfl
  | .char c :: items, fuel, plain, enough => by
    have later := fillHoles_written items fuel
      (fun i hi => plain i (List.mem_cons_of_mem _ hi)) (Nat.le_of_succ_le enough)
    obtain ⟨-, -, dollar, -⟩ := plain _ List.mem_cons_self
    show fillHoles fuel (c :: written items) = c :: punched items
    rw [fillHoles_cons dollar, later]
  | .gap body value :: items, 0, _, enough => absurd enough (by simp [written, Item.written])
  | .gap body value :: items, fuel + 1, plain, enough => by
    have text : written (.gap body value :: items) =
        '$' :: '\x7b' :: (body ++ '\x7d' :: written items) := by
      simp [written, Item.written]
    rw [text, List.length_cons, List.length_cons, List.length_append, List.length_cons] at enough
    have later := fillHoles_written items fuel
      (fun i hi => plain i (List.mem_cons_of_mem _ hi)) (by omega)
    obtain ⟨-, -, closed, -⟩ := plain _ List.mem_cons_self
    have first :=
      fillHoles_gap (show ¬ opening <:+: [] by simp [opening]) closed fuel (written items)
    rw [List.nil_append, List.nil_append] at first
    rw [text, first, later]
    rfl

/-- What the holes come to fills their gaps. -/
theorem filled_punched (plain : ∀ i ∈ items, i.IsPlain) :
    Glob.Filled hole (punched items) (filled items) := by
  induction items with
  | nil => exact .nil
  | cons i items ih =>
    have later := ih fun j hj => plain j (List.mem_cons_of_mem _ hj)
    cases i with
    | char c => exact .char c later
    | gap body value => exact .fill (plain _ List.mem_cons_self).2.2.2 later

/-! ### Components with gaps -/

/-- Steps with gaps, next to what they come to: without a gap they are the same, and with
one both are names. -/
def Alike (a b : String) : Prop :=
  a = b ∨ Path.IsName a ∧ Path.IsName b ∧ Glob.Filled hole a.toList b.toList

/-- The pieces of a text with gaps are steps like those of the filled text, if no piece
with a gap is filled to nothing or to dots. -/
theorem told_alike (fills : List.Forall₂ (Glob.Filled hole) ts vs) (ht : ∀ t ∈ ts, '/' ∉ t)
    (hv : ∀ v ∈ vs, '/' ∉ v) (values : ∀ q ∈ ts.zip vs, hole ∈ q.1 →
      q.2 ≠ [] ∧ q.2 ≠ ['.'] ∧ q.2 ≠ ['.', '.']) :
    List.Forall₂ Alike (Path.told ts) (Path.told vs) := by
  induction fills with
  | nil => exact .nil
  | @cons t v ts vs first _ ih =>
    have later := ih (fun s hs => ht s (List.mem_cons_of_mem _ hs))
      (fun s hs => hv s (List.mem_cons_of_mem _ hs))
      (fun q hq => values q (List.mem_cons_of_mem _ hq))
    by_cases gap : hole ∈ t
    · obtain ⟨written, dot, up⟩ := values (t, v) List.mem_cons_self gap
      have name : Path.IsName (String.ofList t) := by
        refine Path.isName_ofList_iff.2 ⟨?_, ht t List.mem_cons_self, ?_, ?_⟩
        · rintro rfl
          exact absurd gap (by decide)
        · rintro rfl
          exact absurd gap (by decide)
        · rintro rfl
          exact absurd gap (by decide)
      have name' : Path.IsName (String.ofList v) :=
        Path.isName_ofList_iff.2 ⟨written, hv v List.mem_cons_self, dot, up⟩
      rw [Path.told_cons (Path.isName_ofList_iff.1 name).1, Path.told_cons written]
      refine .cons (.inr ⟨name, name', ?_⟩) later
      rwa [String.toList_ofList, String.toList_ofList]
    · obtain rfl := Glob.Filled.eq_of_not_mem first gap
      by_cases empty : t = []
      · rwa [empty, Path.told_cons_nil, Path.told_cons_nil]
      · rw [Path.told_cons empty, Path.told_cons empty]
        exact .cons (.inl rfl) later

theorem forall₂_alike (xs : List String) : List.Forall₂ Alike xs xs :=
  List.forall₂_same.2 fun _ _ => .inl rfl

/-- Names with gaps and the names that they come to. -/
def Come (xs ys : List String) : Prop :=
  List.Forall₂ (fun a b => Glob.Filled hole a.toList b.toList) xs ys

/-- **Where filled steps lead the steps with gaps lead likewise.** -/
theorem climb_alike {xs ys st st' out : List String} (alike : List.Forall₂ Alike xs ys)
    (come : Come st st') (way : Path.climb st' (ys.map Path.stepComponent) = some out) :
    ∃ top, Path.climb st (xs.map Path.stepComponent) = some top ∧ Come top out := by
  induction alike generalizing st st' with
  | nil =>
    obtain rfl := Option.some.inj (show some st' = some out by simpa [Path.climb] using way)
    exact ⟨st, by simp [Path.climb], come⟩
  | @cons a b xs ys first _ ih =>
    rw [List.map_cons] at way ⊢
    rcases first with rfl | ⟨ha, hb, fills⟩
    · cases step : Path.stepComponent a with
      | here =>
        rw [step, Path.climb] at way
        rw [Path.climb]
        exact ih come way
      | name s =>
        rw [step, Path.climb] at way
        rw [Path.climb]
        exact ih (.cons (Glob.Filled.refl _) come) way
      | up =>
        rw [step] at way
        cases come with
        | nil => exact absurd way (by simp [Path.climb])
        | cons _ come =>
          rw [Path.climb] at way ⊢
          exact ih come way
      | root =>
        rw [step] at way
        exact absurd way (by cases st' <;> simp [Path.climb])
    · rw [ha.stepComponent, Path.climb]
      rw [hb.stepComponent, Path.climb] at way
      exact ih (.cons fills come) way

/-- A path with gaps leads to names that come to those of the filled path. -/
theorem exists_names (plain : ∀ i ∈ items, i.IsPlain)
    (relative : (Path.ofChars (filled items)).isAbsolute = false)
    (relative' : (Path.ofChars (punched items)).isAbsolute = false)
    (values : ∀ q ∈ (Text.cutEach '/' (punched items)).zip (Text.cutEach '/' (filled items)),
      hole ∈ q.1 → q.2 ≠ [] ∧ q.2 ≠ ['.'] ∧ q.2 ≠ ['.', '.']) {names : List String}
    (leads : (p.join (Path.ofChars (filled items))).names? = some names) :
    ∃ gaps, (p.join (Path.ofChars (punched items))).names? = some gaps ∧ Come gaps names := by
  have alike : List.Forall₂ Alike
      (Tree.steps p.text ++ Tree.steps (Path.ofChars (punched items)).text)
      (Tree.steps p.text ++ Tree.steps (Path.ofChars (filled items)).text) := by
    rw [Path.steps_ofChars, Path.steps_ofChars]
    exact List.rel_append (forall₂_alike _) (told_alike ((filled_punched plain).pieces (by decide))
      (fun _ => Text.not_mem_of_mem_cutEach _) (fun _ => Text.not_mem_of_mem_cutEach _) values)
  obtain ⟨rooted, way⟩ := (Path.names?_join_eq_some relative).1 leads
  obtain ⟨top, way', come⟩ := climb_alike alike .nil way
  refine ⟨top.reverse, (Path.names?_join_eq_some relative').2 ⟨rooted, ?_⟩, ?_⟩
  · rw [way', List.reverse_reverse]
  · have turned := List.rel_reverse come
    rwa [List.reverse_reverse] at turned

/-! ### What a computed path finds -/

theorem ofComputed_subset (i : Index) (base : Path) (raw : List Char) :
    i.ofComputed base raw ⊆ i.paths := by
  simp only [Index.ofComputed]
  split
  · exact List.nil_subset _
  · split
    · exact List.nil_subset _
    · exact List.filter_subset_self _

theorem mem_resolve_computed {raw : List Char} :
    p ∈ (Index.ofPaths paths).resolve (.computed (String.ofList raw)) kind f root ↔
      p ∈ (Index.ofPaths paths).ofComputed f.parent raw := by
  rw [Index.resolve]
  simp only [String.toList_ofList]
  exact mem_unlessEmpty (ofComputed_subset _ _ _)

/-- What a computed path finds is read off the names with gaps that it leads to. -/
theorem mem_ofComputed_iff {raw template : List Char} {i : Index} {base : Path}
    {gaps names : List String} (cleaned : clean raw = raw)
    (holes : fillHoles raw.length raw = template) (explicit : isExplicit template = true)
    (leads : (base.join (Path.ofChars template)).names? = some gaps) (come : Come gaps names)
    (archived : Path.ofNames names ∈ i.paths) (written : names ≠ []) :
    Path.ofNames names ∈ i.ofComputed base raw ↔
      ∀ n ∈ gaps, Glob.IsReadable hole n.toList := by
  have isName := Path.isName_of_names? leads
  have slash : ∀ t ∈ gaps.map String.toList, '/' ∉ t := by
    intro t ht
    obtain ⟨n, hn, rfl⟩ := List.mem_map.1 ht
    exact (isName n hn).no_slash
  have fills : List.Forall₂ (Glob.Filled hole) (gaps.map String.toList)
      (names.map String.toList) :=
    List.forall₂_map_left_iff.2 (List.forall₂_map_right_iff.2 come)
  have some : gaps.map String.toList ≠ [] := by
    rw [Ne, List.map_eq_nil_iff]
    rintro rfl
    exact written (List.forall₂_nil_left_iff.1 come)
  have pattern : holePattern (Path.ofNames gaps) = String.ofList (Text.glue '*'
      ((Text.cutEach hole (Text.glue '/' (gaps.map String.toList))).map Glob.escape)) := by
    rw [holePattern, Path.ofNames, Path.chars_ofChars]
  have all : (∀ t ∈ gaps.map String.toList, Glob.IsReadable hole t) ↔
      ∀ n ∈ gaps, Glob.IsReadable hole n.toList := List.forall_mem_map
  have normal : (base.join (Path.ofChars template)).normalize? =
      Option.some (Path.ofNames gaps) := by
    rw [Path.normalize?, leads]
    rfl
  rw [Index.ofComputed]
  simp only [cleaned, holes, explicit, if_true, normal, pattern]
  rw [← all]
  by_cases readable : ∀ t ∈ gaps.map String.toList, Glob.IsReadable hole t
  · obtain ⟨glob, read, accepts⟩ := Glob.read_readable (by decide) fills some readable
    rw [read]
    refine iff_of_true (List.mem_filter.2 ⟨archived, ?_⟩) readable
    rw [Path.ofNames, Path.chars_ofChars, accepts, Bool.true_or]
  · obtain ⟨flaw, read⟩ := Glob.read_unreadable (show hole ≠ '/' by decide) slash
      (by simpa using readable)
    rw [read]
    exact iff_of_false (List.not_mem_nil) readable

/-- **A computed path finds a script that its holes come to if and only if it leads to
readable names**: a name with adjoining holes has the two of them only. -/
theorem resolve_computed_iff (kind : Kind) (root : Path) (plain : ∀ i ∈ items, i.IsPlain)
    (explicit : isExplicit (written items) = true)
    (last : ∀ c ∈ (written items).getLast?, c ≠ '/' ∧ Text.isBlank c = false)
    (values : ∀ q ∈ (Text.cutEach '/' (punched items)).zip (Text.cutEach '/' (filled items)),
      hole ∈ q.1 → q.2 ≠ [] ∧ q.2 ≠ ['.'] ∧ q.2 ≠ ['.', '.'])
    (archived : p ∈ (Index.ofPaths paths).paths)
    (leads : (f.parent.join (Path.ofChars (filled items))).normalize? = some p) :
    ∃ gaps, (f.parent.join (Path.ofChars (punched items))).names? = some gaps ∧
      (p ∈ (Index.ofPaths paths).resolve (.computed (String.ofList (written items))) kind f root ↔
        ∀ n ∈ gaps, Glob.IsReadable hole n.toList) := by
  have cleaned := clean_eq_self (.inr (.inr explicit)) (not_mem_written plain (.inl rfl))
    (not_mem_written plain (.inr rfl)) last
  have start : isExplicit (punched items) = true ∧
      (Path.ofChars (filled items)).isAbsolute = false ∧
      (Path.ofChars (punched items)).isAbsolute = false := by
    obtain ⟨rest, rfl | rfl⟩ := exists_start explicit
    · exact ⟨rfl, Path.isAbsolute_dot _, Path.isAbsolute_dot _⟩
    · exact ⟨rfl, Path.isAbsolute_dot _, Path.isAbsolute_dot _⟩
  obtain ⟨names, hnames, rfl⟩ := Option.map_eq_some_iff.1 leads
  obtain ⟨gaps, hgaps, come⟩ := exists_names plain start.2.1 start.2.2 values hnames
  have written : names ≠ [] := by
    rintro rfl
    exact absurd (mem_ofPaths.1 archived).1 (by decide)
  refine ⟨gaps, hgaps, ?_⟩
  rw [mem_resolve_computed]
  exact mem_ofComputed_iff cleaned (fillHoles_written items _ plain le_rfl) start.1 hgaps come archived
    written

/-- The path `./${a}${b}.ts`, where `a` comes to `x` and `b` to `y`. -/
def adjoiningHoles : List Item :=
  [.char '.', .char '/', .gap ['a'] ['x'], .gap ['b'] ['y'], .char '.', .char 't', .char 's']

/-- Nothing is found with holes that adjoin in a longer name. -/
theorem resolve_computed_iff_adjoining :
    filled adjoiningHoles = "./xy.ts".toList ∧
      (⟨"app/xy.ts"⟩ : Path) ∉ (Index.ofPaths [⟨"app/xy.ts"⟩]).resolve
        (.computed (String.ofList (written adjoiningHoles))) .dynamicImport ⟨"app/main.ts"⟩
        ⟨"/repo"⟩ := by
  have last : ∀ c ∈ (written adjoiningHoles).getLast?, c ≠ '/' ∧ Text.isBlank c = false := by
    intro c hc
    rw [← Option.some.inj (show some 's' = some c from hc)]
    decide
  have archived : (⟨"app/xy.ts"⟩ : Path) ∈ (Index.ofPaths [⟨"app/xy.ts"⟩]).paths :=
    mem_ofPaths.2 (by decide)
  have leads : ((⟨"app/main.ts"⟩ : Path).parent.join
      (Path.ofChars (filled adjoiningHoles))).normalize? = some ⟨"app/xy.ts"⟩ := by decide
  have gapped : ((⟨"app/main.ts"⟩ : Path).parent.join
      (Path.ofChars (punched adjoiningHoles))).names? = some ["app", "\x00\x00.ts"] := by decide
  obtain ⟨gaps, names, found⟩ := resolve_computed_iff .dynamicImport ⟨"/repo"⟩ (by decide)
    (by decide) last (by decide) archived leads
  obtain rfl := Option.some.inj (gapped.symm.trans names)
  refine ⟨by decide, ?_⟩
  rw [found]
  intro readable
  rcases readable "\x00\x00.ts" (by simp) with apart | alone
  · exact apart ⟨[], ".ts".toList, by decide⟩
  · exact absurd alone (by decide)

end Reference
end Attic
