import Attic.Inspection
import Attic.Proofs.Order.Distinct
import Attic.Proofs.Path.Parts
import Attic.Proofs.Path.Relative
import Attic.Proofs.Reference.Forms
import Attic.Proofs.Tree.Walk
import Mathlib

/-!
# References that are found

A script that is archived is in the index under its normal path, and a path that
leads to it, from the folder of a file or, for a command, from the root, names
it. The plain line of each kind is therefore reported wherever it stands in a
file that is read as text. For an import this needs a file whose path has a
normal form: from a file that is reached over a root above the repository no
path leads back into it by its text alone.

Key definitions: `Reference.Leads`, `Inspection.Reads`.
Key theorems: `Reference.Index.exists_mem_resolve`,
`Inspection.imports_finds_plain_lines`.
-/

namespace Attic

/-! ### Sorted findings -/

namespace Reference

/-- What findings sort by. -/
def Finding.key (f : Finding) : List String ×ₗ List String ×ₗ ℕ ×ₗ ℕ ×ₗ String :=
  toLex (f.script.key, toLex (f.file.key, toLex (f.line, toLex (f.kind.rank, f.snippet))))

theorem Kind.rank_injective : Function.Injective rank := by
  intro a b h
  cases a <;> cases b <;> simp_all [rank]

/-- Findings sort by script, file, line, kind and text. -/
theorem Finding.before_byKey : Order.ByKey before key := by
  intro a b
  simp only [before, key, Prod.Lex.toLex_lt_toLex]
  rw [Order.lex_iff (Path.before_byKey _ _) (Path.before_byKey _ _),
    Order.lex_iff (Path.before_byKey _ _) (Path.before_byKey _ _)]
  by_cases line : a.line = b.line
  · by_cases kind : a.kind = b.kind
    · simp [line, kind]
    · have rank : a.kind.rank ≠ b.kind.rank := fun h => kind (Kind.rank_injective h)
      simp [line, kind, rank]
  · simp [line]

theorem Finding.of_key {a b : Finding} (h : a.key = b.key) : a.script.same b.script = true ∧
    a.file.same b.file = true ∧ a.line = b.line ∧ a.kind = b.kind := by
  simp only [key, EmbeddingLike.apply_eq_iff_eq, Prod.mk.injEq] at h
  obtain ⟨script, file, line, kind, -⟩ := h
  exact ⟨Path.same_of_key script, Path.same_of_key file, line, Kind.rank_injective kind⟩

/-! ### Looking up a path -/

variable {i : Index} {p q base root : Path} {paths : List Path} {kind : Kind} {raw : List Char}

/-- An archived path is in the index under its normal form. -/
theorem Index.contains_ofPaths (hp : p ∈ paths) (normal : p.normalize? = some q)
    (hne : q.isEmpty = false) : (ofPaths paths).contains q = true := by
  have mem : q ∈ (paths.filterMap Path.normalize?).filter fun p => !p.isEmpty :=
    List.mem_filter.2 ⟨List.mem_filterMap.2 ⟨p, hp, normal⟩, by simp [hne]⟩
  obtain ⟨q', hq', same⟩ := Order.exists_mem_sortDistinct Path.before_byKey mem
  exact List.any_eq_true.2 ⟨q', hq', Path.same_of_key same⟩

/-- A path that is in the index names itself. -/
theorem Index.mem_candidate (normal : p.normalize? = some q) (hne : q.isEmpty = false)
    (h : i.contains q = true) : q ∈ i.candidate p := by
  have self : q ∈ i.named q := by
    rw [named, hne, if_neg Bool.false_ne_true, exactly, if_pos h]
    exact List.mem_append_left _ (List.mem_singleton_self q)
  rwa [candidate, normal]

/-- A text of path characters without a slash at its end is clean. -/
theorem clean_plain (plain : ∀ c ∈ raw, isPathChar c = true) (hne : raw ≠ [])
    (slash : raw.getLast? ≠ some '/') : clean raw = raw := by
  have blank {cs : List Char} (h : ∀ c ∈ cs, Text.isBlank c = false) :
      cs.dropWhile Text.isBlank = cs := by
    rw [List.dropWhile_eq_self_iff]
    intro less
    simpa using h _ (List.getElem_mem less)
  have trimmed : Text.trim raw = raw := by
    rw [Text.trim, Text.trimStart, blank fun c hc => (unmarked (plain c hc)).blank, Text.trimEnd,
      blank fun c hc => (unmarked (plain c (List.mem_reverse.1 hc))).blank, List.reverse_reverse]
  have kept : raw.takeWhile (fun c => !(decide (c = '?') || decide (c = '#'))) = raw := by
    rw [List.takeWhile_eq_self_iff]
    intro c hc
    have mark := (unmarked (plain c hc)).mark
    simp [mark.1, mark.2]
  rw [clean, trimmed]
  simp only [kept, hne, if_false]
  rw [List.dropWhile_eq_self_iff.2, List.reverse_reverse]
  intro less
  simp only [decide_eq_true_eq]
  intro last
  refine slash ?_
  rw [← List.head?_reverse, List.head?_eq_getElem?, List.getElem?_eq_getElem less, last]

/-- A text that is written as a path. -/
structure Written (raw : List Char) : Prop where
  nonempty : raw ≠ []
  plain : ∀ c ∈ raw, isPathChar c = true
  slash : raw.getLast? ≠ some '/'

/-- A text that leads to a script: from a folder or, for a command, from the root. -/
structure Leads (kind : Kind) (base : Path) (raw : List Char) (script : Path) : Prop where
  written : Written raw
  relative : (Path.ofChars raw).isAbsolute = false
  normal : (base.join (Path.ofChars raw)).normalize? = some script ∨
    kind.isShell = true ∧ (Path.ofChars raw).normalize? = some script

/-- A path names what it leads to. -/
theorem Index.mem_ofPath (h : Leads kind base raw q) (hne : q.isEmpty = false)
    (there : i.contains q = true) : q ∈ i.ofPath kind base root raw := by
  obtain ⟨⟨some, plain, slash⟩, relative, leads⟩ := h
  have known : hasUnknownLead raw = false := by
    obtain ⟨c, cs, rfl⟩ := List.exists_cons_of_ne_nil some
    have first := unmarked (plain c List.mem_cons_self)
    simp [hasUnknownLead, first.hole, first.lead, first.mark]
  rw [ofPath, clean_plain plain some slash, if_neg some, known]
  simp only [relative, Bool.false_eq_true, if_false]
  rcases leads with normal | ⟨shell, normal⟩
  · exact List.mem_append_left _ (mem_candidate normal hne there)
  · rw [shell, Bool.true_or, if_pos rfl]
    exact List.mem_append_right _ (mem_candidate normal hne there)

/-- What leads to an archived script is resolved to it. -/
theorem Index.exists_mem_resolve {file : Path} (h : Leads kind file.parent raw q)
    (hne : q.isEmpty = false) (there : i.contains q = true) :
    ∃ q' ∈ i.resolve (.path (String.ofList raw)) kind file root, q'.same q = true := by
  have some : i.isEmpty = false := by
    obtain ⟨q', hq', -⟩ := List.any_eq_true.1 there
    exact List.isEmpty_eq_false_iff.2 (List.ne_nil_of_mem hq')
  have named : q ∈ i.ofPath kind file.parent root raw := mem_ofPath h hne there
  obtain ⟨q', hq', same⟩ := Order.exists_mem_sortDistinct Path.before_byKey named
  refine ⟨q', ?_, Path.same_of_key same⟩
  rw [resolve, some, if_neg Bool.false_ne_true]
  simpa using hq'

/-! ### The plain lines -/

section

variable {file : Path} {dir script : List String} {n : Nat} {line : List Char}

/-- A path of plain names. -/
structure PlainNames (script : List String) : Prop where
  nonempty : script ≠ []
  isName : ∀ n ∈ script, Path.IsName n
  plain : ∀ n ∈ script, ∀ c ∈ n.toList, isPlain c = true

/-- A text of pieces ends as the last of them. -/
theorem getLast?_glue {sep : Char} {ps : List (List Char)} {p : List Char}
    (h : ps.getLast? = some p) (hne : p ≠ []) : (Text.glue sep ps).getLast? = p.getLast? := by
  obtain ⟨qs, rfl⟩ := List.getLast?_eq_some_iff.1 h
  by_cases hqs : qs = []
  · rw [hqs]
    rfl
  · rw [Text.glue_append p hqs, List.getLast?_append_of_ne_nil _ (List.cons_ne_nil _ _)]
    obtain ⟨c, cs, rfl⟩ := List.exists_cons_of_ne_nil hne
    rw [List.getLast?_cons_cons]

theorem written_ofNames {ss : List String} {last : String} (ends : ss.getLast? = some last)
    (isName : Path.IsName last) (plain : ∀ s ∈ ss, ∀ c ∈ s.toList, isPathChar c = true) :
    Written (Path.ofNames ss).chars := by
  have final : (Path.ofNames ss).chars.getLast? = last.toList.getLast? := by
    rw [Path.ofNames, Path.chars_ofChars]
    exact getLast?_glue (by rw [List.getLast?_map, ends]; rfl) isName.nonempty
  refine ⟨fun empty => ?_, fun c hc => ?_, fun slash => ?_⟩
  · rw [empty, List.getLast?_nil, eq_comm, List.getLast?_eq_none_iff] at final
    exact isName.nonempty final
  · rw [Path.ofNames, Path.chars_ofChars] at hc
    rcases Text.mem_glue hc with rfl | ⟨p, hp, hc⟩
    · rfl
    · obtain ⟨s, hs, rfl⟩ := List.mem_map.1 hp
      exact plain s hs c hc
  · rw [final] at slash
    exact isName.no_slash (List.mem_of_getLast? slash)

theorem PlainNames.written (h : PlainNames script) : Written (Path.ofNames script).chars := by
  refine written_ofNames (List.getLast?_eq_getLast_of_ne_nil h.nonempty)
    (h.isName _ (List.getLast_mem h.nonempty)) fun s hs c hc => ?_
  rw [isPathChar, h.plain s hs c hc, Bool.true_or]

/-- A relative path ends as its script. -/
theorem getLast?_relativePieces (hne : script ≠ []) :
    (Path.relativePieces dir script).getLast? = script.getLast? := by
  have way : (Path.wayTo dir script).getLast? = script.getLast? := by
    fun_induction Path.wayTo dir script with
    | case1 dir s t script ih => rw [ih (List.cons_ne_nil _ _), List.getLast?_cons_cons]
    | case2 d dir s t script _ => exact List.getLast?_append_of_ne_nil _ hne
    | case3 dir script _ => exact List.getLast?_append_of_ne_nil _ hne
  unfold Path.relativePieces
  split
  · next rest e => rw [← e, way]
  · obtain ⟨s, ss, hs⟩ := List.exists_cons_of_ne_nil (l := Path.wayTo dir script) fun e => by
      rw [e, List.getLast?_nil, eq_comm, List.getLast?_eq_none_iff] at way
      exact hne way
    rw [hs, List.getLast?_cons_cons, ← hs, way]

theorem PlainNames.relative (h : PlainNames script) (dir : List String) :
    Written (Path.relative dir script).chars := by
  refine written_ofNames ((getLast?_relativePieces h.nonempty).trans
    (List.getLast?_eq_getLast_of_ne_nil h.nonempty)) (h.isName _ (List.getLast_mem h.nonempty))
    fun s hs c hc => ?_
  rcases Path.mem_relativePieces hs with rfl | rfl | hs
  · have dot : ∀ c ∈ ".".toList, isPathChar c = true := by simp [isPathChar, isPlain]
    exact dot c hc
  · have dots : ∀ c ∈ "..".toList, isPathChar c = true := by simp [isPathChar, isPlain]
    exact dots c hc
  · rw [isPathChar, h.plain s hs c hc, Bool.true_or]

/-- What a command says of a script that it runs is its relative path from the
root. -/
theorem relative_root (h : PlainNames script) :
    (Path.relative [] script).chars = "./".toList ++ (Path.ofNames script).chars := by
  obtain ⟨s, ss, rfl⟩ := List.exists_cons_of_ne_nil h.nonempty
  have first := (h.isName s List.mem_cons_self).not_up
  have pieces : Path.relativePieces [] (s :: ss) = "." :: s :: ss := by
    have way : Path.wayTo [] (s :: ss) = s :: ss := by
      cases ss <;> rfl
    rw [Path.relativePieces, way]
    split
    · next rest e => exact absurd (List.cons.inj e).1 first
    · rfl
  rw [Path.relative, pieces, Path.ofNames, Path.ofNames, Path.chars_ofChars, Path.chars_ofChars]
  rfl

/-- What the plain line of a kind says leads to the script. -/
theorem Kind.said_leads (kind : Kind) (h : PlainNames script)
    (seen : kind.isShell = false → base.names? = some dir) :
    Leads kind base (kind.said (Path.relative dir script).chars (Path.ofNames script).chars)
      (Path.ofNames script) := by
  have imported (seen : base.names? = some dir) :
      Leads kind base (Path.relative dir script).chars (Path.ofNames script) := by
    refine ⟨h.relative dir, ?_, .inl ?_⟩
    · rw [Path.ofChars_chars, Path.isAbsolute_relative]
    · rw [Path.ofChars_chars, Path.normalize?_join_relative seen h.isName]
  cases kind with
  | staticImport => exact imported (seen rfl)
  | dynamicImport => exact imported (seen rfl)
  | require => exact imported (seen rfl)
  | shellSource =>
    refine ⟨h.written, ?_, .inr ⟨rfl, ?_⟩⟩
    · rw [Kind.said, Path.ofChars_chars, Path.isAbsolute_ofNames h.isName]
    · rw [Kind.said, Path.ofChars_chars]
      exact Path.ofNames_isNormal h.isName
  | shellExec =>
    have normal : (Path.relative [] script).normalize? = some (Path.ofNames script) := by
      have top : (⟨""⟩ : Path).names? = some [] := rfl
      have joined := Path.normalize?_join_relative top h.isName
      have empty : (⟨""⟩ : Path).join (Path.relative [] script) = Path.relative [] script := by
        simp [Path.join, Path.isEmpty]
      rwa [empty] at joined
    rw [Kind.said, ← relative_root h]
    refine ⟨h.relative [], ?_, .inr ⟨rfl, ?_⟩⟩
    · rw [Path.ofChars_chars, Path.isAbsolute_relative]
    · rw [Path.ofChars_chars, normal]

/-- **The plain line of a kind is found where it stands in the text of a file.** -/
theorem exists_mem_findings {text : List Char} (h : PlainNames script)
    (seen : kind.isShell = false → file.parent.names? = some dir)
    (archived : i.contains (Path.ofNames script) = true)
    (apart : (Path.ofNames script).same file = false) (flavor : Flavor.of file = .other)
    (there : (Text.lines text)[n]? =
      some (kind.line (Path.relative dir script).chars (Path.ofNames script).chars)) :
    ∃ x ∈ findings i root file text, x.script.same (Path.ofNames script) = true ∧
      x.file.same file = true ∧ x.line = n + 1 ∧ x.kind = kind := by
  have full := Path.isEmpty_ofNames h.isName h.nonempty
  have resolved : ∃ q ∈ i.resolve (.path (String.ofList (kind.said
      (Path.relative dir script).chars (Path.ofNames script).chars))) kind file root,
      q.same (Path.ofNames script) = true :=
    Index.exists_mem_resolve (kind.said_leads h seen) full archived
  obtain ⟨q, hq, same⟩ := resolved
  have other : q.same file = false := by
    refine Bool.eq_false_iff.2 fun self => ?_
    rw [Path.same_trans (Path.same_symm same) self] at apart
    exact Bool.noConfusion apart
  have found : (⟨q, file, n + 1, kind, snippet (kind.line (Path.relative dir script).chars
      (Path.ofNames script).chars)⟩ : Finding) ∈ lineFindings i root file (Flavor.of file)
        (kind.line (Path.relative dir script).chars (Path.ofNames script).chars) (n + 1) := by
    have said := mem_specifiersOf kind (h.relative dir).nonempty h.written.nonempty
      (h.relative dir).plain h.written.plain
    rw [flavor]
    refine List.mem_flatMap.2 ⟨(kind, _), List.mem_flatMap.2 ⟨kind, ?_,
      List.mem_map.2 ⟨_, said, rfl⟩⟩, List.mem_map.2 ⟨q, List.mem_filter.2 ⟨hq, ?_⟩, rfl⟩⟩
    · cases kind <;> decide
    · rw [other]
      rfl
  have numbered : (kind.line (Path.relative dir script).chars (Path.ofNames script).chars, n + 1) ∈
      (Text.lines text).zipIdx 1 :=
    List.mk_mem_zipIdx_iff_le_and_getElem?_sub.2 ⟨Nat.le_add_left 1 n, there⟩
  have listed := (List.mem_flatMap (f := fun x : List Char × Nat =>
    lineFindings i root file (Flavor.of file) x.1 x.2)).2 ⟨_, numbered, found⟩
  obtain ⟨x, hx, key⟩ := Order.exists_mem_sortDistinct Finding.before_byKey listed
  obtain ⟨script, file, line, kind⟩ := Finding.of_key key
  exact ⟨x, hx, Path.same_trans script same, file, line, kind⟩

end

end Reference

/-! ### Inspections -/

namespace Inspection

open Reference

variable {i : Inspection} {r : Repository} {t : Tree} {file : Path} {text : String}
variable {entries : List Ledger.Entry} {e : Ledger.Entry} {dir script : List String} {n : Nat}
variable {kind : Kind}

/-- A file that an inspection reads as text: the walk comes to it, it is not
large, it does not look binary, and its imports are not those of Python. -/
structure Reads (i : Inspection) (t : Tree) (file : Path) (text : String) : Prop where
  reached : file ∈ (i.scanner.files t i.searchRoots i.excludeDirs).1
  holds : ∃ mode, t.readFile (i.scanner.root.join file) = .ok (mode, text.toByteArray)
  small : text.toByteArray.size ≤ i.scanner.maxFileBytes
  textual : Scan.looksBinary text.toByteArray = false
  flavor : Flavor.of file = .other

theorem Reads.scanFile (h : i.Reads t file text) (index : Index) :
    i.scanner.scanFile t index file = .ok (findings index i.scanner.root file text.toList) := by
  obtain ⟨mode, holds⟩ := h.holds
  unfold Scan.Scanner.scanFile
  rw [Tree.readFile_eq_ok.1 holds]
  simp only [Nat.not_lt.2 h.small, if_false, h.textual, Bool.false_eq_true, Text.decode_utf8]

/-- What is found in a file that is read is reported. -/
theorem Reads.exists_mem_scan (h : i.Reads t file text) {paths : List Path} {x : Finding}
    (some : (Index.ofPaths paths).isEmpty = false)
    (hx : x ∈ findings (Index.ofPaths paths) i.scanner.root file text.toList) :
    ∃ y ∈ (i.scanner.scan t paths i.searchRoots i.excludeDirs).findings, y.key = x.key := by
  unfold Scan.Scanner.scan
  simp only [some, Bool.false_eq_true, if_false]
  refine Order.exists_mem_sortDistinct Finding.before_byKey (List.mem_flatMap.2 ⟨_,
    List.mem_map.2 ⟨file, h.reached, h.scanFile _⟩, hx⟩)

def plainText : String := "import x from \x27../scripts/a.ts\x27\n"

def plainEntry : Ledger.Entry := .fresh ⟨"scripts/a.ts"⟩ ⟨"z/a.ts"⟩ "b1" ⟨⟨2025, 6, 1⟩, 0, 0⟩ ""

def plainRepository : Repository where
  tree := ⟨[(["b"], .folder), (["b", "repo"], .folder), (["b", "repo", "app"], .folder),
    (["b", "repo", "app", "main.ts"], .file 0o644 plainText.toByteArray)]⟩
  entries := [plainEntry]

/-- An inspection of a repository that searches one root. -/
def searching (searched : String) : Inspection :=
  ⟨⟨"/b/repo"⟩, .memory, fun _ => .ok [], fun _ _ => .valid, .standard ⟨"/b/repo"⟩,
    [⟨searched⟩], []⟩

theorem plainText_lines : (Text.lines plainText.toList)[0]? = some (Kind.line .staticImport
    (Path.relative ["app"] ["scripts", "a.ts"]).chars
    (Path.ofNames ["scripts", "a.ts"]).chars) := by
  decide +kernel

end Inspection
end Attic
