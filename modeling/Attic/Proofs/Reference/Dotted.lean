import Attic.Proofs.Reference.Ending
import Attic.Text.Word
import Mathlib

/-!
# Dotted modules

The parts of a dotted module are the names of a path. The module is looked for there as
a file and as a package: with leading dots in the folder of the file or, for each further
dot, one folder up, and nowhere if there is none; without them at the root, beside the
file and, if it has more than one part, at the end of every path.

Key definitions: `Reference.dotted`, `Reference.IsPart`, `Reference.IsModule`.
Key theorems: `Reference.modulePath_dotted`, `Reference.climbTimes_ofNames`,
`Reference.mem_moduleAt`, `Reference.mem_resolve_module_iff`.
-/

namespace Attic

namespace Reference

variable {paths : List Path} {p root : Path} {kind : Kind}
variable {dir front parts b : List String} {m s : String}

/-! ### Parts -/

/-- The text of a module. -/
def dotted (parts : List String) : List Char := Text.glue '.' (parts.map String.toList)

/-- What can be a part of a module: nothing that separates modules or folders. -/
structure IsPart (s : String) : Prop where
  nonempty : s.toList ≠ []
  no_dot : '.' ∉ s.toList
  no_slash : '/' ∉ s.toList

namespace IsPart

/-- Words can be parts. -/
theorem of_word (nonempty : s.toList ≠ []) (word : s.toList.all Text.isWordChar = true) :
    IsPart s := by
  rw [List.all_eq_true] at word
  refine ⟨nonempty, fun dot => ?_, fun slash => ?_⟩
  · exact absurd (word _ dot) (by decide)
  · exact absurd (word _ slash) (by simp [Text.not_isWordChar_slash])

theorem isName (h : IsPart s) : Path.IsName s := by
  refine ⟨h.nonempty, h.no_slash, ?_, ?_⟩
  · rintro rfl
    exact h.no_dot (by decide)
  · rintro rfl
    exact h.no_dot (by decide)

theorem splitDot (h : IsPart s) : Path.splitDot s.toList = (s.toList, none) := by
  rcases Path.splitDot_cases s.toList with split | ⟨before, after, text, -⟩
  · exact split
  · exact absurd (text ▸ by simp) h.no_dot

theorem extended (h : IsPart s) : Path.extended s "py" = s ++ ".py" := by
  have dot : s.toList ≠ ['.'] := fun e => h.no_dot (by simp [e])
  apply String.toList_injective
  rw [Path.extended, h.splitDot, if_neg dot]
  simp

end IsPart

/-- **The parts of a module are the names of a path.** -/
theorem modulePath_dotted (h : ∀ a ∈ parts, IsPart a) (some : parts ≠ []) :
    modulePath (dotted parts) = Path.ofNames parts := by
  have cut : Text.cutEach '.' (dotted parts) = parts.map String.toList := by
    refine Text.cutEach_glue (by simpa using some) fun piece hp => ?_
    obtain ⟨a, ha, rfl⟩ := List.mem_map.1 hp
    exact (h a ha).no_dot
  have all : (parts.map String.toList).filter (· ≠ []) = parts.map String.toList := by
    rw [List.filter_eq_self]
    intro piece hp
    obtain ⟨a, ha, rfl⟩ := List.mem_map.1 hp
    simpa using (h a ha).nonempty
  have joined (ns ms : List String) (hns : ∀ a ∈ ns, Path.IsName a) (hms : ∀ a ∈ ms, IsPart a) :
      (ms.map String.toList).foldl (fun p s => p.join (Path.ofChars s)) (Path.ofNames ns) =
        Path.ofNames (ns ++ ms) := by
    induction ms generalizing ns with
    | nil => simp
    | cons m ms ih =>
      obtain ⟨hm, hms⟩ := List.forall_mem_cons.1 hms
      rw [List.map_cons, List.foldl_cons, Path.ofChars, String.ofList_toList,
        Path.ofNames_join hns hm.isName, ih _ (Path.isName_concat hns hm.isName) hms,
        List.append_assoc, List.singleton_append]
  rw [modulePath, cut, all]
  exact joined [] parts (by simp) h

/-- Each time a folder of names is left for the one above, until there is none. -/
theorem climbTimes_ofNames (h : ∀ a ∈ b, Path.IsName a) (n : ℕ) :
    climbTimes n (Path.ofNames b) =
      if n ≤ b.length then some (Path.ofNames (b.take (b.length - n))) else none := by
  induction n generalizing b with
  | zero => simp [climbTimes]
  | succ n ih =>
    rcases List.eq_nil_or_concat b with rfl | ⟨ms, m, rfl⟩
    · rfl
    · rw [List.concat_eq_append] at h ⊢
      have before : ∀ a ∈ ms, Path.IsName a := fun a ha => h a (List.mem_append_left _ ha)
      rw [climbTimes, Path.parent?_ofNames before (h m (by simp)), Option.bind_some, ih before,
        List.length_append, List.length_singleton, Nat.add_sub_add_right,
        List.take_append_of_le_length (Nat.sub_le _ _)]
      simp only [Nat.add_le_add_iff_right]

/-! ### Where a module is -/

/-- Whether a script is a module in a folder, as a file or as a package. -/
def IsModuleIn (dir front : List String) (m : String) (p : Path) : Prop :=
  p = Path.ofNames (dir ++ front ++ [m ++ ".py"]) ∨
    p = Path.ofNames (dir ++ front ++ [m, "__init__.py"])

/-- Whether a script is a module in the folder that so many leading dots say in the folder
`b`. Without any it can be at the root, in `b` and, with several parts, in every folder. -/
def IsModule (b front : List String) (m : String) (level : ℕ) (p : Path) : Prop :=
  match level with
  | 0 => IsModuleIn [] front m p ∨ IsModuleIn b front m p ∨
      (front ≠ [] ∧ ∃ dir, (∀ a ∈ dir, Path.IsName a) ∧ IsModuleIn dir front m p)
  | n + 1 => n ≤ b.length ∧ IsModuleIn (b.take (b.length - n)) front m p

theorem mem_exactly_ofNames {ns : List String} (h : ∀ a ∈ ns, Path.IsName a) :
    p ∈ (Index.ofPaths paths).exactly (Path.ofNames ns) ↔
      p ∈ (Index.ofPaths paths).paths ∧ p = Path.ofNames ns := by
  rw [mem_exactly (Path.ofNames_isNormal h)]
  refine and_congr_right fun archived => ⟨fun same => ?_, fun same => same ▸ Path.same_refl _⟩
  obtain ⟨-, a, -, normal⟩ := mem_ofPaths.1 archived
  exact (Path.isNormal_of_normalize? normal).eq_of_same (Path.ofNames_isNormal h) same

/-- From its end a path with an extension of no family finds what ends with it. -/
theorem mem_endingIn_ofNames {ns : List String} (h : ∀ a ∈ ns, Path.IsName a) {e : String}
    (ext : (Path.ofNames ns).extension? = some e) (other : e ∉ scriptFamily) :
    p ∈ (Index.ofPaths paths).endingIn (Path.ofNames ns) ↔
      p ∈ (Index.ofPaths paths).paths ∧
        ∃ dir, (∀ a ∈ dir, Path.IsName a) ∧ p = Path.ofNames (dir ++ ns) := by
  have written : (Path.ofNames ns).isEmpty = false := by
    refine Path.isEmpty_ofNames h ?_
    rintro rfl
    exact absurd (ext.symm.trans (show (Path.ofNames []).extension? = none by decide)) (by simp)
  have family : inFamily (Path.ofNames ns) = false := by
    rw [inFamily, ext]
    simpa using other
  rw [mem_endingIn written]
  refine and_congr_right fun archived => ?_
  obtain ⟨-, a, -, normal⟩ := mem_ofPaths.1 archived
  obtain ⟨names, rfl, isName⟩ := (Path.isNormal_of_normalize? normal).exists_names
  have ends : Index.endsIn (Path.ofNames ns) (Path.ofNames names) = true ↔ ns <:+ names := by
    rw [Index.endsIn, ext, family, Option.isNone_some, Bool.false_and, Bool.false_and,
      Bool.false_and, Bool.or_false, Bool.or_false, Path.endsWith_iff, Path.components_ofNames h,
      Path.components_ofNames isName,
      List.suffix_map_iff_of_injective Path.Component.name_injective]
  rw [ends]
  constructor
  · rintro ⟨dir, rfl⟩
    exact ⟨dir, fun a ha => isName a (List.mem_append_left _ ha), rfl⟩
  · rintro ⟨dir, hdir, same⟩
    have all : ∀ a ∈ dir ++ ns, Path.IsName a := by
      simpa only [List.forall_mem_append] using ⟨hdir, h⟩
    have names := congrArg Path.names? same
    rw [Path.names?_ofNames isName, Path.names?_ofNames all] at names
    exact ⟨dir, (Option.some.inj names).symm⟩

/-! ### Where a module is found -/

section

variable (hfront : ∀ a ∈ front, IsPart a) (hm : IsPart m)

include hm

theorem isName_moduleFile : Path.IsName (m ++ ".py") := by
  have long : (m ++ ".py").toList.length = m.toList.length + 3 := by simp
  refine ⟨by simp, by simp [hm.no_slash], fun dot => ?_, fun up => ?_⟩
  · rw [dot] at long
    exact absurd long (by simp)
  · rw [up] at long
    exact absurd long (by simp)

include hfront

theorem mem_moduleAt (hdir : ∀ a ∈ dir, Path.IsName a) :
    p ∈ (Index.ofPaths paths).moduleAt (Path.ofNames (dir ++ (front ++ [m]))) ↔
      p ∈ (Index.ofPaths paths).paths ∧ IsModuleIn dir front m p := by
  have before : ∀ a ∈ dir ++ front, Path.IsName a := by
    simpa only [List.forall_mem_append] using ⟨hdir, fun a ha => (hfront a ha).isName⟩
  have package : Path.IsName "__init__.py" := by decide
  rw [Index.moduleAt, ← List.append_assoc, Path.withExtension_ofNames before hm.isName,
    hm.extended, Path.ofNames_join (Path.isName_concat before hm.isName) package,
    List.append_assoc (dir ++ front), List.singleton_append, List.mem_append,
    mem_exactly_ofNames (Path.isName_concat before (isName_moduleFile hm)),
    mem_exactly_ofNames (Path.isName_pair before hm.isName package), ← and_or_left]
  rfl

theorem mem_endingIn_module :
    p ∈ (Index.ofPaths paths).endingIn ((Path.ofNames (front ++ [m])).withExtension "py") ++
        (Index.ofPaths paths).endingIn ((Path.ofNames (front ++ [m])).join ⟨"__init__.py"⟩) ↔
      p ∈ (Index.ofPaths paths).paths ∧
        ∃ dir, (∀ a ∈ dir, Path.IsName a) ∧ IsModuleIn dir front m p := by
  have before : ∀ a ∈ front, Path.IsName a := fun a ha => (hfront a ha).isName
  have package : Path.IsName "__init__.py" := by decide
  have file := isName_moduleFile hm
  have ext : (Path.ofNames (front ++ [m ++ ".py"])).extension? = some "py" := by
    rw [Path.extension?_ofNames before file, String.toList_append,
      show ".py".toList = '.' :: "py".toList by rfl, Path.splitDot_append hm.nonempty (by decide)]
    simp
  have ext' : (Path.ofNames (front ++ [m, "__init__.py"])).extension? = some "py" := by
    rw [List.append_cons, Path.extension?_ofNames (Path.isName_concat before hm.isName) package]
    decide
  rw [Path.withExtension_ofNames before hm.isName, hm.extended,
    Path.ofNames_join (Path.isName_concat before hm.isName) package, List.append_assoc,
    List.singleton_append, List.mem_append,
    mem_endingIn_ofNames (Path.isName_concat before file) ext (by decide),
    mem_endingIn_ofNames (Path.isName_pair before hm.isName package) ext' (by decide),
    ← and_or_left]
  simp only [IsModuleIn, List.append_assoc, and_or_left, exists_or]

theorem mem_ofModule_iff (hb : ∀ a ∈ b, Path.IsName a) (level : ℕ) :
    p ∈ (Index.ofPaths paths).ofModule (Path.ofNames b) (dotted (front ++ [m])) level ↔
      p ∈ (Index.ofPaths paths).paths ∧ IsModule b front m level p := by
  have parts : ∀ a ∈ front ++ [m], IsPart a := by
    simpa only [List.forall_mem_append, List.forall_mem_singleton] using ⟨hfront, hm⟩
  have isName : ∀ a ∈ front ++ [m], Path.IsName a := fun a ha => (parts a ha).isName
  have some : front ++ [m] ≠ [] := by simp
  rw [Index.ofModule, modulePath_dotted parts some]
  cases level with
  | zero =>
    have joined := Path.ofNames_join_ofNames hb isName some
    have several : 2 ≤ (Path.ofNames (front ++ [m])).components.length ↔ front ≠ [] := by
      rw [Path.components_ofNames isName, List.length_map, List.length_append,
        List.length_singleton, ← List.length_pos_iff]
      omega
    have atRoot : p ∈ (Index.ofPaths paths).moduleAt (Path.ofNames ([] ++ (front ++ [m]))) ↔
        p ∈ (Index.ofPaths paths).paths ∧ IsModuleIn [] front m p :=
      mem_moduleAt hfront hm (by simp)
    rw [List.nil_append] at atRoot
    simp only [IsModule]
    rw [if_neg (lt_irrefl 0), Path.isEmpty_ofNames isName some, if_neg Bool.false_ne_true, joined,
      List.mem_append, List.mem_append, atRoot, mem_moduleAt hfront hm hb]
    by_cases more : front = []
    · rw [if_neg (mt several.1 (not_not_intro more))]
      simp [more, and_or_left]
    · rw [if_pos (several.2 more), mem_endingIn_module hfront hm]
      simp only [more, ne_eq, not_false_eq_true, true_and, and_or_left, or_assoc]
  | succ n =>
    simp only [IsModule]
    rw [if_pos (Nat.succ_pos n), Nat.add_sub_cancel, climbTimes_ofNames hb]
    by_cases high : n ≤ b.length
    · have above : ∀ a ∈ b.take (b.length - n), Path.IsName a := fun a ha =>
        hb a (List.mem_of_mem_take ha)
      rw [if_pos high]
      simp only [high, true_and]
      rw [Path.ofNames_join_ofNames above isName some, mem_moduleAt hfront hm above]
    · rw [if_neg high]
      simp [high]

/-- **A dotted module finds its file and its package where it says, and nowhere else.** -/
theorem mem_resolve_module_iff (kind : Kind) (root : Path) {name : String}
    (hb : ∀ a ∈ b, Path.IsName a) (hname : Path.IsName name) (level : ℕ) :
    p ∈ (Index.ofPaths paths).resolve (.module (String.ofList (dotted (front ++ [m]))) level)
        kind (Path.ofNames (b ++ [name])) root ↔
      p ∈ normalForms paths ∧ IsModule b front m level p := by
  have archived : p ∈ normalForms paths ↔ p ∈ (Index.ofPaths paths).paths :=
    mem_normalForms.trans mem_ofPaths.symm
  rw [Index.resolve, Path.parent_ofNames hb hname]
  simp only [String.toList_ofList]
  rw [mem_unlessEmpty fun a ha => ((mem_ofModule_iff hfront hm hb level).1 ha).1,
    mem_ofModule_iff hfront hm hb, archived]

end

/-- From `app/sub/run.py` the module `..pkg.tool` is the package in `app`, and `....pkg.tool`
would be above the root. -/
theorem mem_resolve_module_iff_up :
    (⟨"app/pkg/tool/__init__.py"⟩ : Path) ∈
        (Index.ofPaths [⟨"app/pkg/tool/__init__.py"⟩]).resolve
          (.module (String.ofList (dotted (["pkg"] ++ ["tool"]))) 2) .staticImport
          (Path.ofNames (["app", "sub"] ++ ["run.py"])) ⟨"/repo"⟩ ∧
      (⟨"app/pkg/tool/__init__.py"⟩ : Path) ∉
        (Index.ofPaths [⟨"app/pkg/tool/__init__.py"⟩]).resolve
          (.module (String.ofList (dotted (["pkg"] ++ ["tool"]))) 4) .staticImport
          (Path.ofNames (["app", "sub"] ++ ["run.py"])) ⟨"/repo"⟩ := by
  have front : ∀ a ∈ ["pkg"], IsPart a := by
    simpa using (IsPart.of_word (by decide) (by decide) : IsPart "pkg")
  have tool : IsPart "tool" := .of_word (by decide) (by decide)
  have folder : ∀ a ∈ ["app", "sub"], Path.IsName a := by decide
  constructor
  · rw [mem_resolve_module_iff front tool .staticImport ⟨"/repo"⟩ folder (by decide)]
    exact ⟨by decide, by decide, .inr (by decide)⟩
  · rw [mem_resolve_module_iff front tool .staticImport ⟨"/repo"⟩ folder (by decide)]
    exact fun found => absurd found.2.1 (by decide)

end Reference
end Attic
