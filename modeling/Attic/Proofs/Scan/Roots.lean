import Attic.Proofs.Path.Saying
import Attic.Proofs.Reference.Merging
import Attic.Proofs.Scan.Copies
import Mathlib

/-!
# Roots of a scan

A scan shows a file under what its root says, seen from the repository, and the names
that lead down to it. Two paths are one file of the scan if they say the same, so
overlapping roots list a file once if they are spelled alike. A `..` in a root stays
as it is written, and such a root lists a file again that another root comes to.

Key definitions: `Scan.rootComponents`, `Scan.Roundabout`, `Scan.Once`,
`Scan.Scanner.Twice`.
Key theorems: `Scan.components_seen`, `Scan.components_of_normal`,
`Scan.Scanner.once_iff`, `Scan.Scanner.files_once`.
-/

namespace Attic
namespace Scan

open Settings (resolve)

variable {s : Scanner} {t : Tree} {root start r r' p f g : Path} {roots dirs : List Path}
variable {names : List String} {cs : List Path.Component} {c : Path.Component}

/-! ### What a scan shows of a root -/

/-- What a relative root says, seen from the repository. A dot at its start stays only
behind an empty path. -/
def rootComponents (root r : Path) : List Path.Component :=
  if root.isEmpty then r.components else r.components.filter (· ≠ .here)

theorem components_seenFrom (below : p.components = root.components ++ cs) :
    (seenFrom root p).components = cs := by
  have starts : p.startsWith root = true := by
    rw [Path.startsWith, List.isPrefixOf_iff_prefix, below]
    exact List.prefix_append _ _
  obtain ⟨b, left⟩ : ∃ b, p.below? root = some b := by
    unfold Path.below?
    rw [if_pos starts]
    split <;> exact ⟨_, rfl⟩
  rw [seenFrom, left, Option.getD_some]
  exact List.append_cancel_left ((Path.components_below? left).symm.trans below)

theorem seenFrom_apart (apart : ¬ root.components <+: p.components) : seenFrom root p = p := by
  have starts : p.startsWith root = false := by
    rw [Bool.eq_false_iff, Path.startsWith, ne_eq, List.isPrefixOf_iff_prefix]
    exact apart
  rw [seenFrom, Path.below?, starts]
  rfl

theorem components_resolve (relative : r.isAbsolute = false) :
    (resolve root r).components = root.components ++ rootComponents root r := by
  rw [resolve, relative, if_neg Bool.false_ne_true, rootComponents]
  cases written : root.isEmpty with
  | false => exact Path.components_join written relative
  | true =>
    rw [Path.eq_of_isEmpty written, Path.empty_join]
    rfl

/-- **A scan shows a file under what its root says and the names down to it.** -/
theorem components_seen (relative : r.isAbsolute = false) (isName : ∀ n ∈ names, Path.IsName n) :
    (seenFrom root ((resolve root r).down names)).components =
      rootComponents root r ++ names.map .name := by
  refine components_seenFrom ?_
  rw [Path.components_down isName, components_resolve relative, List.append_assoc]

/-- What a scan shows besides names, its root says. -/
theorem said_of_seen (isName : ∀ n ∈ names, Path.IsName n)
    (said : c ∈ (seenFrom root ((resolve root r).down names)).components) :
    (∃ n, c = .name n) ∨ c ∈ r.components ∧ (c = .here → root.isEmpty = true) := by
  have named {cs : List Path.Component} (h : c ∈ cs ++ names.map .name) :
      c ∈ cs ∨ ∃ n, c = .name n := by
    refine (List.mem_append.1 h).imp_right fun h => ?_
    obtain ⟨n, -, rfl⟩ := List.mem_map.1 h
    exact ⟨n, rfl⟩
  cases absolute : r.isAbsolute with
  | false =>
    rw [components_seen absolute isName] at said
    refine (named said).symm.imp_right fun own => ?_
    unfold rootComponents at own
    split at own
    · next empty => exact ⟨own, fun _ => empty⟩
    · obtain ⟨own, here⟩ := List.mem_filter.1 own
      exact ⟨own, fun e => absurd e (by simpa using here)⟩
  | true =>
    have whole : (resolve root r).down names = r.down names := by rw [resolve, absolute, if_pos rfl]
    have within : c ∈ r.components ++ names.map .name := by
      rw [whole] at said
      rw [← Path.components_down isName]
      by_cases below : root.components <+: (r.down names).components
      · obtain ⟨cs, below⟩ := below
        rw [components_seenFrom below.symm] at said
        rw [← below]
        exact List.mem_append_right _ said
      · rwa [seenFrom_apart below] at said
    refine (named within).symm.imp_right fun own => ⟨own, ?_⟩
    rintro rfl
    have lead := Path.lead_of_mem_here own
    rw [Path.lead_of_isAbsolute absolute] at lead
    simp at lead

/-- Whether a root is spelled with a component that stays and is no name: `..` or,
behind an empty path, a dot at its start. -/
def Roundabout (root r : Path) : Prop :=
  .up ∈ r.components ∨ root.isEmpty = true ∧ .here ∈ r.components

/-- From other roots a path that has a normal form is shown as this form says it. -/
theorem components_of_normal (straight : ¬ Roundabout root r) (isName : ∀ n ∈ names, Path.IsName n)
    {ns : List String} (normal : (seenFrom root ((resolve root r).down names)).names? = some ns) :
    (seenFrom root ((resolve root r).down names)).components = ns.map .name := by
  have named : ∀ c ∈ (seenFrom root ((resolve root r).down names)).components,
      c ∈ Set.range Path.Component.name := by
    intro c hc
    obtain ⟨n, rfl⟩ | ⟨own, here⟩ := said_of_seen isName hc
    · exact ⟨n, rfl⟩
    cases c with
    | root =>
      have absolute := Path.isAbsolute_of_lead (Path.lead_of_mem_root hc)
      simp [Path.names?_of_isAbsolute absolute] at normal
    | here => exact absurd (.inr ⟨here rfl, own⟩) straight
    | up => exact absurd (.inl own) straight
    | name n => exact ⟨n, rfl⟩
  obtain ⟨ks, said⟩ : ∃ ks : List String, ks.map Path.Component.name = _ := by
    rw [← Set.mem_range, Set.range_list_map]
    exact named
  rw [Path.names?, ← said, Path.climb_names, List.append_nil, Option.map_some,
    List.reverse_reverse] at normal
  rw [← said, Option.some.inj normal]

/-! ### Files that are listed once -/

/-- Whether no two of some files have one normal form. -/
def Once (files : List Path) : Prop :=
  ∀ f ∈ files, ∀ g ∈ files, ∀ p, f.normalize? = some p → g.normalize? = some p → f = g

theorem Once.subset {files listed : List Path} (once : Once files) (within : listed ⊆ files) :
    Once listed := fun f hf g hg => once f (within hf) g (within hg)

theorem Stands.isName (stands : Stands t start names) (named : t.Named) :
    ∀ n ∈ names, Path.IsName n := by
  cases stands with
  | itself => simp
  | below folder begun file folders =>
    exact fun n hn => named _ file n (List.mem_append_right _ hn)

/-- Whether two roots lead a scan to one file under two paths. -/
def Scanner.Twice (s : Scanner) (t : Tree) (dirs : List Path) (r r' : Path) : Prop :=
  ∃ names names' f f' p, s.ComesTo t dirs (resolve s.root r) names f ∧
    s.ComesTo t dirs (resolve s.root r') names' f' ∧
    f.normalize? = some p ∧ f'.normalize? = some p ∧ f.same f' = false

theorem Scanner.Twice.symm (h : s.Twice t dirs r r') : s.Twice t dirs r' r := by
  obtain ⟨names, names', f, f', p, came, came', hp, hp', apart⟩ := h
  refine ⟨names', names, f', f, p, came', came, hp', hp, Bool.eq_false_iff.2 fun same => ?_⟩
  simp [Path.same_symm same] at apart

/-- Roots that are spelled straight lead to a file of one normal form under one path. -/
theorem Scanner.Twice.roundabout (h : s.Twice t dirs r r') (named : t.Named) :
    Roundabout s.root r ∨ Roundabout s.root r' := by
  by_contra straight
  obtain ⟨straight, straight'⟩ := not_or.1 straight
  obtain ⟨names, names', f, f', p, came, came', hp, hp', apart⟩ := h
  obtain ⟨ns, hns, hns'⟩ := Path.exists_names_of_normalize? hp hp'
  have said {r f : Path} {names : List String} (came : s.ComesTo t dirs (resolve s.root r) names f)
      (straight : ¬ Roundabout s.root r) (hns : f.names? = some ns) :
      f.components = ns.map .name := by
    have seen := Path.same_iff.1 came.seen
    rw [Path.names?, ← seen] at hns
    rw [← seen]
    exact components_of_normal straight (came.stands.isName named) hns
  have same : f.same f' = true :=
    Path.same_iff.2 ((said came straight hns).trans (said came' straight' hns').symm)
  simp [same] at apart

/-- **A scan lists each file once** if and only if no roundabout root comes to a file
that another root comes to under another path. -/
theorem Scanner.once_iff (s : Scanner) (roots dirs : List Path) (named : t.Named) :
    Once (s.files t roots dirs).1 ↔
      ∀ r ∈ roots, Roundabout s.root r → ∀ r' ∈ roots, ¬ s.Twice t dirs r r' := by
  constructor
  · rintro once r hr - r' hr' ⟨names, names', f, f', p, came, came', hp, hp', apart⟩
    obtain ⟨g, hg, same⟩ := (s.mem_files t roots dirs f).2 ⟨r, hr, names, came⟩
    obtain ⟨g', hg', same'⟩ := (s.mem_files t roots dirs f').2 ⟨r', hr', names', came'⟩
    obtain rfl := once g hg g' hg' p ((Path.normalize?_congr same).trans hp)
      ((Path.normalize?_congr same').trans hp')
    simp [Path.same_trans (Path.same_symm same) same'] at apart
  · intro apart f hf g hg p hp hp'
    by_contra other
    have differ : f.same g = false := Bool.eq_false_iff.2 fun same =>
      other ((s.files_ascends t roots dirs).one f hf g hg (Path.key_eq_iff.2 same))
    obtain ⟨r, hr, names, came⟩ := (s.mem_files t roots dirs f).1 ⟨f, hf, Path.same_refl f⟩
    obtain ⟨r', hr', names', came'⟩ := (s.mem_files t roots dirs g).1 ⟨g, hg, Path.same_refl g⟩
    have twice : s.Twice t dirs r r' := ⟨names, names', f, g, p, came, came', hp, hp', differ⟩
    rcases twice.roundabout named with roundabout | roundabout
    · exact apart r hr roundabout r' hr' twice
    · exact apart r' hr' roundabout r hr twice.symm

/-- Straight roots list each file once, however they overlap. -/
theorem Scanner.once_of_straight (s : Scanner) (dirs : List Path) (named : t.Named)
    (straight : ∀ r ∈ roots, ¬ Roundabout s.root r) : Once (s.files t roots dirs).1 :=
  (s.once_iff roots dirs named).2 fun r hr roundabout => absurd roundabout (straight r hr)

theorem file_of_mem_findings {index : Reference.Index} {text : List Char} {a : Reference.Finding}
    (ha : a ∈ Reference.findings index root f text) : a.file = f := by
  obtain ⟨line, -, ha⟩ := List.mem_flatMap.1
    (List.mem_mergeSort.1 (Order.mem_of_mem_dropRepeats ha))
  obtain ⟨detected, -, ha⟩ := List.mem_flatMap.1 ha
  obtain ⟨script, -, rfl⟩ := List.mem_map.1 ha
  rfl

theorem file_of_mem_found {index : Reference.Index} {a : Reference.Finding}
    (ha : a ∈ s.found t index f) : a.file = f := by
  unfold Scanner.found Scanner.scanFile at ha
  split at ha
  · next files read =>
    split at read
    · simp at read
    · split_ifs at read
      · obtain rfl := Except.ok.inj read
        simp at ha
      · obtain rfl := Except.ok.inj read
        exact file_of_mem_findings ha
    · simp at read
  · simp at ha

/-- A scan reports files that it lists. -/
theorem Scanner.findings_subset (s : Scanner) (t : Tree) (archived roots dirs : List Path) :
    (s.scan t archived roots dirs).findings.map Reference.Finding.file ⊆
      (s.files t roots dirs).1 := by
  intro file hfile
  obtain ⟨a, ha, rfl⟩ := List.mem_map.1 hfile
  rw [scan_findings] at ha
  split at ha
  · simp at ha
  obtain ⟨f, hf, found⟩ := List.mem_flatMap.1
    (List.mem_mergeSort.1 (Order.mem_of_mem_dropRepeats ha))
  rwa [file_of_mem_found found]

/-- **A file is listed once, and its lines are reported once**, unless a root is spelled
roundabout and comes to it under another path than another root. -/
theorem Scanner.files_once (s : Scanner) (roots dirs : List Path) (named : t.Named) :
    (Once (s.files t roots dirs).1 ↔
      ∀ r ∈ roots, Roundabout s.root r → ∀ r' ∈ roots, ¬ s.Twice t dirs r r') ∧
    (Once (s.files t roots dirs).1 → ∀ archived,
      Once ((s.scan t archived roots dirs).findings.map Reference.Finding.file)) :=
  ⟨s.once_iff roots dirs named, fun once archived =>
    once.subset (s.findings_subset t archived roots dirs)⟩

def appsTree : Tree := ⟨[(["r"], .folder), (["r", "apps"], .folder), (["r", "web"], .folder),
  (["r", "apps", "page.ts"], .file 0o644 "import b from '../scripts/b'\n".toByteArray)]⟩

def appsRoots : List Path := [⟨"apps"⟩, ⟨"web/../apps"⟩]

/-- The file of a root that is given once more, by way of a sibling, is listed twice. -/
theorem files_once_roundabout : appsTree.Named ∧
    ((Scanner.standard ⟨"/r"⟩).files appsTree appsRoots []).1 =
      [⟨"apps/page.ts"⟩, ⟨"web/../apps/page.ts"⟩] ∧
    ¬ Once ((Scanner.standard ⟨"/r"⟩).files appsTree appsRoots []).1 ∧
    ∃ r ∈ appsRoots, Roundabout ⟨"/r"⟩ r ∧
      ∃ r' ∈ appsRoots, (Scanner.standard ⟨"/r"⟩).Twice appsTree [] r r' := by
  have named : appsTree.Named := by decide +kernel
  have files : ((Scanner.standard ⟨"/r"⟩).files appsTree appsRoots []).1 =
      [⟨"apps/page.ts"⟩, ⟨"web/../apps/page.ts"⟩] := by
    have read : appsRoots.flatMap (fun r => walked appsTree ⟨"/r"⟩ (Excludes.of [] [])
        (resolve ⟨"/r"⟩ r)) = [⟨"apps/page.ts"⟩, ⟨"web/../apps/page.ts"⟩] := by decide +kernel
    rw [Scanner.files_eq]
    refine (congrArg (Order.sortDistinct Path.before) read).trans ?_
    exact Order.sortDistinct_of_ascends Path.before_byKey (by decide +kernel)
  have twice : ¬ Once ((Scanner.standard ⟨"/r"⟩).files appsTree appsRoots []).1 := by
    rw [files]
    intro once
    have same := once ⟨"apps/page.ts"⟩ (by simp) ⟨"web/../apps/page.ts"⟩ (by simp)
      ⟨"apps/page.ts"⟩ (by decide +kernel) (by decide +kernel)
    simp at same
  have iff := ((Scanner.standard ⟨"/r"⟩).files_once appsRoots [] named).1
  have some := mt iff.2 twice
  push Not at some
  exact ⟨named, files, twice, some⟩

end Scan
end Attic
