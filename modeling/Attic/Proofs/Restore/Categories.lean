import Attic.Proofs.Order.Merged
import Attic.Proofs.Path.Named
import Attic.Restore.Criteria
import Mathlib

/-!
# Which category a path has

A key of the categories is for the paths that start with its components. Of the keys
that are for a path the one that is longest as a text counts, and of equally long ones
the first in order. That is not always the one with the most components: a key that is
written with more slashes than it needs can be longer than that of a folder below it,
which is then hidden. A path for which there is no key has its folder as category.

Key definitions: `Restore.Covers`, `Restore.Precedes`, `Restore.Folder`,
`Restore.LongestWins`, `Restore.Unhidden`.
Key theorems: `Restore.categoryOf_of_covered`, `Restore.categoryOf_of_bare`,
`Restore.longest_wins_iff`.
-/

namespace Attic
namespace Restore

open Attic.Order (Ascends ByKey)

variable {categories : Order.Table String} {keys : List String} {c d : String × String}
variable {p : Path} {k l m : String}

/-- What the folder of a path is called: all but its last component, as the path
writes it, or a dot where no component is left. -/
inductive Folder (p : Path) : String → Prop
  | inside {q : Path} {c : Path.Component} (said : p.components = q.components ++ [c])
      (hne : q.components ≠ []) (written : q.chars <+: p.chars) : Folder p q.text
  | outermost (short : p.components.length ≤ 1) : Folder p "."

theorem folder_of_parent? :
    Folder p (match p.parent? with
      | some q => if q.isEmpty then "." else q.text
      | none => ".") := by
  split
  · next q parent =>
    obtain ⟨hne, said⟩ := Path.components_parent? parent
    split
    · next empty =>
      rw [Path.eq_of_isEmpty empty] at said
      have short : p.components.dropLast.length = 0 := by rw [← said]; rfl
      exact .outermost (by rw [List.length_dropLast] at short; omega)
    · next written =>
      refine .inside (c := p.components.getLast hne) ?_
        (Path.components_ne_nil (Bool.eq_false_iff.2 written)) (Path.parent_prefix parent)
      rw [said, List.dropLast_append_getLast]
  · next none => exact .outermost (Path.length_of_parent?_none none)

/-! ### Keys -/

/-- Whether a key is for a path: the path starts with its components, where slashes at
the end of the key do not count. -/
def Covers (key : String) (p : Path) : Prop := (prefixPath key).components <+: p.components

/-- How many components a key has. -/
def depth (key : String) : Nat := (prefixPath key).components.length

/-- Whether a key is tried before another: it is longer as a text, or as long and
before it in order. -/
def Precedes (k l : String) : Prop :=
  l.utf8ByteSize < k.utf8ByteSize ∨ k.utf8ByteSize = l.utf8ByteSize ∧ k < l

theorem Precedes.asymm (h : Precedes k l) : ¬ Precedes l k := by
  rintro (longer | ⟨same, lower⟩)
  · rcases h with longer' | ⟨same, -⟩ <;> omega
  · rcases h with longer' | ⟨-, lower'⟩
    · omega
    · exact lower.asymm lower'

theorem startsWith_iff : p.startsWith (prefixPath k) = true ↔ Covers k p :=
  List.isPrefixOf_iff_prefix

/-- Keys that are for one path lie in each other. -/
theorem Covers.total (hk : Covers k p) (hl : Covers l p) (deeper : depth k ≤ depth l) :
    (prefixPath k).components <+: (prefixPath l).components :=
  List.prefix_of_prefix_length_le hk hl deeper

/-- Keys are tried from the longest one on. -/
theorem byLength_byKey : ByKey (fun a b : String × String => b.1.utf8ByteSize < a.1.utf8ByteSize)
    fun a => OrderDual.toDual a.1.utf8ByteSize := by
  intro a b
  rw [decide_eq_true_eq]
  exact Iff.rfl

/-- **The tag of a covered path is that of the first key that is tried.** -/
theorem categoryOf_of_covered (up : Ascends Prod.fst categories)
    (covered : ∃ c ∈ categories, Covers c.1 p) :
    ∃ c ∈ categories, Covers c.1 p ∧
      (∀ d ∈ categories, Covers d.1 p → d = c ∨ Precedes c.1 d.1) ∧
      categoryOf categories p = c.2 := by
  unfold categoryOf
  dsimp only
  set tried := Order.sortBy
    (fun a b : String × String => b.1.utf8ByteSize < a.1.utf8ByteSize) categories with htried
  have mem {d : String × String} : d ∈ tried ↔ d ∈ categories := Order.mem_sortBy _ _
  have sorted := byLength_byKey.sorted categories
  rw [← htried] at sorted
  cases found : tried.find? fun c => p.startsWith (prefixPath c.1) with
  | none =>
    obtain ⟨c, hc, covers⟩ := covered
    exact absurd (startsWith_iff.2 covers) (List.find?_eq_none.1 found c (mem.2 hc))
  | some c =>
    have hc := mem.1 (List.mem_of_find?_eq_some found)
    have covers : p.startsWith (prefixPath c.1) = true := by simpa using List.find?_some found
    refine ⟨c, hc, startsWith_iff.1 covers, fun d hd covers => ?_, rfl⟩
    -- what stands before the key that is found is for other paths
    obtain ⟨-, before, after, split, others⟩ := List.find?_eq_some_iff_append.1 found
    have later : d = c ∨ d ∈ after := by
      have hd' := mem.2 hd
      rw [split, List.mem_append, List.mem_cons] at hd'
      rcases hd' with first | rest
      · have none := others d first
        rw [startsWith_iff.2 covers] at none
        exact absurd none (by simp)
      · exact rest
    refine later.imp_right fun hd' => ?_
    rw [split] at sorted
    have shorter : d.1.utf8ByteSize ≤ c.1.utf8ByteSize :=
      (List.pairwise_cons.1 (List.pairwise_append.1 sorted).2.1).1 d hd'
    rcases Nat.lt_or_eq_of_le shorter with less | same
    · exact .inl less
    -- keys of one length stay in the order of the table
    refine .inr ⟨same.symm, ?_⟩
    have kept := byLength_byKey.filter_sortBy (OrderDual.toDual c.1.utf8ByteSize) categories
    rw [← htried, split, List.filter_append, List.filter_cons_of_pos (by simp)] at kept
    have up' : Ascends Prod.fst (categories.filter fun a =>
        OrderDual.toDual a.1.utf8ByteSize = OrderDual.toDual c.1.utf8ByteSize) :=
      List.Pairwise.sublist List.filter_sublist up
    rw [← kept] at up'
    refine (List.pairwise_cons.1 (List.pairwise_append.1 up').2.1).1 d ?_
    exact List.mem_filter.2 ⟨hd', by simp [same]⟩

/-- A path for which there is no key has its folder as category. -/
theorem categoryOf_of_bare (bare : ∀ c ∈ categories, ¬ Covers c.1 p) :
    Folder p (categoryOf categories p) := by
  have none : ((Order.sortBy (fun a b : String × String => b.1.utf8ByteSize < a.1.utf8ByteSize)
      categories).find? fun c => p.startsWith (prefixPath c.1)) = none := by
    refine List.find?_eq_none.2 fun c hc starts => ?_
    exact bare c ((Order.mem_sortBy _ _).1 hc) (startsWith_iff.1 starts)
  unfold categoryOf
  simp only [none]
  exact folder_of_parent?

/-! ### The longest key -/

/-- Whether a path has the tag of a key with the most components of those that are for
it, or its folder as category where no key is. -/
structure LongestWins (categories : Order.Table String) (p : Path) : Prop where
  covered : (∃ c ∈ categories, Covers c.1 p) → ∃ c ∈ categories, Covers c.1 p ∧
    (∀ d ∈ categories, Covers d.1 p → depth d.1 ≤ depth c.1) ∧ categoryOf categories p = c.2
  bare : (∀ c ∈ categories, ¬ Covers c.1 p) → Folder p (categoryOf categories p)

/-- Whether no key hides one that lies in it: the one in it, or another spelling of
it, is tried first. Keys at the root of the file system are for no path. -/
def Unhidden (keys : List String) : Prop :=
  ∀ k ∈ keys, ∀ l ∈ keys, (prefixPath l).isAbsolute = false →
    (prefixPath k).components <+: (prefixPath l).components → depth k < depth l →
      ∃ m ∈ keys, (prefixPath m).same (prefixPath l) = true ∧ Precedes m k

/-- What starts a relative path is relative. -/
theorem Covers.relative (covers : Covers k p) (relative : p.isAbsolute = false) :
    (prefixPath k).isAbsolute = false := by
  refine Bool.eq_false_iff.2 fun absolute => ?_
  have root : .root ∈ (prefixPath k).components := by
    rw [Path.components, Path.lead_of_isAbsolute absolute]
    exact List.mem_cons_self
  have lead := Path.lead_of_mem_root (covers.subset root)
  rw [Path.isAbsolute_of_lead lead] at relative
  exact Bool.noConfusion relative

/-- Where no key is hidden the longest one is tried first. -/
theorem Unhidden.longestWins (unhidden : Unhidden (categories.map Prod.fst))
    (up : Ascends Prod.fst categories) (relative : p.isAbsolute = false) :
    LongestWins categories p where
  bare := categoryOf_of_bare
  covered covered := by
    obtain ⟨c, hc, covers, first, tag⟩ := categoryOf_of_covered up covered
    refine ⟨c, hc, covers, fun d hd covers' => ?_, tag⟩
    by_contra deeper
    rw [not_le] at deeper
    obtain ⟨m, hm, same, precedes⟩ := unhidden c.1 (List.mem_map_of_mem hc) d.1
      (List.mem_map_of_mem hd) (covers'.relative relative) (covers.total covers' deeper.le) deeper
    obtain ⟨e, he, rfl⟩ := List.mem_map.1 hm
    have covers'' : Covers e.1 p := by rw [Covers, Path.same_iff.1 same]; exact covers'
    rcases first e he covers'' with rfl | precedes'
    · rw [depth, depth, Path.same_iff.1 same] at deeper
      exact deeper.false
    · exact precedes.asymm precedes'

/-- Where the longest key always wins no key is hidden, as a path that is written as a
key shows when each key is its own tag. -/
theorem unhidden_of_longestWins (sorted : keys.Pairwise (· < ·))
    (wins : ∀ categories : Order.Table String, categories.map Prod.fst = keys →
      ∀ p, p.isAbsolute = false → LongestWins categories p) : Unhidden keys := by
  intro k hk l hl relative within deeper
  have names : (keys.map fun key => (key, key)).map Prod.fst = keys := by
    rw [List.map_map]
    exact List.map_id keys
  have up : Ascends Prod.fst (keys.map fun key => (key, key)) := List.pairwise_map.2 sorted
  have covered : ∃ c ∈ keys.map fun key => (key, key), Covers c.1 (prefixPath l) :=
    ⟨(l, l), List.mem_map_of_mem hl, List.prefix_rfl⟩
  obtain ⟨c, hc, covers, deepest, tag⟩ := (wins _ names _ relative).covered covered
  obtain ⟨d, hd, -, first, tag'⟩ := categoryOf_of_covered up covered
  obtain ⟨m, hm, rfl⟩ := List.mem_map.1 hc
  obtain ⟨m', hm', rfl⟩ := List.mem_map.1 hd
  obtain rfl : m = m' := tag.symm.trans tag'
  have deep : depth l ≤ depth m := deepest (l, l) (List.mem_map_of_mem hl) List.prefix_rfl
  have same : (prefixPath m).components = (prefixPath l).components :=
    covers.eq_of_length_le deep
  refine ⟨m, hm, Path.same_iff.2 same, ?_⟩
  refine (first (k, k) (List.mem_map_of_mem hk) within).resolve_left fun e => ?_
  obtain rfl := congrArg Prod.fst e
  rw [depth, depth, ← same] at deeper
  exact deeper.false

/-! ### Keys that are written plainly -/

/-- A key that is written as the normal path of a folder, with or without a slash at
its end. -/
def IsPlainKey (key : String) : Prop :=
  ∃ names, names ≠ [] ∧ (∀ n ∈ names, Path.IsName n) ∧
    (key = (Path.ofNames names).text ∨ key = (Path.ofNames names).text ++ "/")

theorem getLast?_ofNames {names : List String} (isName : ∀ n ∈ names, Path.IsName n)
    (hne : names ≠ []) : (Path.ofNames names).chars.getLast? ≠ some '/' := by
  have ends := Path.endsWithSlash_join_ofNames ⟨""⟩ isName hne
  rw [Path.empty_join] at ends
  simpa [Tree.endsWithSlash, Path.chars] using ends

/-- A slash at the end of a key does not count. -/
theorem prefixPath_of_plain {names : List String} (isName : ∀ n ∈ names, Path.IsName n)
    (hne : names ≠ [])
    (key : k = (Path.ofNames names).text ∨ k = (Path.ofNames names).text ++ "/") :
    prefixPath k = Path.ofNames names := by
  have bare : (Path.ofNames names).chars.reverse.dropWhile (· = '/') =
      (Path.ofNames names).chars.reverse := by
    refine List.dropWhile_eq_self_iff.2 fun written => ?_
    have last := getLast?_ofNames isName hne
    rw [← List.head?_reverse, List.head?_eq_some_head (List.ne_nil_of_length_pos written)] at last
    simpa [List.head_eq_getElem] using last
  have stripped : (k.toList.reverse.dropWhile (· = '/')).reverse = (Path.ofNames names).chars := by
    rcases key with rfl | rfl
    · exact (congrArg List.reverse bare).trans (List.reverse_reverse _)
    · rw [String.toList_append, List.reverse_append]
      exact (congrArg List.reverse bare).trans (List.reverse_reverse _)
  rw [prefixPath, stripped, Path.ofChars_chars]

/-- What goes on from a path is longer by a slash and a name at least. -/
theorem utf8ByteSize_ofNames_append {ns ms : List String}
    (isName : ∀ n ∈ ns ++ ms, Path.IsName n) (hns : ns ≠ []) (hms : ms ≠ []) :
    (Path.ofNames ns).text.utf8ByteSize + 2 ≤ (Path.ofNames (ns ++ ms)).text.utf8ByteSize := by
  have ns' : ∀ n ∈ ns, Path.IsName n := fun n hn => isName n (List.mem_append_left _ hn)
  have ms' : ∀ n ∈ ms, Path.IsName n := fun n hn => isName n (List.mem_append_right _ hn)
  have gap : (Path.ofNames ns).gap = "/" := if_neg (getLast?_ofNames ns' hns)
  have written := Path.isEmpty_ofNames ms' hms
  have some : (Path.ofNames ms).text.utf8ByteSize ≠ 0 := fun none => by
    rw [Path.isEmpty, String.utf8ByteSize_eq_zero_iff.1 none] at written
    exact absurd written (by decide)
  rw [← Path.ofNames_join_ofNames ns' ms' hms, Path.join_eq_gap (Path.isEmpty_ofNames ns' hns)
    (Path.isAbsolute_ofNames ms'), gap]
  simp only [String.utf8ByteSize_append]
  have slash : "/".utf8ByteSize = 1 := rfl
  omega

/-- Keys that are written plainly hide no other. -/
theorem unhidden_of_plain (plain : ∀ k ∈ keys, IsPlainKey k) : Unhidden keys := by
  intro k hk l hl _ within deeper
  refine ⟨l, hl, Path.same_refl _, .inl ?_⟩
  obtain ⟨ns, hns, isName, key⟩ := plain k hk
  obtain ⟨ls, hls, isName', key'⟩ := plain l hl
  rw [depth, depth] at deeper
  rw [prefixPath_of_plain isName hns key, prefixPath_of_plain isName' hls key',
    Path.components_ofNames isName, Path.components_ofNames isName'] at within deeper
  obtain ⟨rest, split⟩ := within
  obtain ⟨ns', ms, rfl, same, rfl⟩ := List.map_eq_append_iff.1 split.symm
  obtain rfl : ns' = ns := List.map_injective_iff.2 Path.Component.name_injective same
  have hms : ms ≠ [] := by
    rintro rfl
    simp at deeper
  have longer := utf8ByteSize_ofNames_append isName' hns hms
  have slash : "/".utf8ByteSize = 1 := rfl
  have short : k.utf8ByteSize ≤ (Path.ofNames ns').text.utf8ByteSize + 1 := by
    rcases key with rfl | rfl
    · omega
    · rw [String.utf8ByteSize_append, slash]
  have long : (Path.ofNames (ns' ++ ms)).text.utf8ByteSize ≤ l.utf8ByteSize := by
    rcases key' with rfl | rfl
    · exact le_rfl
    · rw [String.utf8ByteSize_append]
      omega
  omega

/-! ### The result -/

/-- **When the longest key wins.** A path that some key is for has the tag of the first
of them that is tried, another one has its folder as category. For all tags and all
relative paths this is the tag of a key with the most components if and only if no key
hides one that lies in it; so it is where all keys are written plainly. -/
theorem longest_wins_iff (sorted : keys.Pairwise (· < ·)) :
    (∀ categories : Order.Table String, categories.map Prod.fst = keys → ∀ p,
      ((∃ c ∈ categories, Covers c.1 p) → ∃ c ∈ categories, Covers c.1 p ∧
        (∀ d ∈ categories, Covers d.1 p → d = c ∨ Precedes c.1 d.1) ∧
        categoryOf categories p = c.2) ∧
      ((∀ c ∈ categories, ¬ Covers c.1 p) → Folder p (categoryOf categories p))) ∧
    ((∀ categories : Order.Table String, categories.map Prod.fst = keys →
      ∀ p, p.isAbsolute = false → LongestWins categories p) ↔ Unhidden keys) ∧
    ((∀ k ∈ keys, IsPlainKey k) → Unhidden keys) := by
  have up {categories : Order.Table String} (names : categories.map Prod.fst = keys) :
      Ascends Prod.fst categories := List.pairwise_map.1 (names ▸ sorted)
  refine ⟨fun categories names p => ⟨categoryOf_of_covered (up names), categoryOf_of_bare⟩,
    ⟨unhidden_of_longestWins sorted, fun unhidden categories names p relative => ?_⟩,
    unhidden_of_plain⟩
  exact Unhidden.longestWins (names ▸ unhidden) (up names) relative

/-- A folder that is written with three slashes at its end hides the folder in it. -/
theorem longest_wins_iff_slashes :
    ["scripts///", "scripts/a"].Pairwise (· < ·) ∧
    categoryOf [("scripts///", "all"), ("scripts/a", "a")] ⟨"scripts/a/x.sh"⟩ = "all" ∧
    ¬ LongestWins [("scripts///", "all"), ("scripts/a", "a")] ⟨"scripts/a/x.sh"⟩ ∧
    ¬ Unhidden ["scripts///", "scripts/a"] := by
  have sorted : ["scripts///", "scripts/a"].Pairwise (· < ·) := by decide +kernel
  have tag : categoryOf [("scripts///", "all"), ("scripts/a", "a")] ⟨"scripts/a/x.sh"⟩ = "all" := by
    unfold categoryOf
    rw [Order.sortBy_of_sorted (by decide +kernel)]
    decide +kernel
  have loses : ¬ LongestWins [("scripts///", "all"), ("scripts/a", "a")] ⟨"scripts/a/x.sh"⟩ := by
    intro wins
    have covers : Covers "scripts/a" ⟨"scripts/a/x.sh"⟩ := startsWith_iff.1 (by decide +kernel)
    obtain ⟨c, hc, -, deepest, won⟩ := wins.covered ⟨("scripts/a", "a"), by simp, covers⟩
    rw [tag] at won
    have deep := deepest ("scripts/a", "a") (by simp) covers
    rcases List.mem_pair.1 hc with rfl | rfl
    · exact absurd deep (by decide +kernel)
    · exact absurd won (by decide)
  refine ⟨sorted, tag, loses, fun unhidden => loses ?_⟩
  exact (longest_wins_iff sorted).2.1.2 unhidden _ rfl _ (by decide +kernel)

end Restore
end Attic
