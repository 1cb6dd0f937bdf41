import Attic.Path.Normal
import Attic.Proofs.Path.Steps
import Mathlib

/-!
# Names and normal paths

The normal form of a path is made of names, and its steps and components are
these names again. Behind a root it is written without a slash at its end.

Key definitions: `Path.IsName`, `Path.IsNormal`.
Key theorems: `Path.isName_of_names?`, `Path.components_ofNames`,
`Path.steps_ofNames`, `Path.IsNormal.exists_names`,
`Path.endsWithSlash_join_ofNames`.
-/

namespace Attic
namespace Path

/-- A piece that names something in a folder. -/
structure IsName (s : String) : Prop where
  nonempty : s.toList ≠ []
  no_slash : '/' ∉ s.toList
  not_dot : s ≠ "."
  not_up : s ≠ ".."

instance (s : String) : Decidable (IsName s) :=
  decidable_of_iff (s.toList ≠ [] ∧ '/' ∉ s.toList ∧ s ≠ "." ∧ s ≠ "..")
    ⟨fun ⟨nonempty, no_slash, not_dot, not_up⟩ => ⟨nonempty, no_slash, not_dot, not_up⟩,
      fun ⟨nonempty, no_slash, not_dot, not_up⟩ => ⟨nonempty, no_slash, not_dot, not_up⟩⟩

/-- A path that is its own normal form. -/
def IsNormal (p : Path) : Prop := p.normalize? = some p

variable {p q : Path} {names : List String}

/-- A name that a path says is one of its pieces. -/
theorem mem_body_of_component {s : String} (h : Component.name s ∈ p.components) :
    s.toList ∈ p.body ∧ isIdle s.toList = false ∧ s.toList ≠ ['.', '.'] := by
  unfold components at h
  rw [List.mem_append] at h
  rcases h with h | h
  · cases hl : p.lead <;> simp [hl, leadComponents] at h
  · obtain ⟨piece, hp, hs⟩ := List.mem_filterMap.1 h
    unfold pieceComponent? at hs
    split at hs
    · simp at hs
    next telling =>
    split at hs
    · simp at hs
    next up =>
    obtain rfl := Component.name.inj (Option.some.inj hs)
    rw [String.toList_ofList]
    exact ⟨hp, Bool.eq_false_iff.2 telling, up⟩

theorem isName_of_component {s : String} (h : Component.name s ∈ p.components) : IsName s := by
  obtain ⟨piece, telling, up⟩ := mem_body_of_component h
  simp only [isIdle, Bool.or_eq_false_iff, beq_eq_false_iff_ne] at telling
  refine ⟨telling.1, not_mem_of_mem_body piece, ?_, ?_⟩
  · rintro rfl
    exact telling.2 rfl
  · rintro rfl
    exact up rfl

/-- A piece that is neither idle nor leads up says a name. -/
theorem pieceComponent?_eq_name {piece : List Char} (written : piece ≠ []) (dot : piece ≠ ['.'])
    (up : piece ≠ ['.', '.']) : pieceComponent? piece = some (.name (String.ofList piece)) := by
  simp [pieceComponent?, isIdle, written, dot, up]

theorem IsName.pieceComponent? {n : String} (h : IsName n) :
    Path.pieceComponent? n.toList = some (.name n) := by
  have dot : n.toList ≠ ['.'] := fun e => h.not_dot (String.toList_injective e)
  have up : n.toList ≠ ['.', '.'] := fun e => h.not_up (String.toList_injective e)
  rw [pieceComponent?_eq_name h.nonempty dot up, String.ofList_toList]

theorem climb_mem : ∀ {stack st : List String} {cs : List Component}, climb stack cs = some st →
    ∀ s ∈ st, s ∈ stack ∨ .name s ∈ cs
  | stack, st, [], h, s, hs => by
    obtain rfl := Option.some.inj (by simpa [climb] using h)
    exact .inl hs
  | stack, st, .here :: cs, h, s, hs => by
    rw [climb] at h
    rcases climb_mem h s hs with h | h
    · exact .inl h
    · exact .inr (List.mem_cons_of_mem _ h)
  | stack, st, .name n :: cs, h, s, hs => by
    rw [climb] at h
    rcases climb_mem h s hs with h | h
    · rcases List.mem_cons.1 h with rfl | h
      · exact .inr List.mem_cons_self
      · exact .inl h
    · exact .inr (List.mem_cons_of_mem _ h)
  | n :: stack, st, .up :: cs, h, s, hs => by
    rw [climb] at h
    rcases climb_mem h s hs with h | h
    · exact .inl (List.mem_cons_of_mem _ h)
    · exact .inr (List.mem_cons_of_mem _ h)
  | [], st, .up :: cs, h, s, hs => by simp [climb] at h
  | [], st, .root :: cs, h, s, hs => by simp [climb] at h
  | _ :: _, st, .root :: cs, h, s, hs => by simp [climb] at h

/-- A normal form is made of names. -/
theorem isName_of_names? (h : p.names? = some names) : ∀ n ∈ names, IsName n := by
  unfold names? at h
  obtain ⟨st, hst, rfl⟩ := Option.map_eq_some_iff.1 h
  intro n hn
  rcases climb_mem hst n (List.mem_reverse.1 hn) with h | h
  · simp at h
  · exact isName_of_component h

/-! ### Paths of names -/

theorem ofNames_single (n : String) : ofNames [n] = ⟨n⟩ := by simp [ofNames, ofChars, Text.glue]

theorem cutEach_ofNames (h : ∀ n ∈ names, IsName n) (hne : names ≠ []) :
    Text.cutEach '/' (ofNames names).chars = names.map String.toList := by
  rw [ofNames, chars_ofChars, Text.cutEach_glue (by simpa using hne)]
  intro piece hp
  obtain ⟨n, hn, rfl⟩ := List.mem_map.1 hp
  exact (h n hn).no_slash

theorem told_names (h : ∀ n ∈ names, IsName n) : told (names.map String.toList) = names := by
  have all : (names.map String.toList).filter (· ≠ []) = names.map String.toList := by
    rw [List.filter_eq_self]
    intro piece hp
    obtain ⟨n, hn, rfl⟩ := List.mem_map.1 hp
    simpa using (h n hn).nonempty
  rw [told, all, List.map_map]
  simp [Function.comp_def]

theorem steps_ofNames (h : ∀ n ∈ names, IsName n) : Tree.steps (ofNames names).text = names := by
  by_cases hne : names = []
  · rw [hne]
    rfl
  · rw [steps_told, cutEach_ofNames h hne, told_names h]

theorem cut_ofNames (h : ∀ n ∈ names, IsName n) (hne : names ≠ []) :
    cut (ofNames names).chars = (.bare, names.map String.toList) := by
  obtain ⟨n, ns, rfl⟩ := List.exists_cons_of_ne_nil hne
  have first := h n List.mem_cons_self
  have dot : n.toList ≠ ['.'] := fun e => first.not_dot (String.toList_injective e)
  unfold cut
  rw [cutEach_ofNames h hne, List.map_cons]
  split
  · next e => exact absurd (List.cons.inj e).1 first.nonempty
  · next e => exact absurd (List.cons.inj e).1 dot
  · rfl

/-- The components of a path of names. -/
theorem components_ofNames (h : ∀ n ∈ names, IsName n) :
    (ofNames names).components = names.map .name := by
  by_cases hne : names = []
  · rw [hne]
    rfl
  · rw [components, lead, body, cut_ofNames h hne, leadComponents, List.nil_append,
      List.filterMap_map]
    have told : ∀ n ∈ names, (pieceComponent? ∘ String.toList) n = some (.name n) :=
      fun n hn => (h n hn).pieceComponent?
    rw [List.filterMap_congr told]
    simp

theorem names?_ofNames (h : ∀ n ∈ names, IsName n) : (ofNames names).names? = some names := by
  simp [names?, components_ofNames h, climb_names]

theorem isAbsolute_ofNames (h : ∀ n ∈ names, IsName n) : (ofNames names).isAbsolute = false := by
  by_cases hne : names = []
  · rw [hne]
    rfl
  · obtain ⟨n, ns, rfl⟩ := List.exists_cons_of_ne_nil hne
    have first := h n List.mem_cons_self
    obtain ⟨c, cs, hc⟩ := List.exists_cons_of_ne_nil first.nonempty
    have start : ∃ more, (ofNames (n :: ns)).chars = c :: more := by
      rw [ofNames, chars_ofChars]
      cases ns with
      | nil => exact ⟨cs, by simp [Text.glue, hc]⟩
      | cons m ms => exact ⟨cs ++ '/' :: Text.glue '/' ((m :: ms).map String.toList), by
          simp [Text.glue, hc]⟩
    obtain ⟨more, hmore⟩ := start
    rw [isAbsolute, hmore]
    have slash : c ≠ '/' := by
      rintro rfl
      exact first.no_slash (by rw [hc]; exact List.mem_cons_self)
    simpa using slash

theorem ofNames_isNormal (h : ∀ n ∈ names, IsName n) : IsNormal (ofNames names) := by
  rw [IsNormal, normalize?, names?_ofNames h]
  rfl

theorem isNormal_of_normalize? (h : p.normalize? = some q) : q.IsNormal := by
  obtain ⟨names, hn, rfl⟩ := Option.map_eq_some_iff.1 h
  exact ofNames_isNormal (isName_of_names? hn)

/-- A normal path is one of names. -/
theorem IsNormal.exists_names (h : IsNormal p) :
    ∃ names, p = ofNames names ∧ ∀ n ∈ names, IsName n := by
  unfold IsNormal normalize? at h
  obtain ⟨names, hn, he⟩ := Option.map_eq_some_iff.1 h
  exact ⟨names, he.symm, isName_of_names? hn⟩

/-- What says the same as names has these names. -/
theorem names?_of_same (h : ∀ n ∈ names, IsName n) (same : p.same (ofNames names) = true) :
    p.names? = some names := by
  rw [names?, same_iff.1 same, ← names?, names?_ofNames h]

theorem ofNames_same_iff {ns : List String} (h : ∀ n ∈ names, IsName n) (hns : ∀ n ∈ ns, IsName n) :
    (ofNames names).same (ofNames ns) = true ↔ names = ns := by
  constructor
  · intro same
    have names := names?_of_same hns same
    rwa [names?_ofNames h, Option.some_inj] at names
  · rintro rfl
    exact same_refl _

theorem normalize?_congr (same : p.same q = true) : p.normalize? = q.normalize? := by
  rw [normalize?, normalize?, names?, names?, same_iff.1 same]

/-- Paths of one normal form have the names of this form. -/
theorem exists_names_of_normalize? {r : Path} (hp : p.normalize? = some r)
    (hq : q.normalize? = some r) : ∃ ns, p.names? = some ns ∧ q.names? = some ns := by
  obtain ⟨ns, hns, rfl⟩ := Option.map_eq_some_iff.1 hp
  obtain ⟨ms, hms, e⟩ := Option.map_eq_some_iff.1 hq
  have same : (ofNames ms).same (ofNames ns) = true := by
    rw [e]
    exact same_refl _
  rw [(ofNames_same_iff (isName_of_names? hms) (isName_of_names? hns)).1 same] at hms
  exact ⟨ns, hns, hms⟩

/-- Normal paths that say the same are written alike. -/
theorem IsNormal.eq_of_same (hp : IsNormal p) (hq : IsNormal q) (h : p.same q = true) : p = q := by
  have same := normalize?_congr h
  rw [hp, hq] at same
  exact Option.some.inj same

/-! ### Behind a root -/

theorem cutEach_of_endsWithSlash (h : Tree.endsWithSlash p.text = true) :
    ∃ ps, Text.cutEach '/' p.chars = ps ++ [[]] := by
  simp only [Tree.endsWithSlash, decide_eq_true_eq] at h
  obtain ⟨ds, hds⟩ := List.getLast?_eq_some_iff.1 h
  refine ⟨Text.cutEach '/' ds, ?_⟩
  have : p.chars = ds ++ '/' :: [] := hds
  rw [this, Text.cutEach_append_cons, Text.cutEach_nil]

theorem endsWithSlash_join_ofNames (root : Path) (h : ∀ n ∈ names, IsName n) (hne : names ≠ []) :
    Tree.endsWithSlash (root.join (ofNames names)).text = false := by
  cases slash : Tree.endsWithSlash (root.join (ofNames names)).text with
  | false => rfl
  | true =>
    obtain ⟨ps, hps⟩ := cutEach_of_endsWithSlash slash
    obtain ⟨qs, hqs, -⟩ := cutEach_join root (isAbsolute_ofNames h)
    rw [hps, cutEach_ofNames h hne] at hqs
    have last := congrArg List.getLast? hqs
    rw [List.getLast?_concat, List.getLast?_append_of_ne_nil _ (by simpa using hne),
      List.getLast?_map] at last
    obtain ⟨n, hn, he⟩ := Option.map_eq_some_iff.1 last.symm
    exact absurd he (h n (List.mem_of_getLast? hn)).nonempty

theorem steps_join_ofNames (root : Path) (h : ∀ n ∈ names, IsName n) :
    Tree.steps (root.join (ofNames names)).text = Tree.steps root.text ++ names := by
  rw [steps_join root (isAbsolute_ofNames h), steps_ofNames h]

end Path
end Attic
