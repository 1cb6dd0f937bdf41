import Attic.Proofs.Path.Saying
import Mathlib

/-!
# Normal forms of composed paths

A relative path has a normal form exactly if no start of it goes up more often than
it says names. What is joined to a path may be joined to its normal form instead, and
a path that goes up too often does so whatever is joined to it. Together with what
names come to, and a name that is taken back at once, this determines the normal form
of every path.

Key definitions: `Path.Component.isName`, `Path.Affords`.
Key theorems: `Path.climb_isSome_iff`, `Path.normalize?_isSome_iff`,
`Path.normalize?_join`, `Path.normalize?_below?_join`, `Path.normalize?_composes`.
-/

namespace Attic
namespace Path

variable {p q r : Path} {n : Nat} {s : String} {cs : List Component} {stack : List String}

/-! ### Names and what takes them back -/

/-- Whether a component is a name. -/
def Component.isName : Component → Bool
  | .name _ => true
  | _ => false

theorem Component.isName_iff {c : Component} : c.isName = true ↔ ∃ s, c = .name s := by
  cases c <;> simp [Component.isName]

/-- Whether components can be followed from `n` names: at each point of the way there
were as many names as have been taken back. -/
def Affords (n : Nat) (cs : List Component) : Prop :=
  ∀ ds, ds <+: cs → ds.count .up ≤ n + ds.countP Component.isName

theorem affords_nil (n : Nat) : Affords n [] := by
  intro ds start
  rw [List.prefix_nil.1 start]
  exact Nat.zero_le _

/-- Before the first component nothing has been taken back. -/
theorem affords_cons {c : Component} : Affords n (c :: cs) ↔
    ∀ ds, ds <+: cs → (c :: ds).count .up ≤ n + (c :: ds).countP Component.isName := by
  constructor
  · intro h ds start
    exact h (c :: ds) (List.cons_prefix_cons.2 ⟨rfl, start⟩)
  · intro h ds start
    rcases List.prefix_cons_iff.1 start with rfl | ⟨es, rfl, start⟩
    · exact Nat.zero_le _
    · exact h es (List.cons_prefix_cons.1 start).2

theorem affords_here : Affords n (.here :: cs) ↔ Affords n cs := by
  rw [affords_cons]
  exact Iff.rfl

theorem affords_name : Affords n (.name s :: cs) ↔ Affords (n + 1) cs := by
  rw [affords_cons]
  refine forall₂_congr fun ds _ => ?_
  have ups : (Component.name s :: ds).count .up = ds.count .up :=
    List.count_cons_of_ne (by simp)
  have names : (Component.name s :: ds).countP Component.isName =
      ds.countP Component.isName + 1 := List.countP_cons_of_pos rfl
  omega

theorem affords_up : Affords (n + 1) (.up :: cs) ↔ Affords n cs := by
  rw [affords_cons]
  refine forall₂_congr fun ds _ => ?_
  have ups : (Component.up :: ds).count .up = ds.count .up + 1 := List.count_cons_self
  have names : (Component.up :: ds).countP Component.isName = ds.countP Component.isName :=
    List.countP_cons_of_neg Bool.false_ne_true
  omega

theorem not_affords_up : ¬ Affords 0 (.up :: cs) := by
  intro h
  have first := h [.up] (List.cons_prefix_cons.2 ⟨rfl, List.nil_prefix⟩)
  exact absurd first (by decide)

/-- **Components lead somewhere exactly if each name that they take back is there.** -/
theorem climb_isSome_iff : ∀ (stack : List String) (cs : List Component),
    (climb stack cs).isSome = true ↔ .root ∉ cs ∧ Affords stack.length cs
  | stack, [] => by simp [climb, affords_nil]
  | stack, .here :: cs => by
    rw [climb, climb_isSome_iff stack cs, affords_here]
    simp
  | stack, .name s :: cs => by
    rw [climb, climb_isSome_iff (s :: stack) cs, affords_name, List.length_cons]
    simp
  | s :: stack, .up :: cs => by
    rw [climb, climb_isSome_iff stack cs, List.length_cons, affords_up]
    simp
  | [], .up :: cs => by simp [climb, not_affords_up]
  | [], .root :: cs => by simp [climb]
  | _ :: _, .root :: cs => by simp [climb]

/-! ### Which paths have a normal form -/

theorem normalize?_isSome_iff : p.normalize?.isSome = true ↔
    p.isAbsolute = false ∧ Affords 0 p.components := by
  rw [normalize?, Option.isSome_map, names?, Option.isSome_map, climb_isSome_iff,
    root_mem_components, Bool.not_eq_true, List.length_nil]

/-- A normal form says names, and if the path says names only, it says these. -/
theorem components_of_normalize? (h : p.normalize? = some q) :
    (∀ c ∈ q.components, c.isName = true) ∧
      ((∀ c ∈ p.components, c.isName = true) → q.same p = true) := by
  obtain ⟨names, found, rfl⟩ := Option.map_eq_some_iff.1 h
  have said := components_ofNames (isName_of_names? found)
  constructor
  · intro c hc
    rw [said] at hc
    obtain ⟨s, -, rfl⟩ := List.mem_map.1 hc
    rfl
  · intro all
    have within : p.components ∈ Set.range (List.map Component.name) := by
      rw [Set.range_list_map]
      intro c hc
      obtain ⟨s, rfl⟩ := Component.isName_iff.1 (all c hc)
      exact ⟨s, rfl⟩
    obtain ⟨ns, named⟩ := within
    rw [names?, ← named, climb_names] at found
    obtain rfl : ns = names := by simpa using found
    exact same_iff.2 (said.trans named)

/-! ### Joined paths -/

/-- What is joined to a relative path is followed from the names of the path. -/
theorem names?_join_bind (hp : p.isAbsolute = false) (hr : r.isAbsolute = false) :
    (p.join r).names? = p.names?.bind fun names =>
      (climb names.reverse r.components).map List.reverse := by
  rw [names?_eq_steps (isAbsolute_join hp hr), steps_join p hr, List.map_append, climb_append,
    climb_steps hp, names?]
  cases climb [] p.components with
  | none => rfl
  | some st =>
    rw [Option.bind_some, climb_steps hr, Option.map_some, Option.bind_some, List.reverse_reverse]

/-- **A path may be replaced by its normal form before another one is joined to it.** -/
theorem normalize?_join (h : p.normalize? = some q) (hr : r.isAbsolute = false) :
    (p.join r).normalize? = (q.join r).normalize? := by
  obtain ⟨names, found, rfl⟩ := Option.map_eq_some_iff.1 h
  have isName := isName_of_names? found
  rw [normalize?, normalize?, names?_join_bind (isAbsolute_of_names? found) hr,
    names?_join_bind (isAbsolute_ofNames isName) hr, found, names?_ofNames isName]

/-- **What goes up too often does so whatever is joined to it.** -/
theorem normalize?_join_none (hp : p.isAbsolute = false) (h : p.normalize? = none)
    (hr : r.isAbsolute = false) : (p.join r).normalize? = none := by
  have lost : p.names? = none := Option.map_eq_none_iff.1 h
  rw [normalize?, names?_join_bind hp hr, lost, Option.bind_none, Option.map_none]

/-- A name is taken back by what goes up from it. -/
theorem normalize?_join_up (hp : p.isAbsolute = false) (hs : IsName s) :
    ((p.join ⟨s⟩).join ⟨".."⟩).normalize? = p.normalize? := by
  have single : ∀ m ∈ [s], IsName m := by simpa using hs
  have relative : (⟨s⟩ : Path).isAbsolute = false := by
    rw [← ofNames_single]
    exact isAbsolute_ofNames single
  have said : (⟨s⟩ : Path).components = [.name s] := by
    rw [← ofNames_single, components_ofNames single, List.map_singleton]
  have up : (⟨".."⟩ : Path).components = [.up] := by decide
  rw [normalize?, names?_join_bind (isAbsolute_join hp relative) (by decide),
    names?_join_bind hp relative, said, up, normalize?]
  cases p.names? with
  | none => rfl
  | some names => simp [climb]

/-! ### What is left of a joined path -/

/-- Dots are passed over. -/
theorem climb_filter_here : ∀ (stack : List String) (cs : List Component),
    climb stack (cs.filter (· ≠ .here)) = climb stack cs
  | stack, [] => rfl
  | stack, .here :: cs => by
    rw [List.filter_cons_of_neg (by simp), climb, climb_filter_here stack cs]
  | stack, .name s :: cs => by
    rw [List.filter_cons_of_pos (by simp), climb, climb, climb_filter_here (s :: stack) cs]
  | s :: stack, .up :: cs => by
    rw [List.filter_cons_of_pos (by simp), climb, climb, climb_filter_here stack cs]
  | [], .up :: cs => by rw [List.filter_cons_of_pos (by simp), climb, climb]
  | [], .root :: cs => by rw [List.filter_cons_of_pos (by simp), climb, climb]
  | _ :: _, .root :: cs => by rw [List.filter_cons_of_pos (by simp), climb, climb]

theorem below?_isSome (p q : Path) : (p.below? q).isSome = p.startsWith q := by
  unfold below?
  split
  · next starts =>
    rw [starts]
    split <;> rfl
  · next other => rw [Bool.eq_false_iff.2 other, Option.isSome_none]

/-- **What is left of a joined path below the one it was joined to** may lack a dot at its
start and has the same normal form. -/
theorem normalize?_below?_join (written : p.isEmpty = false) (hq : q.isAbsolute = false) :
    ∃ b, (p.join q).below? p = some b ∧ b.normalize? = q.normalize? := by
  have joined := components_join written hq
  have starts : (p.join q).startsWith p = true := by
    rw [startsWith, List.isPrefixOf_iff_prefix, joined]
    exact List.prefix_append _ _
  obtain ⟨b, left⟩ := Option.isSome_iff_exists.1 ((below?_isSome _ _).trans starts)
  have said : b.components = q.components.filter (· ≠ .here) :=
    List.append_cancel_left ((components_below? left).symm.trans joined)
  refine ⟨b, left, ?_⟩
  rw [normalize?, normalize?, names?, names?, said, climb_filter_here]

/-! ### The laws of normal forms -/

/-- **Normal forms exist where no start of a path goes up too often, they are names, and
they compose.** -/
theorem normalize?_composes (p : Path) :
    (p.normalize?.isSome = true ↔ p.isAbsolute = false ∧
      ∀ cs, cs <+: p.components → cs.count .up ≤ cs.countP Component.isName) ∧
    (∀ q, p.normalize? = some q →
      (∀ c ∈ q.components, c.isName = true) ∧ q.normalize? = some q ∧
        ((∀ c ∈ p.components, c.isName = true) → q.same p = true)) ∧
    (∀ r : Path, r.isAbsolute = false →
      (∀ q, p.normalize? = some q → (p.join r).normalize? = (q.join r).normalize?) ∧
      (p.isAbsolute = false → p.normalize? = none → (p.join r).normalize? = none)) ∧
    (p.isAbsolute = false → ∀ s, IsName s →
      ((p.join ⟨s⟩).join ⟨".."⟩).normalize? = p.normalize?) := by
  refine ⟨?_, fun q h => ?_, fun r hr => ⟨fun q h => normalize?_join h hr, fun hp h => ?_⟩,
    fun hp s hs => normalize?_join_up hp hs⟩
  · rw [normalize?_isSome_iff]
    simp only [Affords, Nat.zero_add]
  · obtain ⟨names, kept⟩ := components_of_normalize? h
    exact ⟨names, isNormal_of_normalize? h, kept⟩
  · exact normalize?_join_none hp h hr

/-- A path with a normal form from which another goes up, and one without. -/
theorem normalize?_composes_up :
    (⟨"m/./a/../c//"⟩ : Path).normalize? = some ⟨"m/c"⟩ ∧
    ((⟨"m/./a/../c//"⟩ : Path).join ⟨"../../d"⟩).normalize? =
      ((⟨"m/c"⟩ : Path).join ⟨"../../d"⟩).normalize? ∧
    ((⟨"m/c"⟩ : Path).join ⟨"../../d"⟩).normalize? = some ⟨"d"⟩ ∧
    (⟨"m/../.."⟩ : Path).normalize? = none ∧
    ((⟨"m/../.."⟩ : Path).join ⟨"m/a"⟩).normalize? = none := by
  have formed : (⟨"m/./a/../c//"⟩ : Path).normalize? = some ⟨"m/c"⟩ := by decide +kernel
  have lost : (⟨"m/../.."⟩ : Path).normalize? = none := by decide +kernel
  obtain ⟨-, -, joined, -⟩ := normalize?_composes ⟨"m/./a/../c//"⟩
  obtain ⟨-, -, joined', -⟩ := normalize?_composes ⟨"m/../.."⟩
  refine ⟨formed, ?_, by decide +kernel, lost, ?_⟩
  · exact (joined ⟨"../../d"⟩ (by decide)).1 _ formed
  · exact (joined' ⟨"m/a"⟩ (by decide)).2 (by decide) lost

end Path
end Attic
