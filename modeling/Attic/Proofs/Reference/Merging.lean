import Attic.Proofs.Order.Merged
import Attic.Proofs.Path.Names
import Attic.Proofs.Reference.Found
import Attic.Scan.Outcome
import Mathlib

/-!
# Archived scripts do not get in each other's way

Whatever a specifier is, it is looked up in the index path by path: what is found
of one archived script depends on this script alone. Scripts that are archived
together are therefore found as if each part of them were archived alone, by one
specifier, in one file, and by a scan.

Key definition: `Reference.Separable`.
Key theorems: `Reference.mem_ofPaths`, `Reference.ofPaths_congr`,
`Reference.separable_resolve`, `Reference.separable_findings`,
`Reference.Separable.merges`, `Scan.Scanner.scan_merges`.
-/

namespace Attic

open Attic.Order (pick Ascends Merges)

namespace Reference

variable {α γ : Type} [LinearOrder γ] {key : α → γ} {part : γ → List String}
variable {i j u : Index} {p q : Path} {k : List String} {a b : List Path}

/-! ### The paths of an index -/

/-- The paths that an index is made of. -/
def normalForms (a : List Path) : List Path :=
  (a.filterMap Path.normalize?).filter fun p => !p.isEmpty

theorem mem_normalForms :
    q ∈ normalForms a ↔ q.isEmpty = false ∧ ∃ p ∈ a, p.normalize? = some q := by
  simp [normalForms, and_comm]

theorem normalForms_one : ∀ p ∈ normalForms a, ∀ q ∈ normalForms a, p.key = q.key → p = q := by
  intro p hp q hq same
  obtain ⟨-, p', -, hp'⟩ := mem_normalForms.1 hp
  obtain ⟨-, q', -, hq'⟩ := mem_normalForms.1 hq
  exact (Path.isNormal_of_normalize? hp').eq_of_same (Path.isNormal_of_normalize? hq')
    (Path.same_of_key same)

theorem ofPaths_ascends (a : List Path) : Ascends Path.key (Index.ofPaths a).paths :=
  Order.ascends_sortDistinct Path.before_byKey _

/-- **An index has each normal form once**, in whatever order, how often and how
the paths were written. -/
theorem mem_ofPaths : q ∈ (Index.ofPaths a).paths ↔
    q.isEmpty = false ∧ ∃ p ∈ a, p.normalize? = some q := by
  rw [(ofPaths_ascends a).mem_iff, Index.ofPaths, Index.paths_ofSorted,
    Order.pick_sortDistinct Path.before_byKey, ← normalForms,
    Order.pick_eq_some normalForms_one, mem_normalForms]
  simp

/-- Order, repeats and spelling of the paths do not matter. -/
theorem ofPaths_congr (same : ∀ q, q ∈ normalForms a ↔ q ∈ normalForms b) :
    Index.ofPaths a = Index.ofPaths b := by
  have paths : (Index.ofPaths a).paths = (Index.ofPaths b).paths := by
    refine Order.eq_of_pick (ofPaths_ascends a) (ofPaths_ascends b) fun k => Option.ext fun q => ?_
    rw [Order.pick_eq_some (ofPaths_ascends a).one, Order.pick_eq_some (ofPaths_ascends b).one,
      mem_ofPaths, mem_ofPaths, ← mem_normalForms, ← mem_normalForms, same]
  exact congrArg Index.ofSorted paths

/-- Paths that are archived together. -/
theorem ofPaths_merges (a b : List Path) : Merges Path.key (Index.ofPaths a).paths
    (Index.ofPaths b).paths (Index.ofPaths (a ++ b)).paths := by
  refine ⟨ofPaths_ascends _, fun q => ?_⟩
  simp only [mem_ofPaths, List.mem_append, or_and_right, exists_or, and_or_left]

/-! ### Looking up path by path -/

/-- Whether a list that is made from an index is made path by path: the first
element of a key is the one that comes from the path which the key is about. -/
def Separable (key : α → γ) (part : γ → List String) (f : Index → List α) : Prop :=
  ∀ i, Ascends Path.key i.paths → ∀ k,
    pick key k (f i) = (pick Path.key (part k) i.paths).bind fun p => pick key k (f (.ofSorted [p]))

namespace Separable

variable {f g : Index → List α}

theorem nil : Separable key part fun _ => [] := fun i _ k => by
  cases pick Path.key (part k) i.paths <;> rfl

theorem append (hf : Separable key part f) (hg : Separable key part g) :
    Separable key part fun i => f i ++ g i := fun i up k => by
  rw [Order.pick_append, hf i up k, hg i up k]
  cases pick Path.key (part k) i.paths with
  | none => rfl
  | some p => simp [Order.pick_append]

theorem flatMap {δ : Type} {f : δ → Index → List α} : ∀ {l : List δ},
    (∀ x ∈ l, Separable key part (f x)) → Separable key part fun i => l.flatMap fun x => f x i
  | [], _ => nil
  | x :: l, h => by
    obtain ⟨first, rest⟩ := List.forall_mem_cons.1 h
    simpa only [List.flatMap_cons] using first.append (flatMap rest)

theorem sortDistinct {before : α → α → Bool} (h : Order.ByKey before key)
    (hf : Separable key part f) : Separable key part fun i => Order.sortDistinct before (f i) :=
  fun i up k => by simpa only [Order.pick_sortDistinct h] using hf i up k

/-- Nothing comes of an index that is empty. -/
theorem unlessEmpty (hf : Separable key part f) :
    Separable key part fun i => if i.isEmpty then [] else f i := fun i up k => by
  by_cases none : i.paths = []
  · simp [Index.isEmpty, none]
  · simpa [Index.isEmpty, none] using hf i up k

theorem filter (hf : Separable key part f) (up : ∀ i, Ascends key (f i)) (g : α → Bool) :
    Separable key part fun i => (f i).filter g := fun i hi k => by
  simp only [Order.pick_filter g (up _).one, hf i hi k]
  cases pick Path.key (part k) i.paths <;> rfl

theorem map {δ : Type} {make : α → δ} {ε : Type} [LinearOrder ε] {key' : δ → ε} {part' : ε → γ}
    (hf : Separable key part f) (about : ∀ a, part' (key' (make a)) = key a)
    (alike : ∀ a b, key a = key b → key' (make a) = key' (make b)) :
    Separable key' (fun k => part (part' k)) fun i => (f i).map make := fun i hi k => by
  simp only [Order.pick_map about alike, hf i hi]
  cases pick Path.key (part (part' k)) i.paths <;> rfl

/-- What comes of scripts that are archived together. -/
theorem merges (hf : Separable key part f) (up : ∀ i, Ascends key (f i))
    (h : Merges Path.key i.paths j.paths u.paths) (hi : Ascends Path.key i.paths)
    (hj : Ascends Path.key j.paths) : Merges key (f i) (f j) (f u) := by
  have mem {i : Index} (hi : Ascends Path.key i.paths) (x : α) : x ∈ f i ↔
      ∃ p ∈ i.paths, p.key = part (key x) ∧ pick key (key x) (f (.ofSorted [p])) = some x := by
    rw [(up i).mem_iff, hf i hi, Option.bind_eq_some_iff]
    simp only [Order.pick_eq_some hi.one, and_assoc]
  refine ⟨up u, fun x => ?_⟩
  rw [mem h.ascends, mem hi, mem hj]
  simp only [h.mem, or_and_right, exists_or]

end Separable

/-! ### One specifier -/

theorem separable_filter (g : Path → Bool) :
    Separable Path.key id fun i => i.paths.filter g := fun i up k => by
  rw [Order.pick_filter _ up.one]
  cases h : pick Path.key k i.paths with
  | none => simp [h]
  | some p =>
    have hk := Order.key_of_pick h
    by_cases hg : g p = true
    · simp [h, hg, Order.pick_cons_same hk, Option.filter]
    · simp [h, hg, Option.filter]

theorem contains_iff : i.contains p = true ↔ ∃ q ∈ i.paths, q.key = p.key := by
  simp only [Index.contains, List.any_eq_true, Path.key_eq_iff]

theorem separable_exactly (p : Path) :
    Separable Path.key id fun i => i.exactly p := fun i up k => by
  have other (hk : p.key ≠ k) (j : Index) : pick Path.key k (j.exactly p) = none := by
    unfold Index.exactly
    split
    · exact Order.pick_cons_other hk
    · rfl
  by_cases hk : p.key = k
  · cases h : pick Path.key k i.paths with
    | none =>
      have out : i.contains p = false := by
        refine Bool.eq_false_iff.2 fun inside => ?_
        obtain ⟨q, hq, same⟩ := contains_iff.1 inside
        exact Order.pick_eq_none.1 h q hq (same.trans hk)
      simp [Index.exactly, out, h]
    | some q =>
      have same : q.key = p.key := (Order.key_of_pick h).trans hk.symm
      have inside : i.contains p = true := contains_iff.2 ⟨q, Order.mem_of_pick h, same⟩
      have alone : (Index.ofSorted [q]).contains p = true :=
        contains_iff.2 ⟨q, List.mem_singleton_self q, same⟩
      simp [Index.exactly, inside, alone, h]
  · simp only [other hk, Option.bind_fun_none]

theorem separable_named (p : Path) : Separable Path.key id fun i => i.named p := by
  unfold Index.named
  split
  · exact .nil
  · refine (separable_exactly p).append ?_
    split
    · simpa only [Index.withStem_eq] using (separable_filter _).append (separable_filter _)
    split
    · simpa only [Index.withStem_eq, List.filter_filter] using separable_filter _
    · exact .nil

theorem separable_candidate (p : Path) : Separable Path.key id fun i => i.candidate p := by
  unfold Index.candidate
  split
  · exact separable_named _
  · exact .nil

theorem separable_endingIn (tail : Path) : Separable Path.key id fun i => i.endingIn tail := by
  unfold Index.endingIn
  split
  · exact .nil
  · exact separable_filter _

theorem separable_ofPath (kind : Kind) (base root : Path) (raw : List Char) :
    Separable Path.key id fun i => i.ofPath kind base root raw := by
  unfold Index.ofPath
  dsimp only
  split
  · exact .nil
  split
  · split
    · exact .nil
    · split
      · exact separable_endingIn _
      · exact .nil
  split
  · exact separable_candidate _
  · refine (separable_candidate _).append ?_
    split
    · exact separable_candidate _
    · exact .nil

theorem separable_ofComputed (base : Path) (raw : List Char) :
    Separable Path.key id fun i => i.ofComputed base raw := by
  unfold Index.ofComputed
  dsimp only
  split
  · exact .nil
  split
  · exact .nil
  · exact separable_filter _

theorem separable_moduleAt (target : Path) : Separable Path.key id fun i => i.moduleAt target :=
  (separable_exactly _).append (separable_exactly _)

theorem separable_ofModule (base : Path) (name : List Char) (level : Nat) :
    Separable Path.key id fun i => i.ofModule base name level := by
  unfold Index.ofModule
  dsimp only
  split
  · split
    · exact separable_moduleAt _
    · exact .nil
  split
  · exact .nil
  · refine ((separable_moduleAt _).append (separable_moduleAt _)).append ?_
    split
    · exact (separable_endingIn _).append (separable_endingIn _)
    · exact .nil

/-- **A specifier is looked up path by path.** -/
theorem separable_resolve (s : Specifier) (kind : Kind) (file root : Path) :
    Separable Path.key id fun i => i.resolve s kind file root := by
  unfold Index.resolve
  refine .unlessEmpty (.sortDistinct Path.before_byKey ?_)
  cases s with
  | path raw => exact separable_ofPath _ _ _ _
  | computed raw => exact separable_ofComputed _ _
  | module name level => exact separable_ofModule _ _ _

theorem resolve_ascends (i : Index) (s : Specifier) (kind : Kind) (file root : Path) :
    Ascends Path.key (i.resolve s kind file root) := by
  unfold Index.resolve
  split
  · exact .nil
  · exact Order.ascends_sortDistinct Path.before_byKey _

/-! ### One file -/

/-- The path of the script that a key of findings is about. -/
def scriptKey (k : List String ×ₗ List String ×ₗ ℕ ×ₗ ℕ ×ₗ String) : List String := (ofLex k).1

theorem separable_lineFindings (root file : Path) (flavor : Flavor) (line : List Char)
    (number : Nat) :
    Separable Finding.key scriptKey fun i => lineFindings i root file flavor line number := by
  unfold lineFindings
  refine .flatMap fun (kind, specifier) _ => ?_
  refine ((separable_resolve specifier kind file root).filter
    (fun i => resolve_ascends i _ _ _ _) _).map (fun _ => rfl) fun p q same => ?_
  simp only [Finding.key, same]

theorem separable_findings (root file : Path) (text : List Char) :
    Separable Finding.key scriptKey fun i => findings i root file text := by
  unfold findings
  exact .sortDistinct Finding.before_byKey
    (.flatMap fun (line, number) _ => separable_lineFindings _ _ _ _ _)

end Reference

/-! ### A scan -/

namespace Scan

open Reference

variable {s : Scanner} {t : Tree}

/-- What is found in a file, if it is read. -/
def Scanner.found (s : Scanner) (t : Tree) (index : Index) (file : Path) : List Finding :=
  match s.scanFile t index file with
  | .ok found => found
  | .error _ => []

theorem separable_found (s : Scanner) (t : Tree) (file : Path) :
    Separable Finding.key scriptKey fun i => s.found t i file := by
  unfold Scanner.found Scanner.scanFile
  split
  · exact .nil
  · split
    · exact .nil
    split
    · exact .nil
    · exact separable_findings _ _ _
  · exact .nil

theorem scan_findings (s : Scanner) (t : Tree) (archived roots dirs : List Path) :
    (s.scan t archived roots dirs).findings =
      if (Index.ofPaths archived).isEmpty then []
      else Order.sortDistinct Finding.before
        ((s.files t roots dirs).1.flatMap (s.found t (Index.ofPaths archived))) := by
  unfold Scanner.scan
  dsimp only
  split
  · rfl
  · rw [List.flatMap_map]
    rfl

/-- **Scripts that are archived together are found as if each part of them were
archived alone.** The index of paths depends on their normal forms only, not on
their order, their repeats and their spelling; every specifier names in the scripts
together what it names in the one part or in the other; and the findings of a scan
for all are those of the scans for the parts, sorted, each once. -/
theorem Scanner.scan_merges (s : Scanner) (t : Tree) (a b roots dirs : List Path) :
    (∀ c, (∀ q, q ∈ normalForms c ↔ q ∈ normalForms a ∨ q ∈ normalForms b) →
      Index.ofPaths c = Index.ofPaths (a ++ b)) ∧
    (∀ specifier kind file root, Merges Path.key
      ((Index.ofPaths a).resolve specifier kind file root)
      ((Index.ofPaths b).resolve specifier kind file root)
      ((Index.ofPaths (a ++ b)).resolve specifier kind file root)) ∧
    Merges Finding.key (s.scan t a roots dirs).findings (s.scan t b roots dirs).findings
      (s.scan t (a ++ b) roots dirs).findings := by
  refine ⟨fun c same => ofPaths_congr fun q => ?_, fun specifier kind file root => ?_, ?_⟩
  · rw [same, normalForms, normalForms, normalForms, List.filterMap_append, List.filter_append,
      List.mem_append]
  · exact (separable_resolve specifier kind file root).merges
      (fun i => resolve_ascends i _ _ _ _) (ofPaths_merges a b) (ofPaths_ascends a)
      (ofPaths_ascends b)
  · simp only [scan_findings]
    have read : Separable Finding.key scriptKey fun i => if i.isEmpty then [] else
        Order.sortDistinct Finding.before ((s.files t roots dirs).1.flatMap (s.found t i)) :=
      .unlessEmpty (.sortDistinct Finding.before_byKey
        (.flatMap fun file _ => separable_found s t file))
    refine read.merges (fun i => ?_) (ofPaths_merges a b) (ofPaths_ascends a) (ofPaths_ascends b)
    split
    · exact .nil
    · exact Order.ascends_sortDistinct Finding.before_byKey _

/-- Two scripts, archived the other way round, one of them twice and the other with
a path that is written otherwise. -/
theorem scan_merges_two :
    (∀ q, q ∈ normalForms [⟨"b.ts"⟩, ⟨"./a//x.ts"⟩, ⟨"b.ts"⟩] ↔
      q ∈ normalForms [⟨"a/x.ts"⟩] ∨ q ∈ normalForms [⟨"b.ts"⟩]) ∧
    Index.ofPaths [⟨"b.ts"⟩, ⟨"./a//x.ts"⟩, ⟨"b.ts"⟩] = Index.ofPaths [⟨"a/x.ts"⟩, ⟨"b.ts"⟩] := by
  have first : normalForms [⟨"a/x.ts"⟩] = [⟨"a/x.ts"⟩] := by decide +kernel
  have second : normalForms [⟨"b.ts"⟩] = [⟨"b.ts"⟩] := by decide +kernel
  have mixed : normalForms [⟨"b.ts"⟩, ⟨"./a//x.ts"⟩, ⟨"b.ts"⟩] =
      [⟨"b.ts"⟩, ⟨"a/x.ts"⟩, ⟨"b.ts"⟩] := by decide +kernel
  have same : ∀ q, q ∈ normalForms [⟨"b.ts"⟩, ⟨"./a//x.ts"⟩, ⟨"b.ts"⟩] ↔
      q ∈ normalForms [⟨"a/x.ts"⟩] ∨ q ∈ normalForms [⟨"b.ts"⟩] := by
    intro q
    rw [first, second, mixed]
    simp only [List.mem_cons, List.not_mem_nil, or_false]
    tauto
  exact ⟨same, (Scanner.scan_merges (.standard ⟨"/r"⟩) ⟨[]⟩ [⟨"a/x.ts"⟩] [⟨"b.ts"⟩] [] []).1 _ same⟩

end Scan
end Attic
