import Attic.Proofs.Path.Saying
import Attic.Proofs.Tree.Walk
import Mathlib

/-!
# Files under two spellings

Paths that say the same differ in slashes and dots. These matter only at the end: a path
to a file that ends with one names nothing. So where two spellings of a path both lead
to a file it is the same one, through whatever links the way goes.

Key theorems: `Tree.Leads.strip`, `Tree.Leads.file_unique`, `Tree.look_congr`,
`Path.same_join`.
-/

namespace Attic

/-! ### Joined paths -/

namespace Path

variable {p q : Path}

theorem isAbsolute_congr (same : p.same q = true) : p.isAbsolute = q.isAbsolute := by
  have starts {p q : Path} (same : p.same q = true) (absolute : p.isAbsolute = true) :
      q.isAbsolute = true := by
    refine isAbsolute_of_lead (lead_of_mem_root ?_)
    rw [← same_iff.1 same, components, lead_of_isAbsolute absolute]
    exact List.mem_cons_self
  rw [Bool.eq_iff_iff]
  exact ⟨starts same, starts (same_symm same)⟩

theorem same_join (root : Path) (same : p.same q = true) :
    (root.join p).same (root.join q) = true := by
  cases absolute : p.isAbsolute with
  | true =>
    have absolute' : q.isAbsolute = true := (isAbsolute_congr same).symm.trans absolute
    simpa [join, absolute, absolute'] using same
  | false =>
    have relative : q.isAbsolute = false := (isAbsolute_congr same).symm.trans absolute
    cases empty : root.isEmpty with
    | true => rwa [eq_of_isEmpty empty, empty_join, empty_join]
    | false =>
      rw [same_iff, components_join empty absolute, components_join empty relative,
        same_iff.1 same]

end Path

/-! ### Dots on a way -/

namespace Tree

variable {t : Tree} {p q : Path} {into must must' : Bool} {links : Nat} {here l l' : Location}
variable {name : String} {xs ys rest : List String} {s : Spot} {o : Object} {mode mode' : Nat}
variable {bytes bytes' : ByteArray}

/-- A way goes past the dots before its first step. -/
theorem Leads.strip : ∀ {ys : List String}, ys.filter (· ≠ ".") = name :: rest →
    Leads t into links here ys must s →
    ∃ zs, zs.filter (· ≠ ".") = rest ∧ Leads t into links here (name :: zs) must s
  | [], steps, _ => by simp at steps
  | y :: ys, steps, way => by
    by_cases dot : y = "."
    · subst dot
      have steps' : ys.filter (· ≠ ".") = name :: rest := by simpa using steps
      rw [← walk_eq_ok, walk_here, walk_eq_ok] at way
      exact way.strip steps'
    · rw [List.filter_cons_of_pos (by simpa using dot)] at steps
      obtain ⟨rfl, steps'⟩ := List.cons.inj steps
      exact ⟨ys, steps', way⟩

/-- A way into a folder goes on there. -/
theorem Leads.after_folder (step : IsStep name) (there : t.get? (here ++ [name]) = some .folder)
    (way : Leads t into links here (name :: xs) must s) :
    Leads t into links (here ++ [name]) xs must s := by
  rwa [← walk_eq_ok, walk_step step, there, walk_eq_ok] at way

/-- A way to a file ends there. -/
theorem Leads.at_file (step : IsStep name)
    (there : t.get? (here ++ [name]) = some (.file mode bytes))
    (way : Leads t into links here (name :: xs) must s) :
    s = .found (here ++ [name]) (.file mode bytes) := by
  rw [← walk_eq_ok, walk_step step, there] at way
  dsimp only at way
  split_ifs at way
  exact (Except.ok.inj way).symm

/-- A way that follows links goes on where a link leads. -/
theorem Leads.after_link {target : String} (step : IsStep name)
    (there : t.get? (here ++ [name]) = some (.link target))
    (way : Leads t true (links + 1) here (name :: xs) must s) :
    Leads t true links (if startsWithSlash target then [] else here) (steps target ++ xs)
      (must || (xs = [] && endsWithSlash target)) s := by
  rw [← walk_eq_ok, walk_step step, there] at way
  simpa [walk_eq_ok] using way

/-- **Ways to files that differ in their dots lead to the same file.** -/
theorem Leads.file_unique (way : Leads t true links here xs must (.found l (.file mode bytes)))
    (same : ys.filter (· ≠ ".") = xs.filter (· ≠ "."))
    (way' : Leads t true links here ys must' (.found l' (.file mode' bytes'))) :
    mode = mode' ∧ bytes = bytes' := by
  generalize e : Spot.found l (.file mode bytes) = s at way
  induction way generalizing ys must' with
  | nil => simp at e
  | vacant => simp at e
  | link _ _ still => simp at still
  | here _ ih => exact ih (by simpa using same) way' e
  | up _ ih =>
    rw [List.filter_cons_of_pos (by decide)] at same
    obtain ⟨zs, same', way''⟩ := way'.strip same
    rw [← walk_eq_ok, walk_up, walk_eq_ok] at way''
    exact ih same' way'' e
  | folder step there _ ih =>
    rw [List.filter_cons_of_pos (by simpa using step.not_here)] at same
    obtain ⟨zs, same', way''⟩ := way'.strip same
    exact ih same' (way''.after_folder step there) e
  | file step there =>
    rw [List.filter_cons_of_pos (by simpa using step.not_here)] at same
    obtain ⟨zs, -, way''⟩ := way'.strip same
    obtain ⟨-, file⟩ := Spot.found.inj (e.trans (way''.at_file step there).symm)
    exact Object.file.inj file
  | follow step there _ _ ih =>
    rw [List.filter_cons_of_pos (by simpa using step.not_here)] at same
    obtain ⟨zs, same', way''⟩ := way'.strip same
    exact ih (by rw [List.filter_append, List.filter_append, same']) (way''.after_link step there) e

/-- **Two spellings of a path that both lead to a file lead to the same one.** -/
theorem look_congr (same : p.same q = true) (hp : t.isFile p = true) (hq : t.isFile q = true) :
    t.look p = t.look q := by
  obtain ⟨mode, bytes, read⟩ := isFile_iff.1 hp
  obtain ⟨mode', bytes', read'⟩ := isFile_iff.1 hq
  obtain ⟨-, l, spot⟩ := spot_of_readFile read
  obtain ⟨-, l', spot'⟩ := spot_of_readFile read'
  have steps : (steps q.text).filter (· ≠ ".") = (Tree.steps p.text).filter (· ≠ ".") := by
    rw [Path.steps_filter, Path.steps_filter, Path.same_iff.1 same]
  obtain ⟨rfl, rfl⟩ := (walk_eq_ok.1 (spot_eq_ok spot).2).file_unique steps
    (walk_eq_ok.1 (spot_eq_ok spot').2)
  rw [readFile_eq_ok.1 read, readFile_eq_ok.1 read']

end Tree
end Attic
