import Attic.Tree.Lookup
import Mathlib

/-!
# Ways, one step at a time

A path that leads somewhere does so in steps: it stays at a place, goes up, goes
down into a folder, ends at what is there or at nothing, or goes on where a link
leads. What holds of every way is proved by induction on these steps.

Key definition: `Tree.Leads`.
Key theorems: `Tree.walk_step`, `Tree.walk_eq_ok`.
-/

namespace Attic
namespace Tree

variable {t : Tree} {into must : Bool} {links : Nat} {here : Location} {name : String}
variable {path : List String} {s : Spot}

/-- Whether a name is looked up in a folder. -/
structure IsStep (name : String) : Prop where
  not_here : name ≠ "."
  not_up : name ≠ ".."
  fits : ¬ maxName < name.utf8ByteSize

theorem isStep_cases (name : String) :
    name = "." ∨ name = ".." ∨ maxName < name.utf8ByteSize ∨ IsStep name := by
  by_cases here : name = "."
  · exact .inl here
  by_cases up : name = ".."
  · exact .inr (.inl up)
  by_cases long : maxName < name.utf8ByteSize
  · exact .inr (.inr (.inl long))
  · exact .inr (.inr (.inr ⟨here, up, long⟩))

/-! ### The first step of a walk -/

theorem walk_nil : walk t into links here [] must = .ok (.found here .folder) := by
  cases links <;> rfl

theorem walk_here :
    walk t into links here ("." :: path) must = walk t into links here path must := by
  cases links <;> rfl

theorem walk_up :
    walk t into links here (".." :: path) must = walk t into links here.dropLast path must := by
  cases links <;> rfl

theorem walk_long (long : maxName < name.utf8ByteSize) :
    walk t into links here (name :: path) must = .error .nameTooLong := by
  have not_here : name ≠ "." := by
    rintro rfl
    exact absurd long (by decide)
  have not_up : name ≠ ".." := by
    rintro rfl
    exact absurd long (by decide)
  cases links <;> rw [walk, stroll, if_neg not_here, if_neg not_up, if_pos long]

/-- **The first step of a walk into a folder** is by what is there under its name. -/
theorem walk_step (step : IsStep name) : walk t into links here (name :: path) must =
    match t.get? (here ++ [name]) with
    | none => if path = [] && !must then .ok (.vacant here name) else .error .notFound
    | some .folder => walk t into links (here ++ [name]) path must
    | some (.file mode bytes) =>
      if path = [] && !must then .ok (.found (here ++ [name]) (.file mode bytes))
      else .error .notFolder
    | some (.link target) =>
      if path = [] && !into && !must then .ok (.found (here ++ [name]) (.link target))
      else match links with
        | 0 => .error .tooManyLinks
        | links + 1 =>
          walk t into links (if startsWithSlash target then [] else here) (steps target ++ path)
            (must || (path = [] && endsWithSlash target)) := by
  cases links <;>
  · rw [walk, stroll, if_neg step.not_here, if_neg step.not_up, if_neg step.fits]
    rfl

/-! ### Ways -/

/-- Whether a path leads from a place to a spot, through at most so many links. -/
inductive Leads (t : Tree) (into : Bool) : Nat → Location → List String → Bool → Spot → Prop
  | nil {links : Nat} {here : Location} {must : Bool} :
      Leads t into links here [] must (.found here .folder)
  | here {links : Nat} {here : Location} {path : List String} {must : Bool} {s : Spot}
      (next : Leads t into links here path must s) : Leads t into links here ("." :: path) must s
  | up {links : Nat} {here : Location} {path : List String} {must : Bool} {s : Spot}
      (next : Leads t into links here.dropLast path must s) :
      Leads t into links here (".." :: path) must s
  | folder {links : Nat} {here : Location} {name : String} {path : List String} {must : Bool}
      {s : Spot} (step : IsStep name) (there : t.get? (here ++ [name]) = some .folder)
      (next : Leads t into links (here ++ [name]) path must s) :
      Leads t into links here (name :: path) must s
  | vacant {links : Nat} {here : Location} {name : String} (step : IsStep name)
      (free : t.get? (here ++ [name]) = none) :
      Leads t into links here [name] false (.vacant here name)
  | file {links : Nat} {here : Location} {name : String} {mode : Nat} {bytes : ByteArray}
      (step : IsStep name) (there : t.get? (here ++ [name]) = some (.file mode bytes)) :
      Leads t into links here [name] false (.found (here ++ [name]) (.file mode bytes))
  /-- A link at the end is not followed. -/
  | link {links : Nat} {here : Location} {name target : String} (step : IsStep name)
      (there : t.get? (here ++ [name]) = some (.link target)) (still : into = false) :
      Leads t into links here [name] false (.found (here ++ [name]) (.link target))
  | follow {links : Nat} {here : Location} {name target : String} {path : List String}
      {must : Bool} {s : Spot} (step : IsStep name)
      (there : t.get? (here ++ [name]) = some (.link target))
      (more : (path = [] && !into && !must) = false)
      (next : Leads t into links (if startsWithSlash target then [] else here)
        (steps target ++ path) (must || (path = [] && endsWithSlash target)) s) :
      Leads t into (links + 1) here (name :: path) must s

theorem leads_of_walk : ∀ {links : Nat} {here : Location} {path : List String} {must : Bool},
    walk t into links here path must = .ok s → Leads t into links here path must s
  | links, here, [], must, h => by
    rw [walk_nil] at h
    obtain rfl := Except.ok.inj h
    exact .nil
  | links, here, name :: path, must, h => by
    rcases isStep_cases name with rfl | rfl | long | step
    · rw [walk_here] at h
      exact .here (leads_of_walk h)
    · rw [walk_up] at h
      exact .up (leads_of_walk h)
    · rw [walk_long long] at h
      simp at h
    · rw [walk_step step] at h
      have ends (last : (path = [] && !must) = true) : path = [] ∧ must = false := by
        simpa using last
      split at h
      · next free =>
        split at h
        · next last =>
          obtain ⟨rfl, rfl⟩ := ends last
          obtain rfl := Except.ok.inj h
          exact .vacant step free
        · simp at h
      · next there => exact .folder step there (leads_of_walk h)
      · next there =>
        split at h
        · next last =>
          obtain ⟨rfl, rfl⟩ := ends last
          obtain rfl := Except.ok.inj h
          exact .file step there
        · simp at h
      · next target there =>
        split at h
        · next last =>
          obtain ⟨⟨rfl, still⟩, rfl⟩ : (path = [] ∧ into = false) ∧ must = false := by
            simpa using last
          obtain rfl := Except.ok.inj h
          exact .link step there still
        · next more =>
          cases links with
          | zero => simp at h
          | succ links =>
            exact .follow step there (by simpa using more) (leads_of_walk h)
termination_by links _ path => (links, path.length)

theorem walk_of_leads (h : Leads t into links here path must s) :
    walk t into links here path must = .ok s := by
  induction h with
  | nil => exact walk_nil
  | here _ ih => rw [walk_here, ih]
  | up _ ih => rw [walk_up, ih]
  | folder step there _ ih =>
    rw [walk_step step, there]
    exact ih
  | vacant step free =>
    rw [walk_step step, free]
    rfl
  | file step there =>
    rw [walk_step step, there]
    rfl
  | link step there still =>
    rw [walk_step step, there, still]
    rfl
  | follow step there more _ ih =>
    rw [walk_step step, there, more]
    exact ih

/-- **A walk succeeds where a path leads somewhere.** -/
theorem walk_eq_ok :
    walk t into links here path must = .ok s ↔ Leads t into links here path must s :=
  ⟨leads_of_walk, walk_of_leads⟩

end Tree
end Attic
