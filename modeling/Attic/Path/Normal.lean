import Attic.Path.Basic

/-!
# Normal paths

A relative path that climbs no higher than where it starts has a normal form:
its names, after each `..` has taken back the name before it. Scripts are
recorded and compared in this form.

Key definitions: `Path.climb`, `Path.names?`, `Path.normalize?`.
Key theorems: `Path.climb_names`, `Path.climb_append`.
-/

namespace Attic
namespace Path

/-- Follows components from the names on the stack, last name first. No stack
is left when a `..` has nothing to take back or the path starts at the root. -/
def climb : List String → List Component → Option (List String)
  | stack, [] => some stack
  | stack, .here :: cs => climb stack cs
  | stack, .name s :: cs => climb (s :: stack) cs
  | _ :: stack, .up :: cs => climb stack cs
  | [], .up :: _ => none
  | _, .root :: _ => none

/-- The names of the normal form, outermost first. -/
def names? (p : Path) : Option (List String) := (climb [] p.components).map List.reverse

/-- The normal form: none for an absolute path and for one that climbs above its
start. -/
def normalize? (p : Path) : Option Path := p.names?.map ofNames

theorem climb_append : ∀ (stack : List String) (cs ds : List Component),
    climb stack (cs ++ ds) = (climb stack cs).bind fun s => climb s ds
  | stack, [], ds => by simp [climb]
  | stack, .here :: cs, ds => by simpa [climb] using climb_append stack cs ds
  | stack, .name s :: cs, ds => by simpa [climb] using climb_append (s :: stack) cs ds
  | _ :: stack, .up :: cs, ds => by simpa [climb] using climb_append stack cs ds
  | [], .up :: cs, ds => by simp [climb]
  | [], .root :: cs, ds => by simp [climb]
  | _ :: _, .root :: cs, ds => by simp [climb]

/-- Names are put on the stack. -/
theorem climb_names : ∀ (stack names : List String),
    climb stack (names.map .name) = some (names.reverse ++ stack)
  | stack, [] => by simp [climb]
  | stack, s :: names => by simp [climb, climb_names (s :: stack) names]

end Path
end Attic
