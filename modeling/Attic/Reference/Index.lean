import Attic.Order.Sorted
import Attic.Path.Normal
import Attic.Path.Parts

/-!
# The index of archived scripts

The index holds the normal paths of archived scripts, sorted and each once, and
the same scripts by their paths without extension. A candidate path names scripts
as modules do: without an extension it names scripts of any extension, and the
index script of a folder; extensions of the JavaScript family name each other. A
path can also be matched from its end.

Key definitions: `Reference.Stems`, `Reference.Index`, `Reference.Index.ofPaths`,
`Reference.Index.contains`, `Reference.Index.named`, `Reference.Index.endingIn`.
Key theorems: `Reference.Stems.get_put`, `Reference.Stems.get_ofPaths`,
`Reference.Index.withStem_eq`.
-/

namespace Attic
namespace Reference

/-- The extensions that name each other. -/
def scriptFamily : List String := ["js", "mjs", "cjs", "jsx", "ts", "mts", "cts", "tsx"]

def inFamily (p : Path) : Bool :=
  match p.extension? with
  | some e => scriptFamily.contains e
  | none => false

/-! ### Scripts by their stems -/

/-- Archived scripts, grouped by their paths without extension. -/
abbrev Stems := List (Path × List Path)

namespace Stems

/-- Puts a script to the others of its stem. -/
def put (stem p : Path) : Stems → Stems
  | [] => [(stem, [p])]
  | (s, ps) :: t => if s.same stem then (s, ps ++ [p]) :: t else (s, ps) :: put stem p t

/-- The scripts of a stem. -/
def get (stem : Path) : Stems → List Path
  | [] => []
  | (s, ps) :: t => if s.same stem then ps else get stem t

/-- The groups of some scripts, put one after the other. -/
def ofPaths (paths : List Path) : Stems :=
  paths.foldl (fun t p => t.put (p.withExtension "") p) []

theorem get_put (stem s p : Path) : ∀ t : Stems,
    (t.put s p).get stem = t.get stem ++ if s.same stem then [p] else []
  | [] => by simp [put, get]
  | (s', ps) :: t => by
    have ih := get_put stem s p t
    cases here : s'.same s with
    | true =>
      -- the group is that of `s`, so it is that of `stem` if and only if `s` is
      have alike : s'.same stem = s.same stem := by
        rw [Bool.eq_iff_iff]
        exact ⟨Path.same_trans (Path.same_symm here), Path.same_trans here⟩
      cases of : s.same stem with
      | true => simp [put, get, here, alike, of]
      | false => simp [put, get, here, alike, of]
    | false =>
      cases of : s'.same stem with
      | true =>
        have other : s.same stem = false := by
          refine Bool.eq_false_iff.2 fun same => ?_
          rw [Path.same_trans of (Path.same_symm same)] at here
          exact Bool.noConfusion here
        simp [put, get, here, of, other]
      | false => simp [put, get, here, of, ih]

theorem get_foldl (stem : Path) : ∀ (paths : List Path) (t : Stems),
    (paths.foldl (fun t p => t.put (p.withExtension "") p) t).get stem =
      t.get stem ++ paths.filter fun p => (p.withExtension "").same stem
  | [], t => by simp
  | p :: paths, t => by
    rw [List.foldl_cons, get_foldl stem paths, get_put, List.append_assoc, List.filter_cons]
    split <;> rfl

/-- **The group of a stem holds the scripts that are this stem without their extension**,
in their order. -/
theorem get_ofPaths (stem : Path) (paths : List Path) :
    (ofPaths paths).get stem = paths.filter fun p => (p.withExtension "").same stem :=
  get_foldl stem paths []

end Stems

/-! ### The index -/

/-- The normal paths of archived scripts, sorted, each once, and their groups. -/
structure Index where
  paths : List Path
  stems : Stems
  grouped : stems = Stems.ofPaths paths

namespace Index

/-- The index of paths that are normal and sorted, each once. -/
def ofSorted (paths : List Path) : Index := ⟨paths, Stems.ofPaths paths, rfl⟩

@[simp] theorem paths_ofSorted (paths : List Path) : (ofSorted paths).paths = paths := rfl

/-- The index of some paths. Those without a normal form are left out. -/
def ofPaths (paths : List Path) : Index :=
  ofSorted (Order.sortDistinct Path.before
    ((paths.filterMap Path.normalize?).filter fun p => !p.isEmpty))

def isEmpty (i : Index) : Bool := i.paths.isEmpty

def size (i : Index) : Nat := i.paths.length

def contains (i : Index) (p : Path) : Bool := i.paths.any fun q => q.same p

/-- The scripts whose path without its extension is `stem`. -/
def withStem (i : Index) (stem : Path) : List Path := i.stems.get stem

theorem withStem_eq (i : Index) (stem : Path) :
    i.withStem stem = i.paths.filter fun p => (p.withExtension "").same stem := by
  rw [withStem, i.grouped, Stems.get_ofPaths]

/-- The candidate itself, if it is archived. -/
def exactly (i : Index) (p : Path) : List Path := if i.contains p then [p] else []

/-- The scripts that a normal path names as modules do. -/
def named (i : Index) (p : Path) : List Path :=
  if p.isEmpty then []
  else
    i.exactly p ++
      if p.extension?.isNone then i.withStem p ++ i.withStem (p.join ⟨"index"⟩)
      else if inFamily p then (i.withStem (p.withExtension "")).filter inFamily
      else []

/-- Whether an archived path ends in `tail`, as modules name each other. -/
def endsIn (tail p : Path) : Bool :=
  p.endsWith tail ||
    (tail.extension?.isNone && (p.withExtension "").endsWith tail) ||
    (inFamily tail && inFamily p && (p.withExtension "").endsWith (tail.withExtension ""))

/-- The scripts whose paths end in `tail`. -/
def endingIn (i : Index) (tail : Path) : List Path :=
  if tail.isEmpty then [] else i.paths.filter (endsIn tail)

end Index
end Reference
end Attic
