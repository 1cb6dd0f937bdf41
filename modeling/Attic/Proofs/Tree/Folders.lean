import Attic.Proofs.Tree.Walk

/-!
# Making folders, step by step

A folder is made where its path finds a vacant place. If what it lies in is missing
that is made first, and so on upwards, until a path finds its place or the fuel is
spent. What can come of it is one case for each way in which the recursion ends or
goes on, and what making folders does to a tree is shown by induction on these.

Key definitions: `Tree.MakesLast`, `Tree.Makes`.
Key theorems: `Tree.makesLast_iff`, `Tree.makes_iff`.
-/

namespace Attic
namespace Tree

variable {t u : Tree} {p q : Path} {l : Location} {name : String} {n : Nat} {c : Change}

/-- What comes of making a folder that lies in one. -/
inductive MakesLast (t : Tree) (p : Path) : Change → Prop
  | made {l : Location} {name : String} (spot : t.spot false false p = .ok (.vacant l name)) :
    MakesLast t p (.ok (), t.set (l ++ [name]) .folder)
  | there (folder : t.isFolder p = true) : MakesLast t p (.ok (), t)
  | failed {f : Fault} (none : t.isFolder p = false) (fault : t.makeFolder p = (.error f, t)) :
    MakesLast t p (.error f, t)

theorem makeLast_makes (t : Tree) (p : Path) : MakesLast t p (t.makeLast p) := by
  have failed {f : Fault} (made : t.makeFolder p = (.error f, t)) :
      MakesLast t p (if t.isFolder p then (.ok (), t) else (.error f, t)) := by
    split
    · next folder => exact .there folder
    · next none => exact .failed (by simpa using none) made
  unfold makeLast
  cases spot : t.spot false false p with
  | error f =>
    have made : t.makeFolder p = (.error f, t) := by rw [makeFolder, spot]
    rw [made]
    exact failed made
  | ok s =>
    cases s with
    | found l o =>
      have made : t.makeFolder p = (.error .exists, t) := by rw [makeFolder, spot]
      rw [made]
      exact failed made
    | vacant l name =>
      rw [makeFolder, spot]
      exact .made spot

theorem makesLast_iff : MakesLast t p c ↔ t.makeLast p = c := by
  constructor
  · rintro (spot | folder | ⟨none, fault⟩)
    · rw [makeLast, makeFolder, spot]
    · rw [makeLast, makeFolder_of_isFolder folder]
      simp only [folder, if_true]
    · rw [makeLast, fault]
      simp only [none, Bool.false_eq_true, if_false]
  · rintro rfl
    exact makeLast_makes t p

/-- What comes of making a folder and those above it, with the fuel for them. -/
inductive Makes : Nat → Tree → Path → Change → Prop
  | spent {t : Tree} {p : Path} : Makes 0 t p (.error .notFound, t)
  | nowhere {n : Nat} {t : Tree} {p : Path} (empty : p.isEmpty = true) :
    Makes (n + 1) t p (.ok (), t)
  /-- Nothing is missing above it. -/
  | last {n : Nat} {t : Tree} {p : Path} {c : Change} (written : p.isEmpty = false)
      (present : t.spot false false p ≠ .error .notFound) (last : MakesLast t p c) :
    Makes (n + 1) t p c
  | top {n : Nat} {t : Tree} {p : Path} (written : p.isEmpty = false)
      (missing : t.spot false false p = .error .notFound) (none : p.parent? = none) :
    Makes (n + 1) t p (.error .notFound, t)
  | stuck {n : Nat} {t u : Tree} {p q : Path} {f : Fault} (written : p.isEmpty = false)
      (missing : t.spot false false p = .error .notFound) (parent : p.parent? = some q)
      (above : Makes n t q (.error f, u)) : Makes (n + 1) t p (.error f, u)
  | after {n : Nat} {t u : Tree} {p q : Path} {c : Change} (written : p.isEmpty = false)
      (missing : t.spot false false p = .error .notFound) (parent : p.parent? = some q)
      (above : Makes n t q (.ok (), u)) (last : MakesLast u p c) : Makes (n + 1) t p c

theorem makeFoldersFrom_present (written : p.isEmpty = false)
    (present : t.spot false false p ≠ .error .notFound) (n : Nat) :
    makeFoldersFrom (n + 1) t p = t.makeLast p := by
  rw [makeFoldersFrom, written, if_neg Bool.false_ne_true, makeLast, makeFolder]
  cases spot : t.spot false false p with
  | ok s => cases s <;> rfl
  | error f =>
    cases f with
    | notFound => exact absurd spot present
    | _ => rfl

theorem makeFoldersFrom_missing (written : p.isEmpty = false)
    (missing : t.spot false false p = .error .notFound) (n : Nat) :
    makeFoldersFrom (n + 1) t p = match p.parent? with
      | none => (.error .notFound, t)
      | some q =>
        match makeFoldersFrom n t q with
        | (.error f, u) => (.error f, u)
        | (.ok (), u) => u.makeLast p := by
  rewrite [makeFoldersFrom, written, if_neg Bool.false_ne_true, makeFolder, missing]
  rfl

theorem makeFoldersFrom_makes : ∀ (n : Nat) (t : Tree) (p : Path),
    Makes n t p (makeFoldersFrom n t p)
  | 0, _, _ => .spent
  | n + 1, t, p => by
    cases written : p.isEmpty with
    | true =>
      rw [makeFoldersFrom, written, if_pos rfl]
      exact .nowhere written
    | false =>
    by_cases missing : t.spot false false p = .error .notFound
    · rw [makeFoldersFrom_missing written missing]
      cases parent : p.parent? with
      | none => exact .top written missing parent
      | some q =>
        have makes := makeFoldersFrom_makes n t q
        cases above : makeFoldersFrom n t q with
        | mk result u =>
        rw [above] at makes
        cases result with
        | error f => simpa only [above] using .stuck written missing parent makes
        | ok => simpa only [above] using .after written missing parent makes (makeLast_makes u p)
    · rw [makeFoldersFrom_present written missing]
      exact .last written missing (makeLast_makes t p)

/-- **What comes of making folders is one of these cases, and these alone.** -/
theorem makes_iff : Makes n t p c ↔ makeFoldersFrom n t p = c := by
  constructor
  · intro h
    induction h with
    | spent => rfl
    | nowhere empty => rw [makeFoldersFrom, empty, if_pos rfl]
    | last written present last =>
      rw [makeFoldersFrom_present written present, makesLast_iff.1 last]
    | top written missing none => simp only [makeFoldersFrom_missing written missing, none]
    | stuck written missing parent _ above =>
      simp only [makeFoldersFrom_missing written missing, parent, above]
    | after written missing parent _ last above =>
      simp only [makeFoldersFrom_missing written missing, parent, above, makesLast_iff.1 last]
  · rintro rfl
    exact makeFoldersFrom_makes n t p

/-! ### Folders that are there -/

theorem makeFoldersFrom_empty (h : p.isEmpty = true) :
    makeFoldersFrom (n + 1) t p = (.ok (), t) :=
  makes_iff.1 (.nowhere h)

/-- Folders that are there are not made. -/
theorem makeFoldersFrom_of_isFolder (h : t.isFolder p = true) :
    makeFoldersFrom (n + 1) t p = (.ok (), t) := by
  cases written : p.isEmpty with
  | true => exact makeFoldersFrom_empty written
  | false =>
    refine makes_iff.1 (.last written ?_ (.there h))
    obtain ⟨l, o, spot⟩ := spot_of_isFolder h
    simp [spot]

theorem makeFolders_of_isFolder (h : t.isFolder p = true) : t.makeFolders p = (.ok (), t) :=
  makeFoldersFrom_of_isFolder h

/-- Where the folder above a path is there, nothing is made for the path. -/
theorem makeParent_of_isFolder
    (h : ∀ q, p.parent? = some q → q.isEmpty = false → t.isFolder q = true) :
    t.makeParent p = (.ok (), t) := by
  unfold makeParent
  cases parent : p.parent? with
  | none => rfl
  | some q =>
    cases written : q.isEmpty with
    | true => exact makeFoldersFrom_empty written
    | false => exact makeFolders_of_isFolder (h q parent written)

end Tree
end Attic
