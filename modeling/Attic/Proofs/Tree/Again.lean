import Attic.Proofs.Tree.Making
import Mathlib

/-!
# Making folders a second time

Whether making folders succeeded or failed on the way, asking for them again
changes nothing: where it succeeded the folder is there, and where it failed what
kept it from going on still does.

Key theorems: `Tree.isFolder_of_makeFoldersFrom`, `Tree.Makes.again`,
`Tree.makeFolders_again`.
-/

namespace Attic
namespace Tree

variable {t u : Tree} {p q : Path} {l : Location} {name : String} {n : Nat} {f : Fault}
variable {into must : Bool} {s : Spot}

/-- Nothing is at a place that a way leads to and finds vacant. -/
theorem Leads.vacant_free {links : Nat} {here : Location} {path : List String}
    (h : Leads t into links here path must (.vacant l name)) : t.get? (l ++ [name]) = none := by
  generalize e : Spot.vacant l name = s at h
  induction h with
  | nil | file | link => simp at e
  | here _ ih | up _ ih | folder _ _ _ ih | follow _ _ _ _ ih => exact ih e
  | vacant _ free =>
    obtain ⟨rfl, rfl⟩ := Spot.vacant.inj e
    exact free

theorem free_of_spot (h : t.spot into must p = .ok (.vacant l name)) :
    t.get? (l ++ [name]) = none :=
  (walk_eq_ok.1 (spot_eq_ok h).2).vacant_free

theorem MakesLast.isFolder (h : MakesLast t p (.ok (), u)) : u.isFolder p = true := by
  cases h with
  | there folder => exact folder
  | made spot =>
    have grows := grows_set_folder (free_of_spot spot)
    obtain ⟨fault, way⟩ := spot_eq_ok spot
    exact isFolder_of_spot (spot_of_walk fault (walk_reads (fun l => (grows l).keeps)
      (fun l _ => (grows l).keeps) (.filled (get?_set_same (by simp)) (by simp)) way))

/-- **Where making folders succeeds the folder is there.** -/
theorem isFolder_of_makeFoldersFrom (written : p.isEmpty = false)
    (h : makeFoldersFrom n t p = (.ok (), u)) : u.isFolder p = true := by
  cases makes_iff.2 h with
  | nowhere empty => simp [written] at empty
  | last _ _ last | after _ _ _ _ last => exact last.isFolder

/-- What a path lies in is there where the path leads to a folder. -/
theorem isFolder_above (hq : p.parent? = some q) (hne : q.isEmpty = false)
    (h : t.isFolder p = true) : t.isFolder q = true := by
  obtain ⟨l, o, spot⟩ := spot_of_isFolder h
  exact isFolder_of_parent spot hq hne

/-- **Where making folders fails the folder is not there**, and what a failed
attempt changed was made above it. -/
theorem not_isFolder_of_makeFoldersFrom : ∀ {n : Nat} {t u : Tree} {p : Path} {f : Fault},
    n ≠ 0 → makeFoldersFrom n t p = (.error f, u) → p.isEmpty = false ∧ u.isFolder p = false
  | n + 1, t, u, p, f, _, h => by
    cases makes_iff.2 h with
    | last written _ last =>
      cases last with
      | failed none => exact ⟨written, none⟩
    | top written missing => exact ⟨written, not_isFolder_of_error missing⟩
    | stuck written missing parent above =>
      refine ⟨written, ?_⟩
      cases n with
      | zero =>
        cases above
        exact not_isFolder_of_error missing
      | succ n =>
        obtain ⟨writtenQ, none⟩ :=
          not_isFolder_of_makeFoldersFrom n.succ_ne_zero (makes_iff.1 above)
        exact Bool.eq_false_iff.2 fun folder =>
          Bool.eq_false_iff.1 none (isFolder_above parent writtenQ folder)
    | after written _ _ _ last =>
      cases last with
      | failed none => exact ⟨written, none⟩

/-- Where no folder can be made at a path, making folders changes nothing if it
changes nothing above. -/
theorem makes_eq {c : Change} (makes : Makes n t p c)
    (taken : ∀ l name, t.spot false false p ≠ .ok (.vacant l name))
    (above : ∀ m q, n = m + 1 → p.parent? = some q → (makeFoldersFrom m t q).2 = t) : c.2 = t := by
  cases makes with
  | spent | nowhere | top => rfl
  | last _ _ last =>
    cases last with
    | made spot => exact absurd spot (taken _ _)
    | there | failed => rfl
  | stuck _ _ parent makes =>
    have same := above _ _ rfl parent
    rwa [makes_iff.1 makes] at same
  | after _ _ parent makes last =>
    have same := above _ _ rfl parent
    rw [makes_iff.1 makes] at same
    obtain rfl : _ = t := same
    cases last with
    | made spot => exact absurd spot (taken _ _)
    | there | failed => rfl

/-- **Making folders again changes nothing**, also where it failed. -/
theorem Makes.again {c : Change} (makes : Makes n t p c) : (makeFoldersFrom n c.2 p).2 = c.2 := by
  have done {n : Nat} {t u : Tree} {p : Path} (last : MakesLast t p (.ok (), u)) :
      (makeFoldersFrom (n + 1) u p).2 = u := by
    rw [makeFoldersFrom_of_isFolder last.isFolder]
  induction makes with
  | spent => rfl
  | nowhere empty => rw [makeFoldersFrom_empty empty]
  | top written missing none => rw [makes_iff.1 (.top written missing none)]
  | last written present last =>
    cases last with
    | made spot => exact done (.made spot)
    | there folder => exact done (.there folder)
    | failed none fault => rw [makes_iff.1 (.last written present (.failed none fault))]
  | @stuck n t u p q f written missing parent makes above =>
    refine makes_eq (makeFoldersFrom_makes _ _ _) (fun l name spot => ?_) ?_
    · -- the path would lead to a vacant place, and so what it lies in would be there
      cases n with
      | zero =>
        cases makes
        simp [missing] at spot
      | succ n =>
        obtain ⟨writtenQ, none⟩ :=
          not_isFolder_of_makeFoldersFrom n.succ_ne_zero (makes_iff.1 makes)
        simp [isFolder_of_parent spot parent writtenQ] at none
    · rintro m q' ⟨⟩ parent'
      obtain rfl := Option.some.inj (parent.symm.trans parent')
      exact above
  | @after n t u p q c written missing parent makes last above =>
    cases last with
    | made spot => exact done (.made spot)
    | there folder => exact done (.there folder)
    | failed none fault =>
      refine makes_eq (makeFoldersFrom_makes _ _ _) (fun l name spot => ?_) ?_
      · simp [makeFolder, spot] at fault
      · rintro m q' ⟨⟩ parent'
        obtain rfl := Option.some.inj (parent.symm.trans parent')
        exact above

theorem makeFoldersFrom_again (n : Nat) (t : Tree) (p : Path) :
    (makeFoldersFrom n (makeFoldersFrom n t p).2 p).2 = (makeFoldersFrom n t p).2 :=
  (makeFoldersFrom_makes n t p).again

theorem makeFolders_again (t : Tree) (p : Path) :
    ((t.makeFolders p).2.makeFolders p).2 = (t.makeFolders p).2 :=
  makeFoldersFrom_again _ t p

end Tree
end Attic
