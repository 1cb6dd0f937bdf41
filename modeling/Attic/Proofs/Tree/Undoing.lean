import Attic.Proofs.Tree.Moving
import Mathlib

/-!
# Moves that fail and moves that are undone

A file that cannot be moved into a folder beside it stays where it is, and one
that has been moved can be moved back as long as nothing else happens. Either way
at most the folder has come.

Key definition: `Tree.Opened`.
Key theorems: `Tree.makeFolders_opened`, `Tree.moveFile_error`, `Tree.moveFile_back`.
-/

namespace Attic
namespace Tree

variable {t t' : Tree} {base here l m k : Location} {p q root : Path} {mode : Nat}
variable {bytes : ByteArray} {xs ns : List String} {n d a : String} {f : Fault}

/-- A folder has come at a place at most, and nothing else has changed. -/
structure Opened (t t' : Tree) (l : Location) : Prop where
  made : t.GrowsAt t' l
  elsewhere : ∀ k, k ≠ l → t'.get? k = t.get? k

namespace Opened

theorem refl (t : Tree) (l : Location) : t.Opened t l := ⟨.inl rfl, fun _ _ => rfl⟩

theorem set (free : t.get? l = none) : t.Opened (t.set l .folder) l :=
  ⟨grows_set_folder free l, fun _ => get?_set_other⟩

theorem grows (h : t.Opened t' l) : t.Grows t' := by
  intro k
  by_cases hk : k = l
  · exact hk ▸ h.made
  · exact .inl (h.elsewhere k hk)

/-- A tree stays plain when a folder comes in a folder. -/
theorem plain (h : t.Opened t' l) (plain : t.Plain) (hl : l ≠ [])
    (above : t.get? l.dropLast = some .folder) : t'.Plain := by
  rcases h.made with same | ⟨free, folder⟩
  · refine plain.congr fun k => ?_
    by_cases hk : k = l
    · rw [hk, same]
    · exact h.elsewhere k hk
  · refine (plain.set (o := .folder) (by simp) hl above (by simp [free])).congr fun k => ?_
    by_cases hk : k = l
    · rw [hk, folder, get?_set_same hl]
    · rw [h.elsewhere k hk, get?_set_other hk]

end Opened

/-! ### The folder beside a file -/

/-- **Making a folder beside a file makes that folder at most**, whether it
succeeds or not. -/
theorem makeFolders_opened (plain : t.Plain) (steps : steps q.text = xs ++ [d])
    (reached : t.reach [] xs = some here) (isName : Path.IsName d) :
    t.Opened (t.makeFolders q).2 (here ++ [d]) := by
  have makes := makeFolders_beside plain steps reached isName
  generalize t.makeFolders q = c at makes ⊢
  cases makes with
  | @made l name spot =>
    have place : l ++ [name] = here ++ [d] := place_beside plain steps reached isName spot
    rw [place]
    exact .set (place ▸ (plain.in_folder.spot_holds spot).2)
  | there | failed => exact .refl t _

/-! ### Moves that fail -/

/-- What cannot get another name keeps its own. -/
theorem rename_error (failed : t.rename p q = (.error f, t')) : t' = t := by
  unfold rename at failed
  repeat' split at failed
  all_goals cases failed
  all_goals rfl

/-- A file does not lie in its copy, nor the copy in the file. -/
theorem places_outside (base : Location) (ns : List String) (a : String) (differ : d ≠ n) :
    (base ++ (ns ++ [d, a])).isPrefixOf (base ++ (ns ++ [n])) = false ∧
      (base ++ (ns ++ [n])).isPrefixOf (base ++ (ns ++ [d, a])) = false := by
  refine ⟨Bool.eq_false_iff.2 fun inside => ?_, Bool.eq_false_iff.2 fun inside => ?_⟩
  · have short := (List.isPrefixOf_iff_prefix.1 inside).length_le
    simp at short
  · have front := List.isPrefixOf_iff_prefix.1 inside
    rw [List.prefix_append_right_inj, List.prefix_append_right_inj, List.cons_prefix_cons] at front
    exact differ front.1.symm

section

variable (plain : t.Plain) (rooted : t.reach [] (steps root.text) = some base)
variable (hns : ∀ b ∈ ns, Path.IsName b) (hd : Path.IsName d) (ha : Path.IsName a)
variable (fits : Fits root (ns ++ [n]))
variable (there : t.get? (base ++ (ns ++ [n])) = some (.file mode bytes))

include plain rooted hns hd ha fits there

/-- **A file that cannot be moved stays**, and at most the folder has come. -/
theorem moveFile_error (failed : t.moveFile (root.join (.ofNames (ns ++ [n])))
    (root.join (.ofNames (ns ++ [d, a]))) = (.error f, t')) :
    t.Opened t' (base ++ (ns ++ [d])) := by
  obtain ⟨q, parent, above⟩ := exists_parent root hns hd ha
  have reached := reach_above plain rooted hns fits (by simp [there])
  have opened := makeFolders_opened plain above reached hd
  have made : t.makeParent (root.join (.ofNames (ns ++ [d, a]))) = t.makeFolders q := by
    rw [makeParent, parent]
  unfold moveFile at failed
  rw [made] at failed
  rw [List.append_assoc] at opened
  cases making : t.makeFolders q with
  | mk result t₁ =>
  rw [making] at failed opened
  cases result with
  | error g =>
    rw [← (Prod.mk.inj failed).2]
    exact opened
  | ok =>
    rw [rename_error failed]
    exact opened

/-- **A file that has been moved is moved back**, and at most the folder has come. -/
theorem moveFile_back (hn : Path.IsName n)
    (vacant : t.get? (base ++ (ns ++ [d, a])) = none)
    (done : t.moveFile (root.join (.ofNames (ns ++ [n]))) (root.join (.ofNames (ns ++ [d, a]))) =
      (.ok (), t')) :
    ∃ t₁, t'.moveFile (root.join (.ofNames (ns ++ [d, a]))) (root.join (.ofNames (ns ++ [n]))) =
        (.ok (), t₁) ∧ t.Opened t₁ (base ++ (ns ++ [d])) := by
  have isName := Path.isName_concat hns hn
  have isName' := Path.isName_pair hns hd ha
  obtain ⟨fits', plain', moves⟩ := moveFile_moves plain rooted hns hn hd ha fits there done
  have kept {k : Location} : t.get? k = some .folder → t'.get? k = some .folder := moves.folders
  have rooted' := reach_kept (fun _ => kept) _ _ rooted
  have script : t.readFile (root.join (.ofNames (ns ++ [n]))) = .ok (mode, bytes) :=
    (readFile_below plain rooted isName (by simp)).2 ⟨fits, there⟩
  have copy : t'.get? (base ++ (ns ++ [d, a])) = some (.file mode bytes) := by
    obtain ⟨mode', bytes', file, copy⟩ := moves.file
    obtain ⟨rfl, rfl⟩ := Object.file.inj (Option.some.inj (there.symm.trans file))
    exact copy
  have above : t'.get? (base ++ ns) = some .folder := by
    refine kept (plain.in_folder.above (List.cons_ne_nil n []) ?_)
    rw [List.append_assoc, there]
    simp
  have source := spot_below_of_get? plain' rooted' isName' (by simp) fits' copy false
  have target := spot_below_of_none plain' rooted' isName rfl fits above moves.gone false
  -- the folder is no file, so it has another name
  have apart : d ≠ n := by
    rintro rfl
    exact moves.beside rfl
  have long : base ++ (ns ++ [d, a]) ≠ base ++ (ns ++ [n]) := by simp
  obtain ⟨outside, outside'⟩ := places_outside base ns a apart
  have place : base ++ ns ++ [n] = base ++ (ns ++ [n]) := by simp
  refine ⟨t'.relocate (base ++ (ns ++ [d, a])) (base ++ (ns ++ [n])), ?_, ?_⟩
  · rw [moveFile, makeParent_kept plain (fun _ => kept) script]
    simp only [rename, source, target, Spot.place, place, long, outside, outside', if_false,
      Bool.false_eq_true]
  have after := plain'.in_folder.get?_relocate copy (by simp) (m := base ++ (ns ++ [n])) (by simp)
    long
  have elsewhere {k : Location} := plain'.in_folder.get?_relocate_other copy (by simp)
    (m := base ++ (ns ++ [n])) (by simp) long (k := k)
  refine ⟨?_, fun k hk => ?_⟩
  · rw [GrowsAt, elsewhere (by simp) (by simp [apart])]
    exact moves.made
  · by_cases script : k = base ++ (ns ++ [n])
    · rw [script, after, get?_set_same (by simp), there]
    by_cases copied : k = base ++ (ns ++ [d, a])
    · rw [copied, after, get?_set_other long, get?_erase_same (by simp), vacant]
    · rw [elsewhere copied script, moves.elsewhere k script copied hk]

end

end Tree
end Attic
