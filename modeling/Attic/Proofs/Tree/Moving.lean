import Attic.Proofs.Path.Parts
import Attic.Proofs.Tree.Below
import Mathlib

/-!
# Moving files

A file that is moved into a folder beside it is gone from its place and stands
at the other. The folder may have been made for it; nothing else changes.

Key definition: `Tree.Moves`.
Key theorems: `Tree.makeFolders_beside`, `Tree.moveFile_moves`, `Tree.makeParent_kept`,
`Tree.createFile_free`.
-/

namespace Attic
namespace Tree

variable {t t' : Tree} {base here l m k : Location} {p q root : Path} {mode : Nat}
variable {bytes : ByteArray} {o : Object} {xs ns : List String} {n d a : String}

/-! ### The folder beside a file -/

/-- A path that takes a step to a name is written. -/
theorem written_of_steps (h : steps q.text = xs ++ [d]) : q.isEmpty = false := by
  refine Bool.eq_false_iff.2 fun empty => ?_
  simp only [Path.isEmpty, String.isEmpty_iff] at empty
  have length := congrArg List.length h
  simp [empty, steps, Text.cutEach_nil] at length

section

variable (plain : t.Plain) (steps : steps q.text = xs ++ [d])
variable (reached : t.reach [] xs = some here)

include plain steps reached

theorem spot_beside (fault : pathFault? q.text = none) (into must : Bool) :
    t.spot into must q = way t must here [d] := by
  rw [spot_plain plain fault, steps, way_append [d] xs [] reached]

variable (isName : Path.IsName d)

include isName

theorem place_beside {into must : Bool} {s : Spot} (h : t.spot into must q = .ok s) :
    s.place.1 = here ++ [d] := by
  have alone : ∀ b ∈ [d], Path.IsName b := by simpa using isName
  rw [spot_beside plain steps reached (spot_eq_ok h).1] at h
  exact (way_place plain here alone h).2

/-- What the path lies in is there. -/
theorem present_beside : t.spot false false q ≠ .error .notFound := by
  intro missing
  have fault := fault_of_missing (written_of_steps steps) missing
  rw [spot_beside plain steps reached fault] at missing
  by_cases long : maxName < d.utf8ByteSize
  · rw [way_long isName long] at missing
    simp at missing
  rw [way_name isName (by omega)] at missing
  cases there : t.get? (here ++ [d]) with
  | none => simp [there] at missing
  | some o =>
    cases o with
    | folder => simp [there, way, stroll] at missing
    | file mode bytes => simp [there] at missing
    | link target => exact absurd there (plain.linkless _ _)

theorem isFolder_beside (h : t.isFolder q = true) : t.get? (here ++ [d]) = some .folder := by
  unfold isFolder at h
  split at h
  · next look =>
    obtain ⟨l, spot⟩ := look_eq_ok look
    rw [← place_beside plain steps reached isName spot]
    exact plain.in_folder.spot_holds spot
  · simp at h

/-- **A folder beside a file is there or is made, or nothing comes.** -/
theorem makeFolders_beside : MakesLast t q (t.makeFolders q) := by
  rw [makeFolders, makeFoldersFrom_present (written_of_steps steps)
    (present_beside plain steps reached isName)]
  exact makeLast_makes t q

end

/-! ### Moving a file into a folder beside it -/

/-- What moving a file from `l` to `m` into a folder does. -/
structure Moves (t t' : Tree) (l folder m : Location) : Prop where
  file : ∃ mode bytes, t.get? l = some (.file mode bytes) ∧ t'.get? m = some (.file mode bytes)
  gone : t'.get? l = none
  free : t.get? m ≠ some .folder
  beside : folder ≠ l
  made : t.GrowsAt t' folder
  elsewhere : ∀ k, k ≠ l → k ≠ m → k ≠ folder → t'.get? k = t.get? k

/-- Elsewhere a folder comes at most. -/
theorem Moves.growsAt {folder : Location} (h : t.Moves t' l folder m) (hl : k ≠ l) (hm : k ≠ m) :
    t.GrowsAt t' k := by
  by_cases hk : k = folder
  · rw [hk]
    exact h.made
  · exact .inl (h.elsewhere k hl hm hk)

theorem Moves.folders {folder : Location} (h : t.Moves t' l folder m)
    (hk : t.get? k = some .folder) : t'.get? k = some .folder := by
  refine (h.growsAt ?_ ?_).keeps hk
  · rintro rfl
    obtain ⟨mode, bytes, file, -⟩ := h.file
    rw [hk] at file
    simp at file
  · rintro rfl
    exact h.free hk

/-- Dots that end what ends with a name are none. -/
theorem dots_eq_nil {ys zs : List String} (ha : Path.IsName a) (split : xs ++ [a] = zs ++ ys)
    (idle : ∀ y ∈ ys, y = ".") : ys = [] := by
  by_contra more
  obtain ⟨ds, dot, rfl⟩ := (List.eq_nil_or_concat ys).resolve_left more
  have last := congrArg List.getLast? split
  simp only [List.concat_eq_append] at last idle
  rw [← List.append_assoc, List.getLast?_concat, List.getLast?_concat] at last
  exact ha.not_dot ((Option.some.inj last).trans (idle dot (by simp)))

/-- The parent of a path behind a root that ends with two names. -/
theorem exists_parent (root : Path) (hns : ∀ a ∈ ns, Path.IsName a) (hd : Path.IsName d)
    (ha : Path.IsName a) : ∃ q, (root.join (.ofNames (ns ++ [d, a]))).parent? = some q ∧
      steps q.text = steps root.text ++ ns ++ [d] := by
  have isName := Path.isName_concat (Path.isName_concat hns hd) ha
  have names : ns ++ [d, a] = ns ++ [d] ++ [a] := by simp
  have last := Path.fileChars?_join_ofNames (Path.isName_concat hns hd) ha root
  rw [← names] at isName last
  obtain ⟨q, hq⟩ : ∃ q, (root.join (.ofNames (ns ++ [d, a]))).parent? = some q := by
    unfold Path.parent?
    cases hs : (root.join (.ofNames (ns ++ [d, a]))).splitLast? with
    | none => simp [Path.fileChars?, hs] at last
    | some pieces => exact ⟨_, rfl⟩
  refine ⟨q, hq, ?_⟩
  obtain ⟨dots, last, dots', split, idle, idle'⟩ := Path.steps_parent hq
  rw [Path.steps_join_ofNames root isName, names] at split
  have whole : steps root.text ++ ns ++ [d] ++ [a] = steps q.text ++ dots ++ [last] ++ dots' := by
    simpa using split
  obtain rfl := dots_eq_nil ha whole idle'
  rw [List.append_nil] at whole
  obtain ⟨split, -⟩ := List.append_inj' whole rfl
  have none := dots_eq_nil hd split idle
  rw [none, List.append_nil] at split
  exact split.symm

section

variable (plain : t.Plain) (rooted : t.reach [] (steps root.text) = some base)
variable (hns : ∀ a ∈ ns, Path.IsName a) (hn : Path.IsName n)

include plain rooted hns

/-- The folder of a script can be reached. -/
theorem reach_above (fits : Fits root (ns ++ [n])) (there : t.get? (base ++ (ns ++ [n])) ≠ none) :
    t.reach [] (steps root.text ++ ns) = some (base ++ ns) := by
  have folder : t.get? (base ++ ns) = some .folder := by
    rw [← List.append_assoc] at there
    exact plain.in_folder.above (by simp) there
  rw [reach_append, rooted]
  exact reach_names plain base hns (fun m hm => fits.2 m (List.mem_append_left _ hm)) folder

variable (hd : Path.IsName d) (ha : Path.IsName a)

include hn hd ha

omit hn in
/-- Making way for a copy makes the folder beside the script at most. -/
theorem makeParent_beside (fits : Fits root (ns ++ [n]))
    (there : t.get? (base ++ (ns ++ [n])) = some (.file mode bytes))
    (made : t.makeParent (root.join (.ofNames (ns ++ [d, a]))) = (.ok (), t')) :
    base ++ (ns ++ [d]) ≠ base ++ (ns ++ [n]) ∧ t'.get? (base ++ (ns ++ [d])) = some .folder ∧
      ∀ k, k ≠ base ++ (ns ++ [d]) → t'.get? k = t.get? k := by
  obtain ⟨q, parent, above⟩ := exists_parent root hns hd ha
  have reached := reach_above plain rooted hns fits (by simp [there])
  have makes := makeFolders_beside plain above reached hd
  rw [makeParent, parent] at made
  simp only [made] at makes
  have folder : base ++ ns ++ [d] = base ++ (ns ++ [d]) := List.append_assoc _ _ _
  cases makes with
  | there folder' =>
    have stands := isFolder_beside plain above reached hd folder'
    rw [folder] at stands
    refine ⟨fun e => ?_, stands, fun _ _ => rfl⟩
    rw [e, there] at stands
    simp at stands
  | @made l name spot =>
    have place : l ++ [name] = base ++ (ns ++ [d]) :=
      (place_beside plain above reached hd spot).trans folder
    have free := (plain.in_folder.spot_holds spot).2
    rw [place] at free ⊢
    refine ⟨fun e => ?_, get?_set_same (by simp), fun k hk => get?_set_other hk⟩
    rw [e, there] at free
    simp at free

/-- **A file moves into a folder beside it.** -/
theorem moveFile_moves (fits : Fits root (ns ++ [n]))
    (there : t.get? (base ++ (ns ++ [n])) = some (.file mode bytes))
    (done : t.moveFile (root.join (.ofNames (ns ++ [n]))) (root.join (.ofNames (ns ++ [d, a]))) =
      (.ok (), t')) :
    Fits root (ns ++ [d, a]) ∧ t'.Plain ∧
      t.Moves t' (base ++ (ns ++ [n])) (base ++ (ns ++ [d])) (base ++ (ns ++ [d, a])) := by
  have isName := Path.isName_concat hns hn
  have isName' := Path.isName_pair hns hd ha
  obtain ⟨plain₁, grows⟩ := makeParent_grows plain (root.join (.ofNames (ns ++ [d, a])))
  unfold moveFile at done
  cases made : t.makeParent (root.join (.ofNames (ns ++ [d, a]))) with
  | mk result t₁ =>
  rw [made] at done plain₁ grows
  cases result with
  | error f => simp at done
  | ok =>
  have rooted₁ := reach_kept (fun l => (grows l).keeps) _ _ rooted
  have there₁ := (grows _).keeps there
  have spot := spot_below_of_get? plain₁ rooted₁ isName (by simp) fits there₁ false
  have long : base ++ (ns ++ [n]) ≠ base ++ (ns ++ [d, a]) := by simp
  have short : base ++ (ns ++ [d]) ≠ base ++ (ns ++ [d, a]) := by simp
  obtain ⟨s, hs, free, folder, rfl⟩ := plain₁.in_folder.rename_object (by simp) spot (fun s hs => by
    rw [(place_below plain₁ rooted₁ isName' hs).2]
    exact long.symm) done
  obtain ⟨fits', place⟩ := place_below plain₁ rooted₁ isName' hs
  rw [place] at free folder ⊢
  obtain ⟨apart, folder₁, elsewhere⟩ :=
    makeParent_beside plain rooted hns hd ha fits there made
  have after := plain₁.in_folder.get?_relocate there₁ (by simp) (m := base ++ (ns ++ [d, a]))
    (by simp) long
  have same {k : Location} := plain₁.in_folder.get?_relocate_other there₁ (by simp)
    (m := base ++ (ns ++ [d, a])) (by simp) long (k := k)
  refine ⟨fits', Plain.congr (Plain.set (plain₁.erase there₁) (by simp) (by simp) ?_ ?_) after,
    ⟨mode, bytes, there, ?_⟩, ?_, fun h => free ((grows _).keeps h), apart, ?_,
    fun k hk hk' hkd => ?_⟩
  · have up : (base ++ (ns ++ [d, a])).dropLast = base ++ (ns ++ [d]) := by simp
    rw [up, get?_erase_other apart, folder₁]
  · rw [get?_erase_other long.symm]
    exact free
  · rw [after, get?_set_same (by simp)]
  · rw [after, get?_set_other long, get?_erase_same (by simp)]
  · rw [GrowsAt, same apart short]
    exact grows _
  · rw [same hk hk', elsewhere k hkd]

end

/-! ### Putting a file where one was -/

/-- As long as the folders stay there is nothing to be made for a file that was
there. -/
theorem makeParent_kept (plain : t.Plain)
    (kept : ∀ k, t.get? k = some .folder → t'.get? k = some .folder)
    (file : t.readFile p = .ok (mode, bytes)) : t'.makeParent p = (.ok (), t') := by
  refine makeParent_of_isFolder fun q hq written =>
    plain.in_folder.isFolder_kept kept (fun l target link => ?_) (isFolder_parent file hq written)
  exact absurd link (plain.linkless l target)

/-- A file can be made in a folder that is there. -/
theorem createFile_free (plain : t.Plain) (rooted : t.reach [] (steps root.text) = some base)
    (nameable : Nameable root p) (folder : t.get? (placeBelow base p).dropLast = some .folder)
    (free : t.get? (placeBelow base p) = none) (mode : Nat) (bytes : ByteArray) :
    t.createFile (root.join p) mode bytes =
      (.ok (), t.set (placeBelow base p) (.file mode bytes)) := by
  obtain ⟨names, rfl, isName, hne, fits⟩ := nameable.exists_names
  obtain ⟨ns, n, rfl⟩ := (List.eq_nil_or_concat names).resolve_left hne
  rw [List.concat_eq_append] at isName fits folder free ⊢
  rw [placeBelow_ofNames base isName, ← List.append_assoc] at folder free ⊢
  rw [List.dropLast_concat] at folder
  have slash := Path.endsWithSlash_join_ofNames root isName (by simp)
  have spot := spot_below_of_none plain rooted isName rfl fits folder
    (by rw [← List.append_assoc]; exact free) false
  rw [createFile, spot]
  simp only [slash, Bool.false_eq_true, if_false]

end Tree
end Attic
