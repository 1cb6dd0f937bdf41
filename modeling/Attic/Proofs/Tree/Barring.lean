import Attic.Proofs.Tree.Making
import Attic.Proofs.Tree.Moving
import Attic.Proofs.Tree.Places
import Mathlib

/-!
# What is in the way of a copy

That something exists already is said of a copy in two cases only: something is at
the place it is to be put, or a file is where the folder for it has to be. In
both cases the same is said, and nothing changes, as long as what is in the way
stays.

Key definitions: `Tree.Taken`, `Tree.Barred`.
Key theorems: `Tree.makeFoldersFrom_exists`, `Tree.placeCopy_exists`,
`Tree.placeCopy_of_taken`, `Tree.placeCopy_of_barred`.
-/

namespace Attic
namespace Tree

variable {t t' : Tree} {base here l : Location} {p q root : Path} {xs ys names : List String}
variable {s : Spot} {o : Object} {f : Fault} {into must executable : Bool} {mode : Nat}
variable {bytes : ByteArray}

/-! ### Faults of ways -/

/-- No way fails because something exists. -/
theorem walk_ne_exists : ∀ {links : Nat} {here : Location} {path : List String} {must : Bool},
    walk t into links here path must ≠ .error .exists
  | links, here, [], must => by simp [walk_nil]
  | links, here, name :: path, must => by
    rcases isStep_cases name with rfl | rfl | long | step
    · rw [walk_here]
      exact walk_ne_exists
    · rw [walk_up]
      exact walk_ne_exists
    · simp [walk_long long]
    · rw [walk_step step]
      cases t.get? (here ++ [name]) with
      | none =>
        dsimp only
        split <;> simp
      | some o =>
        cases o with
        | file mode bytes =>
          dsimp only
          split <;> simp
        | folder => exact walk_ne_exists
        | link target =>
          dsimp only
          split
          · simp
          · cases links with
            | zero => simp
            | succ links => exact walk_ne_exists
termination_by links _ path => (links, path.length)

theorem spot_ne_exists : t.spot into must p ≠ .error .exists := by
  unfold spot
  split
  · next f fault =>
    unfold pathFault? at fault
    split at fault
    · simp [← Option.some.inj fault]
    split at fault
    · simp [← Option.some.inj fault]
    split at fault
    · simp [← Option.some.inj fault]
    · simp at fault
  · exact walk_ne_exists

/-- No way leads on through a file. -/
theorem way_past_file (hys : ys ≠ []) : ∀ (xs : List String) (here : Location),
    way t false here xs = .ok (.found l (.file mode bytes)) →
      way t must here (xs ++ ys) = .error .notFolder
  | [], here, h => by simp [way, stroll] at h
  | name :: xs, here, h => by
    have ih : ∀ here, way t false here xs = .ok (.found l (.file mode bytes)) →
      way t must here (xs ++ ys) = .error .notFolder := way_past_file hys xs
    unfold way at ih h ⊢
    rw [List.cons_append, stroll]
    rw [stroll] at h
    split at h
    · next dot => rw [if_pos dot, ih _ h]
    next dot =>
    rw [if_neg dot]
    split at h
    · next up => rw [if_pos up, ih _ h]
    next up =>
    rw [if_neg up]
    split at h
    · simp at h
    next long =>
    rw [if_neg long]
    cases there : t.get? (here ++ [name]) with
    | none =>
      simp only [there] at h
      split at h <;> simp at h
    | some o =>
      cases o with
      | file m b => simp [hys]
      | folder =>
        simp only [there] at h
        exact ih _ h
      | link target => simp [there] at h

/-! ### The folders above -/

/-- Where a path leads through folders that are there and then by names. -/
structure Along (t : Tree) (p : Path) (here : Location) (names : List String) : Prop where
  reached : ∃ xs, steps p.text = xs ++ names ∧ t.reach [] xs = some here
  isName : ∀ n ∈ names, Path.IsName n

namespace Along

variable (along : t.Along p here names) (plain : t.Plain)

include along

/-- What a path lies in is one name above, or is there already. -/
theorem parent (hq : p.parent? = some q) :
    (∃ l, t.Along q l []) ∨ t.Along q here names.dropLast ∧ names ≠ [] := by
  obtain ⟨⟨xs, split, reached⟩, isName⟩ := along
  obtain ⟨dots, last, dots', above, idle, idle'⟩ := Path.steps_parent hq
  rw [split] at above
  have there {zs : List String} (h : xs = steps q.text ++ zs) : ∃ l, t.Along q l [] := by
    rw [h, reach_append, Option.bind_eq_some_iff] at reached
    obtain ⟨l, reached, -⟩ := reached
    exact ⟨l, ⟨_, (List.append_nil _).symm, reached⟩, by simp⟩
  obtain rfl | ⟨ns, d, rfl⟩ := List.eq_nil_or_concat names
  · rw [List.append_nil, List.append_assoc] at above
    exact .inl (there above)
  rw [List.concat_eq_append] at isName above ⊢
  have whole : xs ++ ns ++ [d] = steps q.text ++ dots ++ [last] ++ dots' := by simpa using above
  obtain rfl : dots' = [] := dots_eq_nil (isName d (by simp)) whole idle'
  rw [← List.append_assoc] at above
  obtain ⟨above, -⟩ := List.append_inj' above rfl
  obtain rfl | ⟨ms, e, rfl⟩ := List.eq_nil_or_concat ns
  · rw [List.append_nil] at above
    exact .inl (there above)
  · rw [List.concat_eq_append] at isName above ⊢
    obtain rfl : dots = [] :=
      dots_eq_nil (isName e (by simp)) (by rw [List.append_assoc, above]) idle
    rw [List.append_nil] at above
    exact .inr ⟨⟨⟨xs, by rw [List.dropLast_concat, above], reached⟩, fun n hn =>
      isName n (List.mem_append_left _ (by simpa using hn))⟩, by simp⟩

include plain

theorem spot_eq (fault : pathFault? p.text = none) (into must : Bool) :
    t.spot into must p = way t must here names := by
  obtain ⟨⟨xs, split, reached⟩, -⟩ := along
  rw [spot_plain plain fault, split, way_append names _ _ reached]

theorem place (h : t.spot into must p = .ok s) : Short names ∧ s.place.1 = here ++ names := by
  rw [along.spot_eq plain (spot_eq_ok h).1] at h
  exact way_place plain here along.isName h

/-- A path that leads to a file in a tree that has grown leads to it before. -/
theorem shrinks (grows : t.Grows t') (plain' : t'.Plain)
    (h : t'.spot false false p = .ok (.found l (.file mode bytes))) :
    t.spot false false p = .ok (.found l (.file mode bytes)) := by
  have along' : t'.Along p here names := by
    obtain ⟨⟨xs, split, reached⟩, isName⟩ := along
    exact ⟨⟨xs, split, reach_kept (fun l => (grows l).keeps) _ _ reached⟩, isName⟩
  obtain ⟨short, place⟩ := along'.place plain' h
  obtain rfl : l = here ++ names := place
  have there := (grows _).file (plain'.in_folder.spot_holds h)
  rw [along.spot_eq plain (spot_eq_ok h).1]
  refine way_of_get? plain along.isName ?_ short there
  rintro rfl
  rw [along'.spot_eq plain' (spot_eq_ok h).1] at h
  simp [way, stroll] at h

end Along

/-- Behind a file nothing is merely missing. -/
theorem not_missing_past_file (plain : t.Plain) (written : p.isEmpty = false)
    (hq : p.parent? = some q) (h : t.spot false false q = .ok (.found l (.file mode bytes))) :
    t.spot into must p ≠ .error .notFound := by
  intro missing
  have fault := fault_of_missing written missing
  obtain ⟨dots, last, dots', split, -⟩ := Path.steps_parent hq
  rw [spot_plain plain (spot_eq_ok h).1] at h
  rw [spot_plain plain fault, split, List.append_assoc, way_past_file (by simp) _ _ h] at missing
  simp at missing

/-- A folder is not made because something exists only where a file is. -/
theorem makeLast_exists (plain : t.Plain) (h : t.makeLast p = (.error .exists, t')) :
    t' = t ∧ ∃ l mode bytes, t.spot false false p = .ok (.found l (.file mode bytes)) := by
  cases makesLast_iff.2 h with
  | failed idle fault =>
    refine ⟨rfl, ?_⟩
    unfold makeFolder at fault
    split at fault
    · next spot =>
      obtain rfl := Except.error.inj (Prod.mk.inj fault).1
      exact absurd spot spot_ne_exists
    · next l o spot =>
      cases o with
      | file mode bytes => exact ⟨l, mode, bytes, spot⟩
      | folder => simp [isFolder_of_spot spot] at idle
      | link target => exact absurd (plain.in_folder.spot_holds spot) (plain.linkless _ _)
    · simp at fault

/-- **Folders are not made because something exists** only where a file is at the
path itself. -/
theorem makeFoldersFrom_exists (plain : t.Plain) : ∀ {n : Nat} {t' : Tree} {p : Path}
    {here : Location} {names : List String}, t.Along p here names →
    makeFoldersFrom n t p = (.error .exists, t') → t' = t ∧
      ∃ l mode bytes, t.spot false false p = .ok (.found l (.file mode bytes))
  | 0, t', p, here, names, _, h => by simp [makeFoldersFrom] at h
  | n + 1, t', p, here, names, along, h => by
    cases makes_iff.2 h with
    | last _ _ last => exact makeLast_exists plain (makesLast_iff.1 last)
    | @stuck _ _ _ _ q _ written missing parent above =>
      -- what is above cannot be made either, and the path leads through it
      obtain ⟨here', names', along'⟩ : ∃ here' names', t.Along q here' names' := by
        rcases along.parent parent with ⟨l, there⟩ | ⟨above, -⟩
        · exact ⟨l, [], there⟩
        · exact ⟨here, _, above⟩
      obtain ⟨-, l, mode, bytes, file⟩ := makeFoldersFrom_exists plain along' (makes_iff.1 above)
      exact absurd missing (not_missing_past_file plain written parent file)
    | after written missing parent above last =>
      -- the folders above are made, and no file would have come
      obtain ⟨grounded, grows⟩ := plain.in_folder.makes_grows above
      have plain' := plain.grow grounded grows
      obtain ⟨-, l, mode, bytes, file⟩ := makeLast_exists plain' (makesLast_iff.1 last)
      rw [along.shrinks plain grows plain' file] at missing
      simp at missing

/-! ### The way to a copy -/

/-- Whether something is at a path for a file. -/
def Taken (t : Tree) (p : Path) : Prop :=
  endsWithSlash p.text = false ∧ ∃ l o, t.spot false false p = .ok (.found l o)

/-- Whether a file is at a place, where the folder for a path has to be. -/
def Barred (t : Tree) (p : Path) (l : Location) : Prop :=
  ∃ q mode bytes, p.parent? = some q ∧ t.spot false false q = .ok (.found l (.file mode bytes))

/-- A place that is taken stays taken when what is at another one is removed. -/
theorem Taken.removeFile (plain : t.Plain) (taken : t.Taken p)
    (slash : endsWithSlash q.text = false)
    (apart : t.placeOf? false p ≠ t.placeOf? false q) : (t.removeFile q).2.Taken p := by
  obtain ⟨written, l, o, spot⟩ := taken
  rcases removeFile_cases t slash with ⟨f, failed⟩ | ⟨k, o', spot', noFolder, removed⟩
  · rw [failed]
    exact ⟨written, l, o, spot⟩
  · rw [removed]
    have there : t.get? l = some o := plain.in_folder.spot_holds spot
    have held : t.get? k = some o' := plain.in_folder.spot_holds spot'
    have place := placeOf?_eq_some.2 ⟨_, spot, rfl⟩
    have other : l ≠ k := by
      rintro rfl
      exact apart (place.trans (placeOf?_eq_some.2 ⟨_, spot', rfl⟩).symm)
    have steady := Steady.erase held noFolder fun target link =>
      absurd (link ▸ held) (plain.linkless _ _)
    refine ⟨written, l, o, spot_of_placeOf? (plain.in_folder.erase ?_) (steady _ _ place) ?_⟩
    · simpa [held] using noFolder
    · rw [get?_erase_other other, there]

theorem placeCopy_of_taken (copy : t.isFile q = true) (taken : t.Taken p) :
    t.placeCopy q p executable = (.error .exists, t) := by
  obtain ⟨slash, l, o, spot⟩ := taken
  obtain ⟨mode, bytes, read⟩ := isFile_iff.1 copy
  rw [placeCopy, makeParent_of_spot spot]
  simp only [read]
  rw [createFile, spot]
  simp [slash]

/-- A file is no folder. -/
theorem isFolder_of_file (h : t.spot false false p = .ok (.found l (.file mode bytes))) :
    t.isFolder p = false := by
  refine Bool.eq_false_iff.2 fun folder => ?_
  simpa using eq_folder_of_isFolder h (by simp) folder

theorem placeCopy_of_barred (barred : t.Barred p l) :
    t.placeCopy q p executable = (.error .exists, t) := by
  obtain ⟨above, mode, bytes, parent, spot⟩ := barred
  have fault : t.makeFolder above = (.error .exists, t) := by rw [makeFolder, spot]
  have made : t.makeFolders above = (.error .exists, t) :=
    makes_iff.1 (.last (written_of_fault (spot_eq_ok spot).1) (by simp [spot])
      (.failed (isFolder_of_file spot) fault))
  simp only [placeCopy, makeParent, parent, made]

/-- **A copy is not put because something exists** only where it is to go, or where a
file is in the way of its folder. -/
theorem placeCopy_exists (plain : t.Plain) (rooted : t.reach [] (steps root.text) = some base)
    (normal : p.IsNormal) (copy : t.isFile q = true)
    (h : t.placeCopy q (root.join p) executable = (.error .exists, t')) :
    t'.Taken (root.join p) ∨
      t' = t ∧ t.Barred (root.join p) (placeBelow base p).dropLast := by
  obtain ⟨names, rfl, isName⟩ := normal.exists_names
  obtain ⟨plain', grows⟩ := makeParent_grows plain (root.join (.ofNames names))
  unfold placeCopy at h
  split at h
  · next f u opens =>
    obtain ⟨e, rfl⟩ := Prod.mk.inj h
    obtain rfl := Except.error.inj e
    unfold makeParent at opens
    split at opens
    · next above parent =>
      have along : t.Along (root.join (.ofNames names)) base names :=
        ⟨⟨_, Path.steps_join_ofNames root isName, rooted⟩, isName⟩
      obtain ⟨l, there⟩ | ⟨inside, hne⟩ := along.parent parent
      · obtain ⟨-, m, mode, bytes, file⟩ := makeFoldersFrom_exists plain there opens
        rw [there.spot_eq plain (spot_eq_ok file).1] at file
        simp [way, stroll] at file
      · obtain ⟨same, m, mode, bytes, file⟩ := makeFoldersFrom_exists plain inside opens
        have place : m = base ++ names.dropLast := (inside.place plain file).2
        rw [placeBelow_ofNames base isName, List.dropLast_append_of_ne_nil hne, ← place]
        exact .inr ⟨same, above, mode, bytes, parent, file⟩
    · simp at opens
  next u opens =>
  obtain rfl : (t.makeParent (root.join (.ofNames names))).2 = u := by rw [opens]
  obtain ⟨mode, bytes, read⟩ := isFile_iff.1 copy
  rw [readFile_kept plain.in_folder (fun l o => (grows l).keeps) read] at h
  simp only at h
  unfold createFile at h
  split at h
  · next f spot =>
    obtain rfl := Except.error.inj (Prod.mk.inj h).1
    exact absurd spot spot_ne_exists
  next s spot =>
  split at h
  · simp at h
  next slash =>
  cases s with
  | vacant l name => simp at h
  | found l o =>
    obtain rfl := (Prod.mk.inj h).2
    exact .inl ⟨by simpa using slash, l, o, spot⟩

end Tree
end Attic
