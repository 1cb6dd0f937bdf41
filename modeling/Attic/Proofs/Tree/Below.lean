import Attic.Proofs.Path.Names
import Attic.Proofs.Tree.Plain

/-!
# Places below a root

A root that can be reached stands for a location, and a path of names behind it
for the location with these names added. In a tree without links what such a
path names is what the tree holds at that location, provided that the path and
its names are not too long.

Key definitions: `Tree.reach`, `Tree.Fits`, `Tree.placeBelow`, `Tree.Nameable`.
Key theorems: `Tree.way_append`, `Tree.look_below`, `Tree.reach_root`,
`Tree.readFile_normal`, `Tree.removeFile_normal`, `Tree.createFile_normal`.
-/

namespace Attic
namespace Tree

/-- Where steps lead if there is a folder at each of them. -/
def reach (t : Tree) : Location → List String → Option Location
  | here, [] => some here
  | here, name :: rest =>
    if name = "." then reach t here rest
    else if name = ".." then reach t here.dropLast rest
    else if maxName < name.utf8ByteSize then none
    else
      match t.get? (here ++ [name]) with
      | some .folder => reach t (here ++ [name]) rest
      | _ => none

variable {t t' : Tree} {base here l : Location} {must : Bool} {root : Path}
variable {xs ys names : List String} {s : Spot} {o : Object}

/-! ### Steps that lead through folders -/

theorem reach_append (ys : List String) : ∀ (xs : List String) (here : Location),
    reach t here (xs ++ ys) = (reach t here xs).bind fun l => reach t l ys
  | [], here => rfl
  | name :: xs, here => by
    have ih := reach_append ys xs
    rw [List.cons_append, reach, reach]
    split
    · exact ih here
    split
    · exact ih here.dropLast
    split
    · rfl
    split
    · exact ih (here ++ [name])
    · rfl

/-- Behind folders a way goes on from where they lead. -/
theorem way_append (ys : List String) : ∀ (xs : List String) (here : Location),
    reach t here xs = some l → way t must here (xs ++ ys) = way t must l ys
  | [], here, h => by
    obtain rfl := Option.some.inj h
    rfl
  | name :: xs, here, h => by
    have ih : ∀ here, reach t here xs = some l → way t must here (xs ++ ys) = way t must l ys :=
      way_append ys xs
    unfold way at ih ⊢
    rw [List.cons_append, stroll]
    rw [reach] at h
    split at h
    · next dot => rw [if_pos dot, ih _ h]
    next dot =>
    rw [if_neg dot]
    split at h
    · next up => rw [if_pos up, ih _ h]
    next up =>
    rw [if_neg up]
    split at h
    · simp at h
    next long =>
    rw [if_neg long]
    split at h
    · next folder =>
      simp only [folder]
      exact ih _ h
    · simp at h

/-- A way that goes on leads through folders. -/
theorem reach_of_way (plain : t.Plain) (hys : ys ≠ []) : ∀ (xs : List String) (here : Location),
    way t must here (xs ++ ys) = .ok s → ∃ l, reach t here xs = some l
  | [], here, _ => ⟨here, rfl⟩
  | name :: xs, here, h => by
    have ih : ∀ here, way t must here (xs ++ ys) = .ok s → ∃ l, reach t here xs = some l :=
      reach_of_way plain hys xs
    have more : xs ++ ys ≠ [] := List.append_ne_nil_of_right_ne_nil xs hys
    unfold way at ih h
    rw [List.cons_append, stroll] at h
    rw [reach]
    split
    · next dot => rw [if_pos dot] at h; exact ih _ h
    next dot =>
    rw [if_neg dot] at h
    split
    · next up => rw [if_pos up] at h; exact ih _ h
    next up =>
    rw [if_neg up] at h
    split
    · next long => simp [long] at h
    next long =>
    rw [if_neg long] at h
    cases hg : t.get? (here ++ [name]) with
    | none => simp [hg, more] at h
    | some o =>
      cases o with
      | file mode bytes => simp [hg, more] at h
      | folder =>
        simp only [hg] at h
        exact ih _ h
      | link target => exact absurd hg (plain.linkless _ _)

/-- Folders that are kept lead to the same place. -/
theorem reach_kept (kept : ∀ l, t.get? l = some .folder → t'.get? l = some .folder) :
    ∀ (xs : List String) (here : Location), reach t here xs = some l → reach t' here xs = some l
  | [], here, h => h
  | name :: xs, here, h => by
    have ih := reach_kept kept xs
    rw [reach] at h ⊢
    split at h
    · next dot => rw [if_pos dot]; exact ih _ h
    next dot =>
    rw [if_neg dot]
    split at h
    · next up => rw [if_pos up]; exact ih _ h
    next up =>
    rw [if_neg up]
    split at h
    · simp at h
    next long =>
    rw [if_neg long]
    split at h
    · next folder =>
      rw [kept _ folder]
      exact ih _ h
    · simp at h

/-! ### Names -/

theorem way_long {name : String} (isName : Path.IsName name)
    (long : maxName < name.utf8ByteSize) (rest : List String) :
    way t must here (name :: rest) = .error .nameTooLong := by
  rw [way, stroll, if_neg isName.not_dot, if_neg isName.not_up, if_pos long]

theorem way_name {name : String} (isName : Path.IsName name)
    (short : name.utf8ByteSize ≤ maxName) (rest : List String) :
    way t must here (name :: rest) =
      match t.get? (here ++ [name]) with
      | none => if rest = [] && !must then .ok (.vacant here name) else .error .notFound
      | some .folder => way t must (here ++ [name]) rest
      | some (.file mode bytes) =>
        if rest = [] && !must then .ok (.found (here ++ [name]) (.file mode bytes))
        else .error .notFolder
      | some (.link _) => .error .tooManyLinks := by
  rw [way, stroll, if_neg isName.not_dot, if_neg isName.not_up, if_neg (by omega)]
  cases hg : t.get? (here ++ [name]) with
  | none => rfl
  | some o => cases o <;> simp [way]

/-- Names that a folder can hold. -/
def Short (names : List String) : Prop := ∀ n ∈ names, n.utf8ByteSize ≤ maxName

/-- A way along names ends at the place that they name. -/
theorem way_place (plain : t.Plain) : ∀ {names : List String} (base : Location),
    (∀ n ∈ names, Path.IsName n) → way t must base names = .ok s →
      Short names ∧ s.place.1 = base ++ names
  | [], base, _, h => by
    obtain rfl := Except.ok.inj h
    exact ⟨by simp [Short], by simp [Spot.place]⟩
  | n :: rest, base, isName, h => by
    have first := isName n List.mem_cons_self
    have ih := way_place plain (base ++ [n]) fun m hm => isName m (List.mem_cons_of_mem _ hm)
    by_cases long : maxName < n.utf8ByteSize
    · rw [way_long first long] at h
      simp at h
    rw [way_name first (by omega)] at h
    have short {rest : List String} (h : Short rest) : Short (n :: rest) := by
      intro m hm
      rcases List.mem_cons.1 hm with rfl | hm
      · omega
      · exact h m hm
    cases hg : t.get? (base ++ [n]) with
    | none =>
      simp only [hg] at h
      split at h
      · next last =>
        simp only [Bool.and_eq_true, decide_eq_true_eq] at last
        obtain rfl := Except.ok.inj h
        rw [last.1]
        exact ⟨short (by simp [Short]), rfl⟩
      · simp at h
    | some o =>
      cases o with
      | file mode bytes =>
        simp only [hg] at h
        split at h
        · next last =>
          simp only [Bool.and_eq_true, decide_eq_true_eq] at last
          obtain rfl := Except.ok.inj h
          rw [last.1]
          exact ⟨short (by simp [Short]), rfl⟩
        · simp at h
      | folder =>
        simp only [hg] at h
        obtain ⟨hs, hp⟩ := ih h
        exact ⟨short hs, by rw [hp, List.append_assoc]; rfl⟩
      | link target => exact absurd hg (plain.linkless _ _)

/-- Folders lead along their names. -/
theorem reach_names (plain : t.Plain) : ∀ {names : List String} (base : Location),
    (∀ n ∈ names, Path.IsName n) → Short names → t.get? (base ++ names) = some .folder →
      reach t base names = some (base ++ names)
  | [], base, _, _, _ => by simp [reach]
  | n :: rest, base, isName, short, folder => by
    have first := isName n List.mem_cons_self
    have ih := reach_names plain (base ++ [n]) (fun m hm => isName m (List.mem_cons_of_mem _ hm))
      fun m hm => short m (List.mem_cons_of_mem _ hm)
    have split' : base ++ n :: rest = base ++ [n] ++ rest := by simp
    have step : t.get? (base ++ [n]) = some .folder := by
      by_cases hr : rest = []
      · rw [hr] at folder
        exact folder
      · exact plain.in_folder.above hr (by rw [← split', folder]; simp)
    have fits : ¬ maxName < n.utf8ByteSize := by
      have := short n List.mem_cons_self
      omega
    rw [reach, if_neg first.not_dot, if_neg first.not_up, if_neg fits, step, split']
    exact ih (by rw [← split', folder])

/-- Names lead to what is at their place. -/
theorem way_of_get? (plain : t.Plain) (isName : ∀ n ∈ names, Path.IsName n) (hne : names ≠ [])
    (short : Short names) (there : t.get? (base ++ names) = some o) :
    way t false base names = .ok (.found (base ++ names) o) := by
  obtain ⟨ns, n, rfl⟩ := (List.eq_nil_or_concat names).resolve_left hne
  rw [List.concat_eq_append] at isName there short ⊢
  have folder : t.get? (base ++ ns) = some .folder := by
    refine plain.in_folder.above (List.cons_ne_nil n []) ?_
    rw [List.append_assoc, there]
    simp
  have reached := reach_names plain base (fun m hm => isName m (List.mem_append_left _ hm))
    (fun m hm => short m (List.mem_append_left _ hm)) folder
  rw [way_append _ _ _ reached, way_name (isName n (by simp)) (short n (by simp)),
    List.append_assoc, there]
  cases o with
  | file mode bytes => rfl
  | folder => rfl
  | link target => exact absurd there (plain.linkless _ _)

/-! ### Paths of names behind a root -/

/-- Whether a path of names behind a root is not too long, nor any of the
names. -/
def Fits (root : Path) (names : List String) : Prop :=
  pathFault? (root.join (.ofNames names)).text = none ∧ Short names

section

variable (plain : t.Plain) (rooted : reach t [] (steps root.text) = some base)
variable (isName : ∀ n ∈ names, Path.IsName n)

include plain rooted isName

theorem spot_below (fault : pathFault? (root.join (.ofNames names)).text = none)
    (into must : Bool) :
    t.spot into must (root.join (.ofNames names)) = way t must base names := by
  rw [spot_plain plain fault, Path.steps_join_ofNames root isName, way_append names _ _ rooted]

/-- What a path of names leads to. -/
theorem place_below {into : Bool} (h : t.spot into must (root.join (.ofNames names)) = .ok s) :
    Fits root names ∧ s.place.1 = base ++ names := by
  obtain ⟨fault, -⟩ := spot_eq_ok h
  rw [spot_below plain rooted isName fault] at h
  obtain ⟨short, place⟩ := way_place plain base isName h
  exact ⟨⟨fault, short⟩, place⟩

theorem spot_below_of_get? (hne : names ≠ []) (fits : Fits root names)
    (there : t.get? (base ++ names) = some o) (into : Bool) :
    t.spot into false (root.join (.ofNames names)) = .ok (.found (base ++ names) o) := by
  rw [spot_below plain rooted isName fits.1, way_of_get? plain isName hne fits.2 there]

theorem spot_below_of_none {ns : List String} {n : String} (split : names = ns ++ [n])
    (fits : Fits root names) (folder : t.get? (base ++ ns) = some .folder)
    (free : t.get? (base ++ names) = none) (into : Bool) :
    t.spot into false (root.join (.ofNames names)) = .ok (.vacant (base ++ ns) n) := by
  rw [spot_below plain rooted isName fits.1]
  subst split
  have reached := reach_names plain base (fun m hm => isName m (List.mem_append_left _ hm))
    (fun m hm => fits.2 m (List.mem_append_left _ hm)) folder
  rw [way_append _ _ _ reached, way_name (isName n (by simp)) (fits.2 n (by simp)),
    List.append_assoc, free]
  rfl

/-- **A path of names names what the tree holds at its place.** -/
theorem look_below (hne : names ≠ []) : t.look (root.join (.ofNames names)) = .ok o ↔
    Fits root names ∧ t.get? (base ++ names) = some o := by
  have slash := Path.endsWithSlash_join_ofNames root isName hne
  constructor
  · intro h
    obtain ⟨l, hl⟩ := look_eq_ok h
    obtain ⟨fits, place⟩ := place_below plain rooted isName hl
    have holds : t.get? l = some o := plain.in_folder.spot_holds hl
    obtain rfl : l = base ++ names := place
    exact ⟨fits, holds⟩
  · rintro ⟨fits, there⟩
    have found' := spot_below_of_get? plain rooted isName hne fits there true
    rw [look, slash, found']
    rfl

theorem lookPlain_below (hne : names ≠ []) (fits : Fits root names)
    (there : t.get? (base ++ names) = some o) :
    t.lookPlain (root.join (.ofNames names)) = .ok o := by
  have slash := Path.endsWithSlash_join_ofNames root isName hne
  have found' := spot_below_of_get? plain rooted isName hne fits there false
  rw [lookPlain, slash, found']
  rfl

theorem readFile_below (hne : names ≠ []) {mode : Nat} {bytes : ByteArray} :
    t.readFile (root.join (.ofNames names)) = .ok (mode, bytes) ↔
      Fits root names ∧ t.get? (base ++ names) = some (.file mode bytes) := by
  rw [readFile_eq_ok, look_below plain rooted isName hne]

/-- A file is taken away from its place. -/
theorem removeFile_below (hne : names ≠ []) (fits : Fits root names) {mode : Nat}
    {bytes : ByteArray} (there : t.get? (base ++ names) = some (.file mode bytes)) :
    t.removeFile (root.join (.ofNames names)) = (.ok (), t.erase (base ++ names)) := by
  have slash := Path.endsWithSlash_join_ofNames root isName hne
  have found' := spot_below_of_get? plain rooted isName hne fits there false
  rw [removeFile, slash, found']
  rfl

end

/-! ### Normal paths behind a root -/

/-- Behind a root by no name stands a slash or nothing at all. -/
theorem join_empty (root : Path) : root.join ⟨""⟩ = ⟨""⟩ ∨
    endsWithSlash (root.join ⟨""⟩).text = true := by
  unfold Path.join
  split
  · exact .inl rfl
  right
  split
  · next last => simpa [endsWithSlash, Path.chars] using last
  · simp [endsWithSlash]

/-- The location of a path of names behind a root that stands for `base`. -/
def placeBelow (base : Location) (p : Path) : Location := base ++ p.names?.getD []

theorem placeBelow_ofNames (base : Location) (h : ∀ n ∈ names, Path.IsName n) :
    placeBelow base (.ofNames names) = base ++ names := by
  rw [placeBelow, Path.names?_ofNames h, Option.getD_some]

/-- Different normal paths have different places. -/
theorem placeBelow_ne {p q : Path} (hp : p.IsNormal) (hq : q.IsNormal) (h : p ≠ q) :
    placeBelow base p ≠ placeBelow base q := by
  obtain ⟨ns, rfl, hns⟩ := hp.exists_names
  obtain ⟨ms, rfl, hms⟩ := hq.exists_names
  rw [placeBelow_ofNames base hns, placeBelow_ofNames base hms]
  intro e
  exact h (by rw [List.append_cancel_left e])

/-- Whether a file can stand at a normal path behind a root. -/
structure Nameable (root p : Path) : Prop where
  normal : p.IsNormal
  nonempty : p ≠ ⟨""⟩
  fits : Fits root (p.names?.getD [])

/-- The names of a path at which a file can stand. -/
theorem Nameable.exists_names {p : Path} (h : Nameable root p) : ∃ names, p = .ofNames names ∧
    (∀ n ∈ names, Path.IsName n) ∧ names ≠ [] ∧ Fits root names := by
  obtain ⟨names, rfl, isName⟩ := h.normal.exists_names
  refine ⟨names, rfl, isName, ?_, ?_⟩
  · rintro rfl
    exact h.nonempty rfl
  · have := h.fits
    rwa [Path.names?_ofNames isName] at this

/-- What is found at a path that neither ends with a slash nor is empty. -/
theorem nameable_of_spot {p : Path} {into must : Bool} (plain : t.Plain)
    (rooted : reach t [] (steps root.text) = some base) (normal : p.IsNormal)
    (slash : endsWithSlash (root.join p).text = false)
    (h : t.spot into must (root.join p) = .ok s) :
    Nameable root p ∧ s.place.1 = placeBelow base p := by
  obtain ⟨names, rfl, isName⟩ := normal.exists_names
  obtain ⟨fits, place⟩ := place_below plain rooted isName h
  refine ⟨⟨normal, ?_, ?_⟩, ?_⟩
  · intro e
    rw [e] at slash h
    rcases join_empty root with empty | ends
    · rw [empty] at h
      simp [spot, pathFault?] at h
    · rw [ends] at slash
      exact Bool.noConfusion slash
  · rwa [Path.names?_ofNames isName]
  · rw [place, placeBelow_ofNames base isName]

section

variable {p : Path} {mode : Nat} {bytes : ByteArray}

/-- A file behind a root shows that the root can be reached. -/
theorem reach_root (plain : t.Plain) (hp : p.IsNormal) (h : t.isFile (root.join p) = true) :
    ∃ base, reach t [] (steps root.text) = some base := by
  obtain ⟨mode, bytes, h⟩ := isFile_iff.1 h
  obtain ⟨slash, l, hl⟩ := spot_of_readFile h
  obtain ⟨fault, -⟩ := spot_eq_ok hl
  obtain ⟨names, rfl, isName⟩ := hp.exists_names
  have hne : names ≠ [] := by
    rintro rfl
    rcases join_empty root with empty | ends
    · have : (root.join (.ofNames [])).text = "" := congrArg Path.text empty
      rw [this] at fault
      simp [pathFault?] at fault
    · have : endsWithSlash (root.join (.ofNames [])).text = true := ends
      rw [this] at slash
      exact Bool.noConfusion slash
  rw [spot_plain plain fault, Path.steps_join_ofNames root isName] at hl
  exact reach_of_way plain hne _ _ hl

variable (plain : t.Plain) (rooted : reach t [] (steps root.text) = some base)

include plain rooted

/-- **A file is read by a normal path behind a root where it stands at its
place**, and the path is not too long. -/
theorem readFile_normal (normal : p.IsNormal) :
    t.readFile (root.join p) = .ok (mode, bytes) ↔
      Nameable root p ∧ t.get? (placeBelow base p) = some (.file mode bytes) := by
  constructor
  · intro h
    obtain ⟨slash, l, hl⟩ := spot_of_readFile h
    obtain ⟨nameable, place⟩ := nameable_of_spot plain rooted normal slash hl
    exact ⟨nameable, place ▸ plain.in_folder.spot_holds hl⟩
  · rintro ⟨nameable, there⟩
    obtain ⟨names, rfl, isName, hne, fits⟩ := nameable.exists_names
    rw [placeBelow_ofNames base isName] at there
    exact (readFile_below plain rooted isName hne).2 ⟨fits, there⟩

theorem isFile_normal (normal : p.IsNormal) : t.isFile (root.join p) = true ↔
    Nameable root p ∧ ∃ mode bytes, t.get? (placeBelow base p) = some (.file mode bytes) := by
  simp only [isFile_iff, readFile_normal plain rooted normal, exists_and_left]

/-- Where a file is something is. -/
theorem lookPlain_of_isFile (normal : p.IsNormal) (h : t.isFile (root.join p) = true) :
    ∃ o, t.lookPlain (root.join p) = .ok o := by
  obtain ⟨nameable, mode, bytes, there⟩ := (isFile_normal plain rooted normal).1 h
  obtain ⟨names, rfl, isName, hne, fits⟩ := nameable.exists_names
  rw [placeBelow_ofNames base isName] at there
  exact ⟨_, lookPlain_below plain rooted isName hne fits there⟩

/-- Where nothing is nothing is found. -/
theorem lookPlain_of_none (nameable : Nameable root p) (free : t.get? (placeBelow base p) = none) :
    ∃ f, t.lookPlain (root.join p) = .error f := by
  obtain ⟨names, rfl, isName, hne, -⟩ := nameable.exists_names
  rw [placeBelow_ofNames base isName] at free
  cases h : t.lookPlain (root.join (.ofNames names)) with
  | error f => exact ⟨f, rfl⟩
  | ok o =>
    obtain ⟨l, hl⟩ := lookPlain_eq_ok h
    have holds : t.get? l = some o := plain.in_folder.spot_holds hl
    have place : l = base ++ names := (place_below plain rooted isName hl).2
    rw [place, free] at holds
    simp at holds

/-- Where nothing is there is nothing by its path. -/
theorem has_eq_false (nameable : Nameable root p) (free : t.get? (placeBelow base p) = none) :
    t.has (root.join p) = false := by
  obtain ⟨names, rfl, isName, hne, -⟩ := nameable.exists_names
  rw [placeBelow_ofNames base isName] at free
  unfold has
  split
  · next o look =>
    have there := ((look_below plain rooted isName hne).1 look).2
    simp [free] at there
  · rfl

theorem has_normal (nameable : Nameable root p) (there : t.get? (placeBelow base p) = some o) :
    t.has (root.join p) = true := by
  obtain ⟨names, rfl, isName, hne, fits⟩ := nameable.exists_names
  rw [placeBelow_ofNames base isName] at there
  rw [has, (look_below plain rooted isName hne).2 ⟨fits, there⟩]

/-- The path of a file leads to its place. -/
theorem spot_normal (nameable : Nameable root p)
    (there : t.get? (placeBelow base p) = some o) (into : Bool) :
    t.spot into false (root.join p) = .ok (.found (placeBelow base p) o) := by
  obtain ⟨names, rfl, isName, hne, fits⟩ := nameable.exists_names
  rw [placeBelow_ofNames base isName] at there ⊢
  exact spot_below_of_get? plain rooted isName hne fits there into

theorem removeFile_normal (nameable : Nameable root p)
    (there : t.get? (placeBelow base p) = some (.file mode bytes)) :
    t.removeFile (root.join p) = (.ok (), t.erase (placeBelow base p)) := by
  obtain ⟨names, rfl, isName, hne, fits⟩ := nameable.exists_names
  rw [placeBelow_ofNames base isName] at there ⊢
  exact removeFile_below plain rooted isName hne fits there

/-- A file is made at its place, where nothing is, or not at all. -/
theorem createFile_normal (normal : p.IsNormal) :
    (∃ f, t.createFile (root.join p) mode bytes = (.error f, t)) ∨
    Nameable root p ∧ t.get? (placeBelow base p) = none ∧
      t.createFile (root.join p) mode bytes =
        (.ok (), t.set (placeBelow base p) (.file mode bytes)) ∧
      (t.set (placeBelow base p) (.file mode bytes)).Plain := by
  rcases createFile_plain plain (root.join p) mode bytes with
    failed | ⟨l, name, spot, slash, made, plain', free⟩
  · exact .inl failed
  · obtain ⟨nameable, place⟩ := nameable_of_spot plain rooted normal slash spot
    rw [← place]
    exact .inr ⟨nameable, free, made, plain'⟩

/-- The permissions of a copy. -/
def copyMode (executable : Bool) (mode : Nat) : Nat :=
  if executable then withExecution (mode % 0o10000) else mode % 0o10000

/-- **A copy is put at its place, where nothing is, or folders are made at
most.** -/
theorem placeCopy_normal {q : Path} (hp : p.IsNormal) (hq : q.IsNormal) (executable : Bool) :
    (∃ f t', t.placeCopy (root.join p) (root.join q) executable = (.error f, t') ∧ t'.Plain ∧
      t.Grows t') ∨
    ∃ t₁ mode bytes, t.Grows t₁ ∧ Nameable root p ∧ Nameable root q ∧
      t.get? (placeBelow base p) = some (.file mode bytes) ∧ t₁.get? (placeBelow base q) = none ∧
      t.placeCopy (root.join p) (root.join q) executable =
        (.ok (), t₁.set (placeBelow base q) (.file (copyMode executable mode) bytes)) ∧
      (t₁.set (placeBelow base q) (.file (copyMode executable mode) bytes)).Plain := by
  obtain ⟨plain₁, grows⟩ := makeParent_grows plain (root.join q)
  unfold placeCopy
  cases hm : t.makeParent (root.join q) with
  | mk result t₁ =>
    rw [hm] at plain₁ grows
    cases result with
    | error f => exact .inl ⟨f, t₁, rfl, plain₁, grows⟩
    | ok =>
      have rooted₁ := reach_kept (fun l => (grows l).keeps) _ _ rooted
      cases hr : t₁.readFile (root.join p) with
      | error f => exact .inl ⟨f, t₁, by simp only [hr], plain₁, grows⟩
      | ok file =>
        obtain ⟨mode, bytes⟩ := file
        obtain ⟨nameable, there⟩ := (readFile_normal plain₁ rooted₁ hp).1 hr
        simp only [hr]
        rcases createFile_normal plain₁ rooted₁ hq with ⟨f, made⟩ | ⟨free, none, made, plain₂⟩
        · exact .inl ⟨f, t₁, made, plain₁, grows⟩
        · exact .inr ⟨t₁, mode, bytes, grows, nameable, free, (grows _).file there, none, made,
            plain₂⟩

end

end Tree
end Attic
