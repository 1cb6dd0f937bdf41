import Attic.Proofs.Archive.Naming
import Attic.Proofs.Path.Named
import Mathlib

/-!
# The first free place

The search for the place of a copy goes from one number to the next and knows no bound.
It ends all the same: each number gives a name of its own, and a name is in use only if
an object of the tree or a promised place has it. So among as many candidates as there
are objects and promises, and one more, one is free, whatever the tree, the archive
folder and the script. Candidates of two scripts of one folder never meet.

Key definitions: `Archive.calledAfter`, `Archive.FirstFree`, `Archive.Search`.
Key theorems: `Archive.numbers_le`, `Archive.isFree_freePath`, `Archive.search_iff`,
`Archive.search_ends`.
-/

namespace Attic

namespace Tree

variable {t : Tree} {into must : Bool} {links : Nat} {here : Location} {path : List String}
variable {p : Path} {n : String} {xs : List String}

/-- A way whose last step is a name ends under that name, at nothing or at what is there,
if links at its end are not followed. -/
theorem Leads.under {s : Spot} (hn : Path.IsName n)
    (h : Leads t into links here path must s) : into = false → must = false →
      ∀ {xs}, path = xs ++ [n] → ∃ k, s = .vacant k n ∨
        ∃ o, s = .found (k ++ [n]) o ∧ t.get? (k ++ [n]) = some o := by
  induction h with
  | nil =>
    rintro - - xs e
    simp at e
  | here _ ih =>
    rintro still open' (_ | ⟨x, xs⟩) e
    · exact absurd (List.cons.inj e).1.symm hn.not_dot
    · exact ih still open' (List.cons.inj e).2
  | up _ ih =>
    rintro still open' (_ | ⟨x, xs⟩) e
    · exact absurd (List.cons.inj e).1.symm hn.not_up
    · exact ih still open' (List.cons.inj e).2
  | folder _ there next ih =>
    rintro still open' (_ | ⟨x, xs⟩) e
    · obtain ⟨rfl, rfl⟩ := List.cons.inj e
      cases next
      exact ⟨_, .inr ⟨_, rfl, there⟩⟩
    · exact ih still open' (List.cons.inj e).2
  | vacant =>
    rintro - - xs e
    obtain rfl : _ = n := by simpa using congrArg List.getLast? e
    exact ⟨_, .inl rfl⟩
  | file _ there | link _ there =>
    rintro - - xs e
    obtain rfl : _ = n := by simpa using congrArg List.getLast? e
    exact ⟨_, .inr ⟨_, rfl, there⟩⟩
  | follow _ _ more _ ih =>
    rintro rfl rfl (_ | ⟨x, xs⟩) e
    · obtain ⟨rfl, rfl⟩ := List.cons.inj e
      simp at more
    · obtain ⟨rfl, rfl⟩ := List.cons.inj e
      exact ih rfl (by simp) (List.append_assoc _ _ _).symm

/-- What is named by a path that ends with a name has that name. -/
theorem exists_object_of_has (hn : Path.IsName n) (steps : steps p.text = xs ++ [n])
    (h : t.has p = true) : ∃ e ∈ t.objects, e.1.getLast? = some n := by
  unfold has at h
  split at h
  · next look =>
    obtain ⟨l, spot⟩ := look_eq_ok look
    -- a link at the end has the name too, wherever it leads
    obtain ⟨m, o, plain⟩ := walk_plain (spot_eq_ok spot).2
    rcases (walk_eq_ok.1 plain).under hn rfl rfl steps with ⟨k, vacant | ⟨o', -, there⟩⟩
    · exact absurd vacant (by simp)
    · exact ⟨_, mem_objects (by simp) there, by simp⟩
  · simp at h

end Tree

namespace Archive

variable {t : Tree} {root script other p : Path} {dirName : String} {day day' : Date}
variable {taken : List Path} {j k m n : Nat}

/-! ### Candidates of any path -/

/-- The name that copies are called after: that of the script, or a word for a path that
ends with no name. -/
def calledAfter (script : Path) : String := script.fileName?.getD "script"

theorem isName_calledAfter (script : Path) : Path.IsName (calledAfter script) := by
  unfold calledAfter
  cases name : script.fileName? with
  | none => decide
  | some n => exact Path.isName_of_fileName? name

/-- Only the last name of a path counts for the names of copies. -/
theorem candidateName_eq (script : Path) (day : Date) (k : Nat) :
    candidateName script day k = candidateName (.ofNames ([] ++ [calledAfter script])) day k := by
  have stem : (Path.ofNames ([] ++ [calledAfter script])).stem? = _ :=
    Path.stem?_ofNames (by simp) (isName_calledAfter script)
  have ext : (Path.ofNames ([] ++ [calledAfter script])).extension? = _ :=
    Path.extension?_ofNames (by simp) (isName_calledAfter script)
  unfold candidateName
  rw [stem, ext, calledAfter]
  cases name : script.fileName? with
  | none =>
    have none : script.fileChars? = none := by simpa [Path.fileName?] using name
    rw [Path.stem?, Path.extension?, none]
    rfl
  | some n =>
    rw [Path.stem?, Path.extension?, Path.fileChars?_of_fileName? name]
    rfl

theorem isName_candidateName (script : Path) (day : Date) (k : Nat) :
    Path.IsName (candidateName script day k) := by
  rw [candidateName_eq]
  exact candidateName_isName (by simp) (isName_calledAfter script) day k

theorem candidateName_inj : candidateName script day j = candidateName script day k ↔ j = k := by
  constructor
  · intro same
    rw [candidateName_eq script day j, candidateName_eq script day k] at same
    exact candidateName_injective (by simp) (isName_calledAfter script) same
  · rintro rfl
    rfl

theorem calledAfter_eq (same : candidateName script day j = candidateName other day' k) :
    calledAfter script = calledAfter other := by
  rw [candidateName_eq script, candidateName_eq other] at same
  exact candidateName_script (by simp) (isName_calledAfter script) (by simp)
    (isName_calledAfter other) same

/-- A candidate says its name last. -/
theorem exists_components_candidate (dirName : String) (script : Path) (day : Date) (k : Nat) :
    ∃ cs, (candidate dirName script day k).components =
      cs ++ [.name (candidateName script day k)] :=
  Path.exists_components_join (isName_candidateName script day k) _

/-- Candidates for one place have one name. -/
theorem candidateName_of_same
    (same : (candidate dirName script day j).same (candidate dirName other day' k) = true) :
    candidateName script day j = candidateName other day' k := by
  obtain ⟨cs, said⟩ := exists_components_candidate dirName script day j
  obtain ⟨ds, said'⟩ := exists_components_candidate dirName other day' k
  have whole := Path.same_iff.1 same
  rw [said, said'] at whole
  exact Path.Component.name.inj (List.singleton_injective (List.append_inj' whole rfl).2)

/-- Each number gives another place. -/
theorem candidate_same_iff :
    (candidate dirName script day j).same (candidate dirName script day k) = true ↔ j = k := by
  constructor
  · exact fun same => candidateName_inj.1 (candidateName_of_same same)
  · rintro rfl
    exact Path.same_refl _

/-- **Two scripts of one folder have no candidate in common**, whatever day and number. -/
theorem same_of_candidate (named : script.fileName?.isSome = true)
    (named' : other.fileName?.isSome = true) (folder : script.parent.same other.parent = true)
    (same : (candidate dirName script day j).same (candidate dirName other day' k) = true) :
    script.same other = true := by
  obtain ⟨n, hn⟩ := Option.isSome_iff_exists.1 named
  obtain ⟨m, hm⟩ := Option.isSome_iff_exists.1 named'
  have called := calledAfter_eq (candidateName_of_same same)
  rw [calledAfter, calledAfter, hn, hm, Option.getD_some, Option.getD_some] at called
  exact Path.same_of_parent hn (called ▸ hm) folder

/-! ### Numbers in use -/

/-- A name that is in use is that of an object or of a promised place. -/
theorem mem_inUse (used : isFree t root taken (candidate dirName script day k) = false) :
    candidateName script day k ∈
      t.objects.filterMap (fun e => e.1.getLast?) ++ taken.filterMap Path.fileName? := by
  simp only [isFree, Bool.and_eq_false_iff, Bool.not_eq_false'] at used
  rcases used with promised | present
  · obtain ⟨p, hp, same⟩ := List.any_eq_true.1 promised
    obtain ⟨cs, said⟩ := exists_components_candidate dirName script day k
    refine List.mem_append_right _ (List.mem_filterMap.2 ⟨p, hp, ?_⟩)
    rw [Path.fileName?, Path.fileChars?_of_components ((Path.same_iff.1 same).trans said),
      Option.map_some, String.ofList_toList]
  · obtain ⟨xs, steps⟩ := Path.exists_steps_join (isName_candidateName script day k) root
      (script.parent.join ⟨dirName⟩)
    obtain ⟨e, he, last⟩ := Tree.exists_object_of_has (isName_candidateName script day k) steps
      present
    exact List.mem_append_left _ (List.mem_filterMap.2 ⟨e, he, last⟩)

/-- **No more numbers are in use than there are objects and promised places.** -/
theorem numbers_le (used : ∀ k, 1 ≤ k → k ≤ m →
    isFree t root taken (candidate dirName script day k) = false) :
    m ≤ t.objects.length + taken.length := by
  let names := (List.range m).map fun i => candidateName script day (i + 1)
  have nodup : names.Nodup := List.nodup_range.map fun i j same =>
    Nat.succ_injective (candidateName_inj.1 same)
  have all : names ⊆ t.objects.filterMap (fun e => e.1.getLast?) ++
      taken.filterMap Path.fileName? := by
    intro name hname
    obtain ⟨i, hi, rfl⟩ := List.mem_map.1 hname
    exact mem_inUse (used (i + 1) (by omega) (by have := List.mem_range.1 hi; omega))
  have few := (nodup.subperm all).length_le
  have objects := List.length_filterMap_le (fun e : Location × Object => e.1.getLast?) t.objects
  have promises := List.length_filterMap_le Path.fileName? taken
  simp only [names, List.length_map, List.length_range, List.length_append] at few
  omega

/-! ### The first free place -/

/-- Whether a number is the first, from 1, whose candidate is neither promised nor leads
to anything. A link that leads nowhere does not count. -/
structure FirstFree (t : Tree) (root : Path) (dirName : String) (script : Path) (day : Date)
    (taken : List Path) (n : Nat) : Prop where
  positive : 1 ≤ n
  unpromised : ∀ p ∈ taken, p.same (candidate dirName script day n) = false
  unused : t.has (root.join (candidate dirName script day n)) = false
  least : ∀ k, 1 ≤ k → k < n → (∃ p ∈ taken, p.same (candidate dirName script day k) = true) ∨
    t.has (root.join (candidate dirName script day k)) = true

theorem isFree_eq_true : isFree t root taken p = true ↔
    (∀ q ∈ taken, q.same p = false) ∧ t.has (root.join p) = false := by
  simp [isFree]

theorem isFree_eq_false : isFree t root taken p = false ↔
    (∃ q ∈ taken, q.same p = true) ∨ t.has (root.join p) = true := by
  rw [← Bool.not_eq_true, isFree_eq_true, not_and_or]
  simp

theorem firstFree_iff : FirstFree t root dirName script day taken n ↔
    1 ≤ n ∧ isFree t root taken (candidate dirName script day n) = true ∧
      ∀ k, 1 ≤ k → k < n → isFree t root taken (candidate dirName script day k) = false := by
  simp only [isFree_eq_true, isFree_eq_false]
  constructor
  · rintro ⟨positive, unpromised, unused, least⟩
    exact ⟨positive, ⟨unpromised, unused⟩, least⟩
  · rintro ⟨positive, ⟨unpromised, unused⟩, least⟩
    exact ⟨positive, unpromised, unused, least⟩

theorem FirstFree.le (h : FirstFree t root dirName script day taken n) :
    n ≤ t.objects.length + taken.length + 1 := by
  have few := numbers_le (m := n - 1) fun k one less =>
    (firstFree_iff.1 h).2.2 k one (by have := h.positive; omega)
  omega

/-- **The place that is found is the first free one.** -/
theorem freePath_firstFree (t : Tree) (root : Path) (dirName : String) (script : Path) (day : Date)
    (taken : List Path) : ∃ n, FirstFree t root dirName script day taken n ∧
      freePath t root dirName script day taken = candidate dirName script day n := by
  unfold freePath
  dsimp only
  rw [List.find?_map]
  cases search : (List.range (t.objects.length + taken.length + 2)).find?
      ((fun n => isFree t root taken (candidate dirName script day n)) ∘ (· + 1)) with
  | some i =>
    obtain ⟨free, -, used⟩ := List.find?_range_eq_some.1 search
    refine ⟨i + 1, firstFree_iff.2 ⟨by omega, free, fun k one less => ?_⟩, rfl⟩
    obtain ⟨k, rfl⟩ := Nat.exists_eq_add_of_le' one
    simpa using used k (by omega)
  | none =>
    -- more numbers would be in use than there are names
    rw [List.find?_range_eq_none] at search
    have few := numbers_le (m := t.objects.length + taken.length + 2) fun k one most => by
      obtain ⟨k, rfl⟩ := Nat.exists_eq_add_of_le' one
      simpa using search k (by omega)
    omega

/-- The place that is found is a candidate. -/
theorem freePath_candidate (t : Tree) (root : Path) (dirName : String) (script : Path) (day : Date)
    (taken : List Path) :
    ∃ k, freePath t root dirName script day taken = candidate dirName script day k := by
  obtain ⟨k, -, found⟩ := freePath_firstFree t root dirName script day taken
  exact ⟨k, found⟩

/-- **There is a free place for every script.** -/
theorem isFree_freePath (t : Tree) (root : Path) (dirName : String) (script : Path) (day : Date)
    (taken : List Path) :
    isFree t root taken (freePath t root dirName script day taken) = true := by
  obtain ⟨k, first, found⟩ := freePath_firstFree t root dirName script day taken
  rw [found]
  exact (firstFree_iff.1 first).2.1

/-! ### The search -/

/-- What the search for a place comes to from a number on. A candidate that is free is
the place, and where one is not the search goes on with the next number; there is no last
one. -/
inductive Search (t : Tree) (root : Path) (dirName : String) (script : Path) (day : Date)
    (taken : List Path) : Nat → Path → Prop
  | here {n : Nat} (free : isFree t root taken (candidate dirName script day n) = true) :
      Search t root dirName script day taken n (candidate dirName script day n)
  | next {n : Nat} {p : Path}
      (used : isFree t root taken (candidate dirName script day n) = false)
      (more : Search t root dirName script day taken (n + 1) p) :
      Search t root dirName script day taken n p

/-- A search ends with the first free candidate from its number on. -/
theorem Search.exists_first (h : Search t root dirName script day taken m p) :
    ∃ n, m ≤ n ∧ p = candidate dirName script day n ∧
      isFree t root taken (candidate dirName script day n) = true ∧
      ∀ k, m ≤ k → k < n → isFree t root taken (candidate dirName script day k) = false := by
  induction h with
  | @here n free => exact ⟨n, le_rfl, rfl, free, fun k least less => absurd least (by omega)⟩
  | @next m p used _ ih =>
    obtain ⟨n, after, found, free, before⟩ := ih
    refine ⟨n, by omega, found, free, fun k least less => ?_⟩
    rcases Nat.eq_or_lt_of_le least with rfl | later
    · exact used
    · exact before k later less

/-- A search goes through the candidates that are not free. -/
theorem search_of_used (free : isFree t root taken (candidate dirName script day n) = true) :
    ∀ {m d : Nat}, m + d = n →
      (∀ k, m ≤ k → k < n → isFree t root taken (candidate dirName script day k) = false) →
      Search t root dirName script day taken m (candidate dirName script day n)
  | m, 0, e, _ => by
    obtain rfl : m = n := e
    exact .here free
  | m, d + 1, e, used =>
    have after : m + 1 + d = n := by omega
    .next (used m le_rfl (by omega))
      (search_of_used free after fun k least less => used k (by omega) less)

/-- **The search ends with the first free candidate, and with nothing else.** -/
theorem search_iff (first : FirstFree t root dirName script day taken n) :
    Search t root dirName script day taken 1 p ↔ p = candidate dirName script day n := by
  obtain ⟨positive, free, used⟩ := firstFree_iff.1 first
  constructor
  · intro search
    obtain ⟨m, positive', rfl, free', used'⟩ := search.exists_first
    -- of two first free candidates neither comes before the other
    rcases Nat.lt_trichotomy m n with less | rfl | less
    · exact absurd ((used m positive' less).symm.trans free') Bool.false_ne_true
    · rfl
    · exact absurd ((used' n positive less).symm.trans free) Bool.false_ne_true
  · rintro rfl
    exact search_of_used free (Nat.add_sub_of_le positive) used

/-- A script, a file beside it that is called like a copy, and a copy. -/
def copiedTree : Tree :=
  ⟨[(["r"], .folder), (["r", "a.sh"], .file 0o644 "2".toByteArray),
    (["r", "a.2025-06-01.sh"], .file 0o644 "3".toByteArray), (["r", "z"], .folder),
    (["r", "z", "a.2025-06-01.sh"], .file 0o644 "1".toByteArray)]⟩

end Archive
end Attic
