import Attic.Proofs.Tree.Folders
import Mathlib

/-!
# Objects that lie in folders

In a tree whose objects lie in folders, a path leads to what the tree holds at a
place, whether there are links on the way or not. Making folders only adds
folders where nothing was: the tree grows. A file that gets another name stands
at its new place and is gone from the old one.

Key definitions: `Tree.Grounded`, `Tree.GrowsAt`, `Tree.Grows`,
`Tree.Spot.Holds`.
Key theorems: `Tree.Grounded.spot_holds`, `Tree.Grounded.makeFolders_grows`,
`Tree.Grounded.get?_relocate`, `Tree.Grounded.rename_object`.
-/

namespace Attic
namespace Tree

/-- Every object lies in a folder. -/
def Grounded (t : Tree) : Prop :=
  ∀ l, l ≠ [] → t.get? l ≠ none → t.get? l.dropLast = some .folder

/-- What is at a place stays there, and nothing but a folder comes if nothing
was. -/
def GrowsAt (t t' : Tree) (l : Location) : Prop :=
  t'.get? l = t.get? l ∨ t.get? l = none ∧ t'.get? l = some .folder

/-- Everything stays where it is, and folders come where nothing was. -/
def Grows (t t' : Tree) : Prop := ∀ l, t.GrowsAt t' l

variable {t t' : Tree} {l m k here : Location} {o : Object} {p q : Path} {mode : Nat}
variable {bytes : ByteArray}

theorem get?_root (t : Tree) : t.get? [] = some .folder := by simp [get?]

theorem mem_objects (hne : l ≠ []) (h : t.get? l = some o) : (l, o) ∈ t.objects := by
  rw [get?, if_neg hne, List.lookup_eq_some_iff] at h
  obtain ⟨before, after, e, -⟩ := h
  rw [e]
  simp

theorem WellFormed.grounded (h : t.WellFormed) : t.Grounded := fun l hne there => by
  obtain ⟨o, ho⟩ := Option.ne_none_iff_exists'.1 there
  exact h.in_folder _ (mem_objects hne ho)

/-! ### Growing -/

namespace GrowsAt

theorem trans {u : Tree} (h : t.GrowsAt t' l) (h' : t'.GrowsAt u l) : t.GrowsAt u l := by
  rcases h' with same | ⟨none, folder⟩
  · rw [GrowsAt, same]
    exact h
  · rcases h with same | ⟨-, made⟩
    · exact .inr ⟨same ▸ none, folder⟩
    · rw [none] at made
      exact absurd made (by simp)

/-- What is somewhere stays. -/
theorem keeps (h : t.GrowsAt t' l) (there : t.get? l = some o) : t'.get? l = some o := by
  rcases h with same | ⟨none, -⟩
  · rw [same, there]
  · rw [none] at there
    exact absurd there (by simp)

/-- A file does not come to a place. -/
theorem file (h : t.GrowsAt t' l) {mode : Nat} {bytes : ByteArray}
    (there : t'.get? l = some (.file mode bytes)) : t.get? l = some (.file mode bytes) := by
  rcases h with same | ⟨-, made⟩
  · rw [← same, there]
  · rw [made] at there
    exact absurd there (by simp)

end GrowsAt

theorem Grows.refl (t : Tree) : t.Grows t := fun _ => .inl rfl

theorem Grows.trans {u : Tree} (h : t.Grows t') (h' : t'.Grows u) : t.Grows u :=
  fun l => (h l).trans (h' l)

theorem grows_set_folder (h : t.get? l = none) : t.Grows (t.set l .folder) := by
  intro k
  by_cases hk : k = l
  · subst hk
    have hne : k ≠ [] := by
      rintro rfl
      simp [get?_root] at h
    exact .inr ⟨h, get?_set_same hne⟩
  · exact .inl (get?_set_other hk)

/-! ### Changes of one place -/

theorem ne_nil_of_get? (h : t.get? l ≠ some .folder) : l ≠ [] := by
  rintro rfl
  exact h (get?_root t)

namespace Grounded

/-- What lies above an object is a folder. -/
theorem above (h : t.Grounded) : ∀ {k : Location}, k ≠ [] → t.get? (l ++ k) ≠ none →
    t.get? l = some .folder := by
  intro k
  induction k using List.reverseRecOn with
  | nil => exact fun h => absurd rfl h
  | append_singleton ks name ih =>
    intro _ there
    have folder := h (l ++ (ks ++ [name])) (by simp) there
    rw [← List.append_assoc, List.dropLast_concat] at folder
    by_cases hks : ks = []
    · rwa [hks, List.append_nil] at folder
    · exact ih hks (by simp [folder])

/-- An object is put into a folder at a place that does not hold a folder. -/
theorem set (h : t.Grounded) (hl : l ≠ []) (folder : t.get? l.dropLast = some .folder)
    (free : t.get? l ≠ some .folder) : (t.set l o).Grounded := by
  have keep {k : Location} (hk : t.get? k = some .folder) : (t.set l o).get? k = some .folder := by
    have hne : k ≠ l := by
      rintro rfl
      exact free hk
    rw [get?_set_other hne, hk]
  intro k hk there
  by_cases e : k = l
  · exact keep (e ▸ folder)
  · rw [get?_set_other e] at there
    exact keep (h k hk there)

/-- What is no folder is taken away. -/
theorem erase (h : t.Grounded) (free : t.get? l ≠ some .folder) : (t.erase l).Grounded := by
  have hl := ne_nil_of_get? free
  intro k hk there
  have other : k ≠ l := by
    rintro rfl
    exact there (get?_erase_same hl)
  rw [get?_erase_other other] at there
  have folder := h k hk there
  rw [get?_erase_other, folder]
  rintro rfl
  exact free folder

theorem congr (h : t.Grounded) (same : ∀ l, t'.get? l = t.get? l) : t'.Grounded := by
  intro l hl
  rw [same, same]
  exact h l hl

/-- Below what is no folder there is nothing. -/
theorem below (h : t.Grounded) (free : t.get? l ≠ some .folder) :
    ∀ e ∈ t.objects, l <+: e.1 → e.1 = l := by
  rintro ⟨k, o⟩ he ⟨rest, hrest⟩
  by_contra longer
  have more : rest ≠ [] := by
    rintro rfl
    exact longer (by simpa using hrest.symm)
  refine free (h.above more ?_)
  rw [get?, if_neg (by simp [more])]
  intro none
  rw [List.lookup_eq_none_iff] at none
  have unlike := none _ he
  rw [hrest] at unlike
  simp at unlike

end Grounded

/-! ### Where paths lead -/

/-- What stands or can stand at the end of a way. -/
def Spot.Holds (t : Tree) : Spot → Prop
  | .found l o => t.get? l = some o
  | .vacant l name => t.get? l = some .folder ∧ t.get? (l ++ [name]) = none

/-- A way that starts in a folder ends where the tree says. -/
theorem Leads.holds (grounded : t.Grounded) {into must : Bool} {links : Nat} {path : List String}
    {s : Spot} (h : Leads t into links here path must s) : t.get? here = some .folder →
      s.Holds t := by
  induction h with
  | nil => exact id
  | here _ ih => exact ih
  | @up _ here _ _ _ _ ih =>
    intro folder
    refine ih ?_
    by_cases top : here = []
    · rw [top]
      exact get?_root t
    · exact grounded here top (by simp [folder])
  | folder _ there _ ih => exact fun _ => ih there
  | vacant _ free => exact fun folder => ⟨folder, free⟩
  | file _ there | link _ there => exact fun _ => there
  | follow _ _ _ _ ih =>
    intro folder
    refine ih ?_
    split
    · exact get?_root t
    · exact folder

/-- **A path leads to what the tree holds there.** -/
theorem Grounded.spot_holds (grounded : t.Grounded) {into must : Bool} {s : Spot}
    (h : t.spot into must p = .ok s) : s.Holds t :=
  (walk_eq_ok.1 (spot_eq_ok h).2).holds grounded (get?_root t)

/-- A path to a folder leads to one as long as folders and links stay. -/
theorem Grounded.isFolder_kept (grounded : t.Grounded)
    (folders : ∀ l, t.get? l = some .folder → t'.get? l = some .folder)
    (same : ∀ l target, t.get? l = some (.link target) → t'.get? l = some (.link target))
    (h : t.isFolder p = true) : t'.isFolder p = true := by
  unfold isFolder at h
  split at h
  · next there =>
    obtain ⟨l, hl⟩ := look_eq_ok there
    have folder : t.get? l = some .folder := grounded.spot_holds hl
    obtain ⟨fault, way⟩ := spot_eq_ok hl
    rw [isFolder, look,
      spot_of_walk fault (walk_reads folders same (.found (folders l folder)) way)]
    rfl
  · simp at h

/-! ### Making folders -/

namespace Grounded

theorem makesLast_grows {c : Change} (h : t.Grounded) (makes : MakesLast t p c) :
    c.2.Grounded ∧ t.Grows c.2 := by
  cases makes with
  | made spot =>
    obtain ⟨folder, none⟩ := h.spot_holds spot
    refine ⟨h.set (by simp) ?_ (by simp [none]), grows_set_folder none⟩
    rwa [List.dropLast_concat]
  | there | failed => exact ⟨h, .refl t⟩

theorem makes_grows {n : Nat} {c : Change} (makes : Makes n t p c) (h : t.Grounded) :
    c.2.Grounded ∧ t.Grows c.2 := by
  induction makes with
  | spent | nowhere | top => exact ⟨h, .refl _⟩
  | last _ _ last => exact h.makesLast_grows last
  | stuck _ _ _ _ above => exact above h
  | after _ _ _ _ last above =>
    obtain ⟨grounded, grows⟩ := above h
    obtain ⟨grounded', grows'⟩ := grounded.makesLast_grows last
    exact ⟨grounded', grows.trans grows'⟩

theorem makeLast_grows (h : t.Grounded) (p : Path) :
    (t.makeLast p).2.Grounded ∧ t.Grows (t.makeLast p).2 :=
  h.makesLast_grows (makeLast_makes t p)

theorem makeFoldersFrom_grows (n : Nat) {t : Tree} (h : t.Grounded) (p : Path) :
    (makeFoldersFrom n t p).2.Grounded ∧ t.Grows (makeFoldersFrom n t p).2 :=
  makes_grows (makeFoldersFrom_makes n t p) h

/-- **Making folders adds folders and changes nothing else**, whether it
succeeds or not. -/
theorem makeFolders_grows (h : t.Grounded) (p : Path) :
    (t.makeFolders p).2.Grounded ∧ t.Grows (t.makeFolders p).2 :=
  makeFoldersFrom_grows _ h p

theorem makeParent_grows (h : t.Grounded) (p : Path) :
    (t.makeParent p).2.Grounded ∧ t.Grows (t.makeParent p).2 := by
  unfold makeParent
  split
  · exact h.makeFolders_grows _
  · exact ⟨h, .refl t⟩

end Grounded

/-! ### Giving an object another name -/

theorem lookup_relocated (hlm : l ≠ m) (k : Location) : ∀ {objects : List (Location × Object)},
    (∀ e ∈ objects, l <+: e.1 → e.1 = l) → (∀ e ∈ objects, e.1 ≠ m) →
    (objects.map fun (k, o) => (if l.isPrefixOf k then m ++ k.drop l.length else k, o)).lookup k =
      if k = m then objects.lookup l else if k = l then none else objects.lookup k
  | [], _, _ => by simp
  | (k', o) :: rest, alone, free => by
    have ih := lookup_relocated hlm k (fun e he => alone e (List.mem_cons_of_mem _ he))
      fun e he => free e (List.mem_cons_of_mem _ he)
    have hm : k' ≠ m := free _ List.mem_cons_self
    by_cases hl : k' = l
    · subst hl
      have first : k'.isPrefixOf k' = true := List.isPrefixOf_iff_prefix.2 List.prefix_rfl
      simp only [List.map_cons, List.lookup_cons, first, if_true, List.drop_length,
        List.append_nil, beq_self_eq_true, ih]
      by_cases hk : k = m
      · simp [hk]
      have unlike : (k == m) = false := by simpa using hk
      rw [unlike, if_neg hk, if_neg hk]
      by_cases hk' : k = k'
      · simp [hk']
      · have other : (k == k') = false := by simpa using hk'
        simp [hk', other]
    · have other : l.isPrefixOf k' = false :=
        Bool.eq_false_iff.2 fun h =>
          hl (alone _ List.mem_cons_self (List.isPrefixOf_iff_prefix.1 h))
      have hl' : (l == k') = false := by simpa using Ne.symm hl
      simp only [List.map_cons, List.lookup_cons, other, Bool.false_eq_true, if_false, ih, hl']
      by_cases hk : k = k'
      · simp [hk, hl, hm]
      · have hk' : (k == k') = false := by simpa using hk
        simp [hk']

namespace Grounded

/-- **An object taken elsewhere stands there and is gone from its place.** -/
theorem get?_relocate (h : t.Grounded) (there : t.get? l = some o) (ho : o ≠ .folder)
    (hm : m ≠ []) (hlm : l ≠ m) (k : Location) :
    (t.relocate l m).get? k = ((t.erase l).set m o).get? k := by
  have noFolder : t.get? l ≠ some .folder := by simpa [there] using ho
  have hl := ne_nil_of_get? noFolder
  by_cases hk : k = []
  · rw [hk, get?_root, get?_root]
  have alone : ∀ e ∈ (t.erase m).objects, l <+: e.1 → e.1 = l :=
    fun e he => h.below noFolder e (List.mem_filter.1 he).1
  have free : ∀ e ∈ (t.erase m).objects, e.1 ≠ m :=
    fun e he => by simpa using (List.mem_filter.1 he).2
  have other {k : Location} (hk : k ≠ []) (hkm : k ≠ m) :
      (t.erase m).objects.lookup k = t.get? k := by
    rw [← get?_erase_other hkm, get?, if_neg hk]
  rw [get?, if_neg hk, relocate, lookup_relocated hlm k alone free]
  by_cases hkm : k = m
  · rw [if_pos hkm, hkm, get?_set_same hm, other hl hlm, there]
  rw [if_neg hkm, get?_set_other hkm]
  by_cases hkl : k = l
  · rw [if_pos hkl, hkl, get?_erase_same hl]
  · rw [if_neg hkl, get?_erase_other hkl, other hk hkm]

/-- Elsewhere nothing changes. -/
theorem get?_relocate_other (h : t.Grounded) (there : t.get? l = some o) (ho : o ≠ .folder)
    (hm : m ≠ []) (hlm : l ≠ m) {k : Location} (hk : k ≠ l) (hk' : k ≠ m) :
    (t.relocate l m).get? k = t.get? k := by
  rw [h.get?_relocate there ho hm hlm, get?_set_other hk', get?_erase_other hk]

/-- An object other than a folder that gets another name goes where no folder
is. -/
theorem rename_object (h : t.Grounded) (ho : o ≠ .folder)
    (there : t.spot false false p = .ok (.found l o))
    (differ : ∀ s, t.spot false false q = .ok s → s.place.1 ≠ l)
    (done : t.rename p q = (.ok (), t')) : ∃ s, t.spot false false q = .ok s ∧
      t.get? s.place.1 ≠ some .folder ∧ t.get? s.place.1.dropLast = some .folder ∧
      t' = t.relocate l s.place.1 := by
  unfold rename at done
  rw [there] at done
  cases hq : t.spot false false q with
  | error f => simp [hq] at done
  | ok s =>
    have holds := h.spot_holds hq
    have apart : l ≠ s.place.1 := (differ s hq).symm
    refine ⟨s, rfl, ?_⟩
    simp only [hq, apart, if_false] at done
    split at done
    · simp at done
    split at done
    · simp at done
    cases s with
    | vacant here name =>
      obtain ⟨folder, none⟩ := holds
      simp only [Spot.place, Prod.mk.injEq, true_and] at done ⊢
      refine ⟨by simp [none], ?_, done.symm⟩
      rwa [List.dropLast_concat]
    | found m taken =>
      have stands : t.get? m = some taken := holds
      have notFolder : taken ≠ .folder := by
        rintro rfl
        cases o <;> simp [Spot.place] at done ho
      have free : t.get? m ≠ some .folder := by simpa [stands] using notFolder
      refine ⟨free, h m (ne_nil_of_get? free) (by simp [stands]), ?_⟩
      cases o <;> cases taken <;> simp_all [Spot.place]

end Grounded

end Tree
end Attic
