import Attic.Proofs.Tree.Again
import Mathlib

/-!
# Places that paths keep

A path that leads to a place leads there also later, with links at its end taken
as they are, as long as folders stay and so do links, but for those that lead to
no folder: nothing goes on through such a link. So it is when folders come, when
a file comes where nothing was, and when a file goes away, or a link to a file.

Key definitions: `Tree.Steady`, `Tree.Dead`, `Path.Above`.
Key theorems: `Tree.Leads.settles`, `Tree.Steady.erase`, `Tree.makeParent_places`.
-/

namespace Attic

/-- Whether the second path is the first one without its last name. -/
def Path.Parent (p q : Path) : Prop := p.parent? = some q

/-- Whether the second path is the first one without some of its last names. -/
def Path.Above : Path → Path → Prop := Relation.TransGen Path.Parent

namespace Tree

/-- Whether each path that leads to a place in a tree leads there in another. -/
def Steady (t t' : Tree) : Prop :=
  ∀ p l, t.placeOf? false p = some l → t'.placeOf? false p = some l

/-- Whether a link at a place leads to no folder. -/
def Dead (t : Tree) (l : Location) (target : String) : Prop :=
  ∀ links m, ¬ Leads t true links (if startsWithSlash target then [] else l.dropLast)
    (steps target) false (.found m .folder)

variable {t t' u : Tree} {p q : Path} {l m here : Location} {name target : String}
variable {path : List String} {links links' : Nat} {into must : Bool} {s s' : Spot} {o : Object}
variable {mode : Nat} {bytes : ByteArray}

/-! ### Ways through more links -/

/-- A way is there also where more links may be followed. -/
theorem Leads.more (h : Leads t into links here path must s) :
    ∀ {links'}, links ≤ links' → Leads t into links' here path must s := by
  induction h with
  | nil => exact fun _ => .nil
  | here _ ih => exact fun le => .here (ih le)
  | up _ ih => exact fun le => .up (ih le)
  | folder step there _ ih => exact fun le => .folder step there (ih le)
  | vacant step free => exact fun _ => .vacant step free
  | file step there => exact fun _ => .file step there
  | link step there still => exact fun _ => .link step there still
  | follow step there more _ ih =>
    intro links' le
    obtain ⟨links', rfl⟩ := Nat.exists_eq_succ_of_ne_zero (Nat.ne_zero_of_lt le)
    exact .follow step there more (ih (Nat.le_of_succ_le_succ le))

/-- A path leads to one spot, through however many links. -/
theorem Leads.unique (h : Leads t into links here path must s)
    (h' : Leads t into links' here path must s') : s = s' := by
  have one := walk_of_leads (h.more (Nat.le_max_left links links'))
  rw [walk_of_leads (h'.more (Nat.le_max_right links links'))] at one
  exact (Except.ok.inj one).symm

/-- A path to a place finds what is there. -/
theorem spot_of_placeOf? (grounded : t.Grounded) (place : t.placeOf? false p = some l)
    (there : t.get? l = some o) : t.spot false false p = .ok (.found l o) := by
  obtain ⟨s, spot, rfl⟩ := placeOf?_eq_some.1 place
  have holds := grounded.spot_holds spot
  cases s with
  | found m o' =>
    obtain rfl := Option.some.inj (there.symm.trans holds)
    exact spot
  | vacant m name => simp [Spot.place, holds.2] at there

/-! ### Ways that stay -/

/-- A way ends under any name in a folder. -/
theorem leads_last (t : Tree) (links : Nat) (here : Location) (step : IsStep name) :
    ∃ s, Leads t false links here [name] false s ∧ s.place.1 = here ++ [name] := by
  cases there : t.get? (here ++ [name]) with
  | none => exact ⟨_, .vacant step there, rfl⟩
  | some o =>
    cases o with
    | file mode bytes => exact ⟨_, .file step there, rfl⟩
    | folder => exact ⟨_, .folder step there .nil, rfl⟩
    | link target => exact ⟨_, .link step there rfl, rfl⟩

/-- **A way goes where it went** if the folders stay, and the links that lead on. -/
theorem Leads.settles (folders : ∀ l, t.get? l = some .folder → t'.get? l = some .folder)
    (linked : ∀ l target, t.get? l = some (.link target) →
      t'.get? l = some (.link target) ∨ t.Dead l target)
    (h : Leads t false links here path must s) : must = false →
      ∃ s', Leads t' false links here path false s' ∧ s'.place.1 = s.place.1 := by
  induction h with
  | nil => exact fun _ => ⟨_, .nil, rfl⟩
  | here _ ih =>
    intro hm
    obtain ⟨s', way, place⟩ := ih hm
    exact ⟨s', .here way, place⟩
  | up _ ih =>
    intro hm
    obtain ⟨s', way, place⟩ := ih hm
    exact ⟨s', .up way, place⟩
  | folder step there _ ih =>
    intro hm
    obtain ⟨s', way, place⟩ := ih hm
    exact ⟨s', .folder step (folders _ there) way, place⟩
  | vacant step | file step | link step => exact fun _ => leads_last t' _ _ step
  | @follow links here name target path must s step there more next ih =>
    rintro rfl
    have on : path ≠ [] := by
      rintro rfl
      simp at more
    obtain still | dead := linked _ _ there
    · obtain ⟨s', way, place⟩ := ih (by simp [on])
      exact ⟨s', .follow step still more (by simpa [on] using way), place⟩
    · obtain ⟨m, front⟩ := next.front on rfl false
      exact absurd front (by simpa using dead links m)

namespace Steady

theorem trans (h : Steady t t') (h' : Steady t' u) : Steady t u := fun p l place =>
  h' p l (h p l place)

theorem of_kept (folders : ∀ l, t.get? l = some .folder → t'.get? l = some .folder)
    (linked : ∀ l target, t.get? l = some (.link target) →
      t'.get? l = some (.link target) ∨ t.Dead l target) : Steady t t' := by
  intro p l place
  obtain ⟨s, spot, rfl⟩ := placeOf?_eq_some.1 place
  obtain ⟨fault, way⟩ := spot_eq_ok spot
  obtain ⟨s', way', place⟩ := (walk_eq_ok.1 way).settles folders linked rfl
  exact placeOf?_eq_some.2 ⟨s', spot_of_walk fault (walk_eq_ok.2 way'), place⟩

theorem of_same (same : ∀ l, t'.get? l = t.get? l) : Steady t t' :=
  of_kept (fun l folder => by rw [same, folder]) fun l target link => .inl (by rw [same, link])

theorem of_grows (grows : t.Grows t') : Steady t t' :=
  of_kept (fun l => (grows l).keeps) fun l _ link => .inl ((grows l).keeps link)

/-- A file comes where nothing was. -/
theorem set_file (free : t.get? l = none) : Steady t (t.set l (.file mode bytes)) := by
  have other {k : Location} {o : Object} (there : t.get? k = some o) : k ≠ l := by
    rintro rfl
    simp [free] at there
  refine of_kept (fun k folder => ?_) fun k target link => .inl ?_
  · rw [get?_set_other (other folder), folder]
  · rw [get?_set_other (other link), link]

/-- **A file goes away, or a link that leads to no folder.** -/
theorem erase (there : t.get? l = some o) (noFolder : o ≠ .folder)
    (dead : ∀ target, o = .link target → t.Dead l target) : Steady t (t.erase l) := by
  refine of_kept (fun k folder => ?_) fun k target link => ?_
  · rw [get?_erase_other, folder]
    rintro rfl
    exact noFolder (Option.some.inj (there.symm.trans folder))
  · by_cases same : k = l
    · subst same
      exact .inr (dead target (Option.some.inj (there.symm.trans link)))
    · exact .inl (by rw [get?_erase_other same, link])

end Steady

/-! ### Links to files -/

/-- A way to a file ends there also if links at its end are not followed, or it ends
at a link that leads there. -/
theorem Leads.file_or_link (h : Leads t true links here path must (.found m (.file mode bytes))) :
    Leads t false links here path false (.found m (.file mode bytes)) ∨
      ∃ k target links', Leads t false links here path false (.found k (.link target)) ∧
        Leads t true links' (if startsWithSlash target then [] else k.dropLast) (steps target)
          false (.found m (.file mode bytes)) := by
  have at' : (Spot.found m (.file mode bytes)).fileAt m := rfl
  generalize e : Spot.found m (.file mode bytes) = s at h at'
  induction h with
  | nil => simp at e
  | here _ ih =>
    obtain way | ⟨k, target, links', way, rest⟩ := ih e at'
    · exact .inl (.here way)
    · exact .inr ⟨k, target, links', .here way, rest⟩
  | up _ ih =>
    obtain way | ⟨k, target, links', way, rest⟩ := ih e at'
    · exact .inl (.up way)
    · exact .inr ⟨k, target, links', .up way, rest⟩
  | folder step there _ ih =>
    obtain way | ⟨k, target, links', way, rest⟩ := ih e at'
    · exact .inl (.folder step there way)
    · exact .inr ⟨k, target, links', .folder step there way, rest⟩
  | vacant => simp at e
  | file step there => exact .inl (.file step there)
  | link _ _ still => simp at still
  | @follow links here name target path must s step there _ next ih =>
    by_cases last : path = []
    · subst last
      obtain ⟨noFolder, -⟩ := next.fileAt at'
      rw [noFolder, List.append_nil] at next
      exact .inr ⟨here ++ [name], target, links, .link step there rfl, by
        rwa [List.dropLast_concat]⟩
    · have more : (path = [] && !false && !false) = false := by simp [last]
      have on {must : Bool} : (must || (decide (path = []) && endsWithSlash target)) = must := by
        simp [last]
      obtain way | ⟨k, target', links', way, rest⟩ := ih e at'
      · exact .inl (.follow step there more (on.symm ▸ way))
      · exact .inr ⟨k, target', links', .follow step there more (on.symm ▸ way), rest⟩

/-- A link at the end of a path to a file leads to no folder. -/
theorem dead_of_readFile (h : t.readFile p = .ok (mode, bytes))
    (spot : t.spot false false p = .ok (.found l (.link target))) : t.Dead l target := by
  obtain ⟨-, m, into⟩ := spot_of_readFile h
  have way := walk_eq_ok.1 (spot_eq_ok spot).2
  obtain direct | ⟨k, target', links', way', rest⟩ :=
    (walk_eq_ok.1 (spot_eq_ok into).2).file_or_link
  · simpa using way.unique direct
  · obtain ⟨rfl, e⟩ := Spot.found.inj (way.unique way')
    obtain rfl := Object.link.inj e
    intro links m' folder
    simpa using folder.unique rest

/-! ### Folders that are made -/

/-- A folder that comes is at the place of the path. -/
theorem MakesLast.places {c : Change} (makes : MakesLast t p c) (new : c.2.get? l ≠ t.get? l) :
    c.2.placeOf? false p = some l := by
  cases makes with
  | there | failed => exact absurd rfl new
  | @made k name spot =>
    have here : l = k ++ [name] := by
      by_contra other
      exact new (get?_set_other other)
    refine (Steady.of_grows (grows_set_folder (free_of_spot spot))) p l ?_
    exact placeOf?_eq_some.2 ⟨_, spot, here.symm⟩

/-- What is new after two steps is new after the first or after the second. -/
theorem places_trans (steady : Steady t' u) (new : u.get? l ≠ t.get? l)
    (first : t'.get? l ≠ t.get? l →
      ∃ q, Relation.ReflTransGen Path.Parent p q ∧ t'.placeOf? false q = some l)
    (last : u.get? l ≠ t'.get? l → u.placeOf? false p = some l) :
    ∃ q, Relation.ReflTransGen Path.Parent p q ∧ u.placeOf? false q = some l := by
  by_cases same : u.get? l = t'.get? l
  · obtain ⟨q, above, place⟩ := first (same ▸ new)
    exact ⟨q, above, steady q l place⟩
  · exact ⟨p, .refl, last same⟩

/-- **Folders that come are at the places of the path and of those above it.** -/
theorem Makes.places {n : Nat} {c : Change} (makes : Makes n t p c) (grounded : t.Grounded)
    (new : c.2.get? l ≠ t.get? l) :
    ∃ q, Relation.ReflTransGen Path.Parent p q ∧ c.2.placeOf? false q = some l := by
  induction makes with
  | spent | nowhere | top => exact absurd rfl new
  | last _ _ last => exact ⟨_, .refl, last.places new⟩
  | stuck _ _ parent _ above =>
    obtain ⟨q, up, place⟩ := above grounded new
    exact ⟨q, .head parent up, place⟩
  | after _ _ parent makes last above =>
    obtain ⟨grounded', -⟩ := grounded.makes_grows makes
    obtain ⟨-, grows⟩ := grounded'.makesLast_grows last
    refine places_trans (.of_grows grows) new (fun new => ?_) last.places
    obtain ⟨q, up, place⟩ := above grounded new
    exact ⟨q, .head parent up, place⟩

/-- The folders for a path are made above it. -/
theorem makeParent_places (grounded : t.Grounded) (p : Path)
    (new : (t.makeParent p).2.get? l ≠ t.get? l) :
    ∃ q, p.Above q ∧ (t.makeParent p).2.placeOf? false q = some l := by
  unfold makeParent at new ⊢
  split at new
  · next q hq =>
    obtain ⟨q', up, place⟩ := (makeFoldersFrom_makes _ t q).places grounded new
    exact ⟨q', .head' hq up, place⟩
  · exact absurd rfl new

/-! ### Files that stay -/

/-- A file is read by its path where everything stays. -/
theorem readFile_kept (grounded : t.Grounded)
    (kept : ∀ l o, t.get? l = some o → t'.get? l = some o)
    (h : t.readFile p = .ok (mode, bytes)) : t'.readFile p = .ok (mode, bytes) := by
  obtain ⟨slash, m, spot⟩ := spot_of_readFile h
  obtain ⟨fault, way⟩ := spot_eq_ok spot
  have there : t.get? m = some (.file mode bytes) := grounded.spot_holds spot
  rw [readFile_eq_ok, look, slash, spot_of_walk fault (walk_reads (fun l => kept l _)
    (fun l _ => kept l _) (.found (kept m _ there)) way)]
  rfl

/-- What is removed is no folder, and is at the place of the path. -/
theorem removeFile_cases (t : Tree) (slash : endsWithSlash p.text = false) :
    (∃ f, t.removeFile p = (.error f, t)) ∨
      ∃ l o, t.spot false false p = .ok (.found l o) ∧ o ≠ .folder ∧
        t.removeFile p = (.ok (), t.erase l) := by
  rw [removeFile, slash]
  cases t.spot false false p with
  | error f => exact .inl ⟨f, rfl⟩
  | ok s =>
    cases s with
    | vacant l name => exact .inl ⟨.notFound, rfl⟩
    | found l o =>
      cases o with
      | file mode bytes => exact .inr ⟨l, _, rfl, by simp, rfl⟩
      | folder => exact .inl ⟨.isFolder, rfl⟩
      | link target => exact .inr ⟨l, _, rfl, by simp, rfl⟩

/-- The folder of a path that leads somewhere is there. -/
theorem makeParent_of_spot (h : t.spot into must p = .ok s) :
    t.makeParent p = (.ok (), t) :=
  makeParent_of_isFolder fun _ => isFolder_of_parent h

/-! ### Copies -/

/-- Where a copy cannot be put folders are all that comes. -/
theorem placeCopy_error {executable : Bool} {f : Fault}
    (h : t.placeCopy p q executable = (.error f, t')) : t' = (t.makeParent q).2 := by
  unfold placeCopy at h
  split at h
  · next opens =>
    rw [opens]
    exact (Prod.mk.inj h).2.symm
  next u opens =>
  rw [opens]
  split at h
  · exact (Prod.mk.inj h).2.symm
  unfold createFile at h
  split at h
  · exact (Prod.mk.inj h).2.symm
  split at h
  · exact (Prod.mk.inj h).2.symm
  split at h
  · exact (Prod.mk.inj h).2.symm
  · simp at h

/-- A copy is put where its path leads to nothing once the folders are made. -/
theorem placeCopy_ok {executable : Bool} (h : t.placeCopy p q executable = (.ok (), t')) :
    ∃ l name mode bytes, t.makeParent q = (.ok (), (t.makeParent q).2) ∧
      (t.makeParent q).2.spot false false q = .ok (.vacant l name) ∧
      endsWithSlash q.text = false ∧
      t' = (t.makeParent q).2.set (l ++ [name]) (.file mode bytes) := by
  unfold placeCopy at h
  split at h
  · simp at h
  next u opens =>
  rw [opens]
  split at h
  · simp at h
  unfold createFile at h
  split at h
  · simp at h
  next s spot =>
  split at h
  · simp at h
  next slash =>
  split at h
  · simp at h
  next l name =>
  exact ⟨l, name, _, _, rfl, spot, by simpa using slash, (Prod.mk.inj h).2.symm⟩

end Tree
end Attic
