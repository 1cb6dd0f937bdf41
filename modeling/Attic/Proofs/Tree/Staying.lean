import Attic.Proofs.Tree.Grounded
import Mathlib

/-!
# Changes that turn no way

While scripts are moved, folders and links stay, except that what is moved may
take the place of a link, and nothing but what is moved goes away. A path that
leads somewhere before and after leads to one place then. Where a link at the
end is followed it may also lead to a place that something was moved to.

Key definitions: `Tree.Stays`, `Tree.placeOf?`.
Key theorems: `Tree.Stays.trans`, `Tree.Leads.stays`, `Tree.Leads.follows`.
-/

namespace Attic
namespace Tree

/-- What stays when objects at `from` go away and objects come to `to`, none of
them a link. -/
structure Stays (sources targets : List Location) (t t' : Tree) : Prop where
  folder : ∀ {l}, t.get? l = some .folder → t'.get? l = some .folder
  /-- No link comes. -/
  linked : ∀ {l target}, t'.get? l = some (.link target) → t.get? l = some (.link target)
  link : ∀ {l target}, l ∉ targets → t.get? l = some (.link target) →
    t'.get? l = some (.link target)
  /-- No file or link goes away or becomes a folder. -/
  solid : ∀ {l o}, l ∉ sources → t.get? l = some o → o ≠ .folder →
    ∃ o', t'.get? l = some o' ∧ o' ≠ .folder

variable {t t' u : Tree} {sources sources' targets targets' : List Location} {l m : Location}
variable {o : Object} {p : Path} {mode : Nat} {bytes : ByteArray} {s s' : Spot}
variable {into must : Bool} {links : Nat} {here : Location} {path : List String} {name : String}

namespace Stays

theorem trans (h : Stays sources targets t t') (h' : Stays sources' targets' t' u) :
    Stays (sources ++ sources') (targets ++ targets') t u where
  folder folder := h'.folder (h.folder folder)
  linked link := h.linked (h'.linked link)
  link free link := by
    rw [List.mem_append, not_or] at free
    exact h'.link free.2 (h.link free.1 link)
  solid kept there noFolder := by
    rw [List.mem_append, not_or] at kept
    obtain ⟨o', there', noFolder'⟩ := h.solid kept.1 there noFolder
    exact h'.solid kept.2 there' noFolder'

/-- Where a tree only grows everything stays. -/
theorem of_grows (h : t.Grows t') : Stays [] [] t t' where
  folder folder := (h _).keeps folder
  linked {l target} link := by
    rcases h l with same | ⟨-, folder⟩
    · rw [← same, link]
    · simp [folder] at link
  link _ link := (h _).keeps link
  solid _ there noFolder := ⟨_, (h _).keeps there, noFolder⟩

theorem refl (t : Tree) : Stays [] [] t t := of_grows (.refl t)

/-- A file is given other bytes, or comes where nothing was. -/
theorem set_file (hl : l ≠ [])
    (free : ∀ o, t.get? l = some o → ∃ mode bytes, o = .file mode bytes) :
    Stays [] [] t (t.set l (.file mode bytes)) where
  folder {k} folder := by
    have other : k ≠ l := by
      rintro rfl
      obtain ⟨_, _, e⟩ := free _ folder
      simp at e
    rw [get?_set_other other, folder]
  linked {k target} link := by
    have other : k ≠ l := by
      rintro rfl
      simp [get?_set_same hl] at link
    rwa [get?_set_other other] at link
  link {k target} _ link := by
    have other : k ≠ l := by
      rintro rfl
      obtain ⟨_, _, e⟩ := free _ link
      simp at e
    rw [get?_set_other other, link]
  solid {k o} _ there noFolder := by
    by_cases other : k = l
    · exact ⟨.file mode bytes, by rw [other, get?_set_same hl], by simp⟩
    · exact ⟨o, by rw [get?_set_other other, there], noFolder⟩

/-- A file is taken from one place to another. -/
theorem move (file : t.get? l = some (.file mode bytes)) (free : t.get? m ≠ some .folder)
    (after : ∀ k, t'.get? k =
      if k = m then some (.file mode bytes) else if k = l then none else t.get? k) :
    Stays [l] [m] t t' where
  folder {k} folder := by
    have hm : k ≠ m := by
      rintro rfl
      exact free folder
    have hl : k ≠ l := by
      rintro rfl
      simp [file] at folder
    rw [after, if_neg hm, if_neg hl, folder]
  linked {k target} link := by
    rw [after] at link
    split at link
    · simp at link
    split at link
    · simp at link
    · exact link
  link {k target} other link := by
    have hl : k ≠ l := by
      rintro rfl
      simp [file] at link
    rw [after, if_neg (by simpa using other), if_neg hl, link]
  solid {k o} other there noFolder := by
    rw [after]
    split
    · exact ⟨_, rfl, by simp⟩
    · rw [if_neg (by simpa using other)]
      exact ⟨o, there, noFolder⟩

/-- A file is taken away. -/
theorem erase (file : t.get? l = some (.file mode bytes)) : Stays [l] [] t (t.erase l) := by
  have hl : l ≠ [] := ne_nil_of_get? (t := t) (by simp [file])
  have other {k : Location} {o : Object} (there : t.get? k = some o)
      (unlike : o ≠ .file mode bytes) : (t.erase l).get? k = some o := by
    rw [get?_erase_other, there]
    rintro rfl
    exact unlike (Option.some.inj (there.symm.trans file))
  refine ⟨fun folder => other folder (by simp), fun {k target} link => ?_,
    fun _ link => other link (by simp), fun {k o} kept there noFolder => ⟨o, ?_, noFolder⟩⟩
  · rwa [get?_erase_other] at link
    rintro rfl
    simp [get?_erase_same hl] at link
  · rw [get?_erase_other (by simpa using kept), there]

end Stays

/-! ### Ways before and after -/

/-- A way ends under any name, unless it follows a link. -/
theorem walk_last (step : IsStep name)
    (noLink : into = true → ∀ target, t.get? (here ++ [name]) ≠ some (.link target))
    (h : walk t into links here [name] false = .ok s) : s.place.1 = here ++ [name] := by
  rw [walk_step step] at h
  split at h
  · rw [← Except.ok.inj h]
    rfl
  · rw [walk_nil] at h
    rw [← Except.ok.inj h]
    rfl
  · rw [← Except.ok.inj h]
    rfl
  · next target there =>
    cases into with
    | true => exact absurd there (noLink rfl target)
    | false =>
      rw [← Except.ok.inj h]
      rfl

/-- A way ends where something has taken the place of a link. -/
theorem Stays.replaced {target : String} (stays : Stays sources targets t t')
    (kept : here ++ [name] ∉ sources) (there : t.get? (here ++ [name]) = some (.link target))
    (changed : t'.get? (here ++ [name]) ≠ some (.link target)) (step : IsStep name)
    (h : walk t' into links here (name :: path) must = .ok s) :
    path = [] ∧ must = false ∧ s.place.1 = here ++ [name] ∧ here ++ [name] ∈ targets := by
  have inside : here ++ [name] ∈ targets := by
    by_contra outside
    exact changed (stays.link outside there)
  obtain ⟨o, there', noFolder⟩ := stays.solid kept there (by simp)
  rw [walk_step step, there'] at h
  cases o with
  | folder => exact absurd rfl noFolder
  | link target' =>
    rw [stays.linked there'] at there
    obtain rfl := Object.link.inj (Option.some.inj there)
    exact absurd there' changed
  | file mode bytes =>
    simp only at h
    split at h
    · next last =>
      obtain ⟨rfl, rfl⟩ : path = [] ∧ must = false := by simpa using last
      rw [← Except.ok.inj h]
      exact ⟨rfl, rfl, rfl, inside⟩
    · simp at h

/-- **A path that leads somewhere before and after leads to one place**, unless a
link at its end is followed and something was moved to where it leads after. -/
theorem Leads.stays (stays : Stays sources targets t t')
    (moved : ∀ l ∈ sources, ∀ target, t.get? l ≠ some (.link target))
    (h : Leads t into links here path must s) : walk t' into links here path must = .ok s' →
      s'.place.1 = s.place.1 ∨ into = true ∧ s'.place.1 ∈ targets := by
  induction h with
  | nil =>
    intro h'
    rw [walk_nil] at h'
    rw [← Except.ok.inj h']
    exact .inl rfl
  | here _ ih =>
    intro h'
    rw [walk_here] at h'
    exact ih h'
  | up _ ih =>
    intro h'
    rw [walk_up] at h'
    exact ih h'
  | folder step there _ ih =>
    intro h'
    rw [walk_step step, stays.folder there] at h'
    exact ih h'
  | vacant step there | file step there =>
    -- a way that ends here ends here also afterwards, as no link has come
    intro h'
    refine .inl (walk_last step (fun _ target link => ?_) h')
    simp [stays.linked link] at there
  | link step there still =>
    intro h'
    exact .inl (walk_last step (fun follows => by simp [still] at follows) h')
  | @follow links here name target path must s step there more _ ih =>
    intro h'
    by_cases still : t'.get? (here ++ [name]) = some (.link target)
    · rw [walk_step step, still] at h'
      simp only [more] at h'
      exact ih h'
    obtain ⟨rfl, rfl, place, inside⟩ := stays.replaced
      (fun source => moved _ source target there) there still step h'
    exact .inr ⟨by simpa using more, place ▸ inside⟩

/-- What a path leads to that is no link is also found when links are followed. -/
theorem Leads.follows (noLink : ∀ l target, s ≠ .found l (.link target))
    (h : Leads t false links here path must s) : Leads t true links here path must s := by
  induction h with
  | nil => exact .nil
  | here _ ih => exact .here (ih noLink)
  | up _ ih => exact .up (ih noLink)
  | folder step there _ ih => exact .folder step there (ih noLink)
  | vacant step free => exact .vacant step free
  | file step there => exact .file step there
  | link => exact absurd rfl (noLink _ _)
  | follow step there _ _ ih => exact .follow step there (by simp) (ih noLink)

theorem walk_into (ho : ∀ target, o ≠ .link target)
    (h : walk t false links here path must = .ok (.found l o)) :
    walk t true links here path must = .ok (.found l o) :=
  walk_of_leads ((walk_eq_ok.1 h).follows fun _ target e => ho target (Spot.found.inj e).2)

/-! ### Places of paths -/

/-- The place that a path leads to, whether there is something or not. -/
def placeOf? (t : Tree) (into : Bool) (p : Path) : Option Location :=
  match t.spot into false p with
  | .ok s => some s.place.1
  | .error _ => none

theorem placeOf?_eq_some : t.placeOf? into p = some l ↔
    ∃ s, t.spot into false p = .ok s ∧ s.place.1 = l := by
  unfold placeOf?
  split
  · next s h => simp [h]
  · next h => simp [h]

/-- A path has one place before and after. -/
theorem Stays.placeOf? (stays : Stays sources targets t t')
    (moved : ∀ l ∈ sources, ∀ target, t.get? l ≠ some (.link target))
    (h : t.placeOf? into p = some l) (h' : t'.placeOf? into p = some m) :
    m = l ∨ into = true ∧ m ∈ targets := by
  obtain ⟨s, hs, rfl⟩ := placeOf?_eq_some.1 h
  obtain ⟨s', hs', rfl⟩ := placeOf?_eq_some.1 h'
  exact (walk_eq_ok.1 (spot_eq_ok hs).2).stays stays moved (spot_eq_ok hs').2

/-- A path that leads to a file itself, and what is read there. -/
theorem placeOf?_of_lookPlain {p : Path} (grounded : t.Grounded)
    (h : t.lookPlain p = .ok (.file mode bytes)) : t.readFile p = .ok (mode, bytes) ∧
      ∃ l, t.placeOf? false p = some l ∧ t.get? l = some (.file mode bytes) := by
  obtain ⟨l, spot⟩ := lookPlain_eq_ok h
  obtain ⟨fault, way⟩ := spot_eq_ok spot
  have fileAt : (Spot.found l (.file mode bytes)).fileAt l := rfl
  have slash := (walk_fileAt fileAt way).1
  have stands : t.get? l = some (.file mode bytes) := grounded.spot_holds spot
  rw [slash] at spot way
  refine ⟨?_, l, placeOf?_eq_some.2 ⟨_, spot, rfl⟩, stands⟩
  rw [readFile_eq_ok, look, slash,
    spot_of_walk fault (walk_into (by simp) way)]
  rfl

/-- A path at which a file is read has a place, and the file is there unless a
link is. -/
theorem placeOf?_of_readFile {p : Path} (h : t.readFile p = .ok (mode, bytes)) :
    ∃ l, t.placeOf? false p = some l ∧
      (t.Grounded → (∀ target, t.get? l ≠ some (.link target)) →
        t.get? l = some (.file mode bytes) ∧ t.lookPlain p = .ok (.file mode bytes)) := by
  obtain ⟨slash, l, spot⟩ := spot_of_readFile h
  obtain ⟨fault, way⟩ := spot_eq_ok spot
  obtain ⟨m, o, plain⟩ := walk_plain way
  have spot' := spot_of_walk fault plain
  refine ⟨m, placeOf?_eq_some.2 ⟨_, spot', rfl⟩, fun grounded noLink => ?_⟩
  have stands : t.get? m = some o := grounded.spot_holds spot'
  have into := walk_into (fun target e => noLink target (e ▸ stands)) plain
  obtain ⟨rfl, rfl⟩ := Spot.found.inj (Except.ok.inj (into.symm.trans way))
  refine ⟨stands, ?_⟩
  rw [lookPlain, slash, spot']
  rfl

end Tree
end Attic
