import Attic.Proofs.Tree.Grounded
import Mathlib

/-!
# Trees without links

In a tree without links a way is one stroll. Such a tree stays one when folders
are made, when a file is put where none is, and when one is taken away.

Key definitions: `Tree.Plain`, `Tree.way`.
Key theorems: `Tree.spot_plain`, `Tree.makeParent_grows`,
`Tree.createFile_plain`, `Tree.spot_kept`.
-/

namespace Attic
namespace Tree

/-- A tree without links in which every object lies in a folder. -/
structure Plain (t : Tree) : Prop where
  linkless : ∀ l target, t.get? l ≠ some (.link target)
  in_folder : t.Grounded

variable {t t' : Tree} {l k : Location} {o : Object} {p q : Path}

/-- A tree is plain if each of its objects is no link and lies in a folder. -/
theorem plain_of_objects (linkless : ∀ e ∈ t.objects, ∀ target, e.2 ≠ .link target)
    (in_folder : ∀ e ∈ t.objects, t.get? e.1.dropLast = some .folder) : t.Plain := by
  refine ⟨fun l target h => ?_, fun l hne there => ?_⟩
  · have hne : l ≠ [] := ne_nil_of_get? (t := t) (by simp [h])
    exact linkless _ (mem_objects hne h) target rfl
  · obtain ⟨o, h⟩ := Option.ne_none_iff_exists'.1 there
    exact in_folder _ (mem_objects hne h)

namespace Plain

/-- A tree stays plain when an object other than a link is put into a folder at a
place that does not hold a folder. -/
theorem set (plain : t.Plain) (ho : ∀ target, o ≠ .link target) (hl : l ≠ [])
    (folder : t.get? l.dropLast = some .folder) (free : t.get? l ≠ some .folder) :
    (t.set l o).Plain := by
  refine ⟨fun k target => ?_, plain.in_folder.set hl folder free⟩
  by_cases e : k = l
  · rw [e, get?_set_same hl]
    exact fun h => ho target (Option.some.inj h)
  · rw [get?_set_other e]
    exact plain.linkless k target

/-- A tree stays plain when a file is taken away. -/
theorem erase (plain : t.Plain) {mode : Nat} {bytes : ByteArray}
    (file : t.get? l = some (.file mode bytes)) : (t.erase l).Plain := by
  have free : t.get? l ≠ some .folder := by simp [file]
  refine ⟨fun k target => ?_, plain.in_folder.erase free⟩
  by_cases e : k = l
  · rw [e, get?_erase_same (ne_nil_of_get? free)]
    simp
  · rw [get?_erase_other e]
    exact plain.linkless k target

/-- No link comes to a tree that grows. -/
theorem grow (plain : t.Plain) (grounded : t'.Grounded) (grows : t.Grows t') : t'.Plain := by
  refine ⟨fun l target h => ?_, grounded⟩
  rcases grows l with same | ⟨-, folder⟩
  · exact plain.linkless l target (same ▸ h)
  · rw [folder] at h
    simp at h

theorem congr (plain : t.Plain) (same : ∀ l, t'.get? l = t.get? l) : t'.Plain :=
  ⟨fun l target => by rw [same]; exact plain.linkless l target, plain.in_folder.congr same⟩

end Plain

/-! ### Ways -/

/-- The way from a place in a tree without links. -/
def way (t : Tree) (must : Bool) (here : Location) (path : List String) : Except Fault Spot :=
  stroll t true must (fun _ _ _ => .error .tooManyLinks) here path

theorem stroll_plain_eq (plain : t.Plain) {into must : Bool}
    {onLink : Location → List String → Bool → Except Fault Spot} : ∀ (path : List String)
    (here : Location), stroll t into must onLink here path = way t must here path
  | [], here => rfl
  | name :: rest, here => by
    have ih : ∀ here, stroll t into must onLink here rest = way t must here rest :=
      stroll_plain_eq plain rest
    unfold way at ih ⊢
    rw [stroll, stroll]
    cases hg : t.get? (here ++ [name]) with
    | none => simp [ih]
    | some o =>
      cases o with
      | file mode bytes => simp [ih]
      | folder => simp [ih]
      | link target => exact absurd hg (plain.linkless _ _)

theorem walk_plain_eq (plain : t.Plain) {into : Bool} {links : Nat} {here : Location}
    {path : List String} {must : Bool} :
    walk t into links here path must = way t must here path := by
  cases links <;> exact stroll_plain_eq plain path here

/-- Where a path leads in a plain tree. -/
theorem spot_plain (plain : t.Plain) (fault : pathFault? p.text = none) (into must : Bool) :
    t.spot into must p = way t must [] (steps p.text) := by
  rw [spot, fault, walk_plain_eq plain]

/-! ### Making folders -/

theorem makeParent_grows (plain : t.Plain) (p : Path) :
    (t.makeParent p).2.Plain ∧ t.Grows (t.makeParent p).2 := by
  obtain ⟨grounded, grows⟩ := plain.in_folder.makeParent_grows p
  exact ⟨plain.grow grounded grows, grows⟩

/-! ### Files -/

/-- A file is made at a vacant place or not at all. -/
theorem createFile_plain (plain : t.Plain) (p : Path) (mode : Nat) (bytes : ByteArray) :
    (∃ f, t.createFile p mode bytes = (.error f, t)) ∨
    ∃ l name, t.spot false false p = .ok (.vacant l name) ∧ endsWithSlash p.text = false ∧
      t.createFile p mode bytes = (.ok (), t.set (l ++ [name]) (.file mode bytes)) ∧
      (t.set (l ++ [name]) (.file mode bytes)).Plain ∧ t.get? (l ++ [name]) = none := by
  unfold createFile
  cases h : t.spot false false p with
  | error f => exact .inl ⟨f, rfl⟩
  | ok s =>
    cases slash : endsWithSlash p.text with
    | true => exact .inl ⟨_, rfl⟩
    | false =>
      cases s with
      | found l o => exact .inl ⟨_, rfl⟩
      | vacant l name =>
        obtain ⟨folder, none⟩ := plain.in_folder.spot_holds h
        refine .inr ⟨l, name, rfl, rfl, rfl, ?_, none⟩
        refine plain.set (by simp) (by simp) ?_ (by simp [none])
        rwa [List.dropLast_concat]

/-! ### Files that stay -/

/-- **A path leads to an object as long as the folders and the object stay.** -/
theorem spot_kept (plain : t.Plain) {must : Bool} {l : Location}
    (kept : ∀ k, t.get? k = some .folder → t'.get? k = some .folder)
    (there : t.spot true must p = .ok (.found l o)) (same : t'.get? l = some o) :
    t'.spot true must p = .ok (.found l o) := by
  obtain ⟨fault, way⟩ := spot_eq_ok there
  refine spot_of_walk fault (walk_reads kept (fun l target link => ?_) (.found same) way)
  exact absurd link (plain.linkless l target)

/-- A path that led to a file leads to its place when the file is gone and the folders
are still there. -/
theorem spot_emptied (plain : t.Plain) {must : Bool} {mode : Nat} {bytes : ByteArray}
    (kept : ∀ k, t.get? k = some .folder → t'.get? k = some .folder)
    (there : t.spot true must p = .ok (.found l (.file mode bytes))) (gone : t'.get? l = none) :
    ∃ k name, l = k ++ [name] ∧ t'.spot true must p = .ok (.vacant k name) := by
  obtain ⟨fault, way⟩ := spot_eq_ok there
  obtain ⟨k, name, place, way'⟩ := (walk_eq_ok.1 way).emptied rfl kept
    (fun l target link => absurd link (plain.linkless l target)) gone
  exact ⟨k, name, place, spot_of_walk fault (walk_eq_ok.2 way')⟩

end Tree
end Attic
