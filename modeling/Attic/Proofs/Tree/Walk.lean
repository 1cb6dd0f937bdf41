import Attic.Proofs.Path.Steps
import Attic.Proofs.Tree.Leads
import Attic.Tree.Change

/-!
# Ways in any tree

What a path leads to, in trees with links. A way that goes on leads to a folder
first; a way that has to end in a folder ends at no file; and putting a file
where a way ends, at a file or at nothing, does not turn the way elsewhere. A
file that is written can therefore be read back by the same path.

Each lemma is by induction on the steps of a way.

Key definitions: `Tree.Spot.fileAt`, `Tree.Spot.Reads`.
Key theorems: `Tree.Leads.front`, `Tree.Leads.set_file`, `Tree.Leads.reads`,
`Tree.isFolder_of_parent`, `Tree.readFile_updateFile`.
-/

namespace Attic
namespace Tree

section

variable {t : Tree} {into must : Bool} {links : Nat} {here : Location} {path : List String}
variable {s : Spot}

/-! ### The way to the front of a path -/

/-- **A way that goes on leads to a folder first.** -/
theorem Leads.front {ys : List String} (hys : ys ≠ []) (h : Leads t into links here path must s) :
    ∀ {xs : List String}, path = xs ++ ys → ∀ must',
      ∃ l, Leads t true links here xs must' (.found l .folder) := by
  induction h with
  | nil =>
    intro xs e
    exact absurd (List.append_eq_nil_iff.1 e.symm).2 hys
  | here _ ih =>
    rintro (_ | ⟨x, xs⟩) e must'
    · exact ⟨_, .nil⟩
    · obtain ⟨rfl, rfl⟩ := List.cons.inj e
      obtain ⟨l, way⟩ := ih rfl must'
      exact ⟨l, .here way⟩
  | up _ ih =>
    rintro (_ | ⟨x, xs⟩) e must'
    · exact ⟨_, .nil⟩
    · obtain ⟨rfl, rfl⟩ := List.cons.inj e
      obtain ⟨l, way⟩ := ih rfl must'
      exact ⟨l, .up way⟩
  | folder step there _ ih =>
    rintro (_ | ⟨x, xs⟩) e must'
    · exact ⟨_, .nil⟩
    · obtain ⟨rfl, rfl⟩ := List.cons.inj e
      obtain ⟨l, way⟩ := ih rfl must'
      exact ⟨l, .folder step there way⟩
  | vacant | file | link =>
    rintro (_ | ⟨x, xs⟩) e must'
    · exact ⟨_, .nil⟩
    · exact absurd (List.append_eq_nil_iff.1 (List.cons.inj e).2.symm).2 hys
  | follow step there more _ ih =>
    rintro (_ | ⟨x, xs⟩) e must'
    · exact ⟨_, .nil⟩
    · obtain ⟨rfl, rfl⟩ := List.cons.inj e
      obtain ⟨l, way⟩ := ih (List.append_assoc _ _ _).symm _
      exact ⟨l, .follow step there (by simp) way⟩

theorem walk_front {xs ys : List String} (hys : ys ≠ [])
    (h : walk t into links here (xs ++ ys) must = .ok s) (must' : Bool) :
    ∃ l, walk t true links here xs must' = .ok (.found l .folder) := by
  obtain ⟨l, way⟩ := (walk_eq_ok.1 h).front hys rfl must'
  exact ⟨l, walk_eq_ok.2 way⟩

/-! ### Links at the end -/

/-- Where a way leads to something through a link at its end, something is there
also when that link is followed only where it has to be. -/
theorem Leads.plain {l : Location} {o : Object} {must' : Bool}
    (h : Leads t true links here path must (.found l o)) (less : must' = true → must = true) :
    ∃ l o, Leads t false links here path must' (.found l o) := by
  generalize e : Spot.found l o = s at h
  induction h generalizing must' with
  | nil => exact ⟨_, _, .nil⟩
  | here _ ih =>
    obtain ⟨l, o, way⟩ := ih less e
    exact ⟨l, o, .here way⟩
  | up _ ih =>
    obtain ⟨l, o, way⟩ := ih less e
    exact ⟨l, o, .up way⟩
  | folder step there _ ih =>
    obtain ⟨l, o, way⟩ := ih less e
    exact ⟨l, o, .folder step there way⟩
  | vacant => simp at e
  | file step there =>
    obtain rfl : must' = false := by simpa using less
    exact ⟨_, _, .file step there⟩
  | link _ _ still => simp at still
  | @follow _ _ _ target path must _ step there _ _ ih =>
    by_cases last : path = [] ∧ must' = false
    · obtain ⟨rfl, rfl⟩ := last
      exact ⟨_, _, .link step there rfl⟩
    · have less' : (must' || (path = [] && endsWithSlash target)) = true →
          (must || (path = [] && endsWithSlash target)) = true := by
        rw [Bool.or_eq_true, Bool.or_eq_true]
        exact Or.imp_left less
      obtain ⟨l, o, way⟩ := ih less' e
      exact ⟨l, o, .follow step there (by simpa using last) way⟩

theorem walk_plain {l : Location} {o : Object}
    (h : walk t true links here path must = .ok (.found l o)) :
    ∃ l o, walk t false links here path false = .ok (.found l o) := by
  obtain ⟨l, o, way⟩ := (walk_eq_ok.1 h).plain (fun must => absurd must Bool.false_ne_true)
  exact ⟨l, o, walk_eq_ok.2 way⟩

/-! ### Files at the end -/

/-- A place that a file can stand at: one that holds a file or nothing. -/
def Spot.fileAt (k : Location) : Spot → Prop
  | .found l (.file _ _) => l = k
  | .found _ _ => False
  | .vacant l name => l ++ [name] = k

/-- A way ends at a file only where it need not end in a folder. -/
theorem Leads.fileAt {k : Location} (h : Leads t into links here path must s) (hs : s.fileAt k) :
    must = false ∧ k ≠ [] ∧ ∀ o, t.get? k = some o → ∃ mode bytes, o = .file mode bytes := by
  induction h with
  | nil => exact hs.elim
  | here _ ih => exact ih hs
  | up _ ih => exact ih hs
  | folder _ _ _ ih => exact ih hs
  | vacant _ free =>
    obtain rfl := hs
    exact ⟨rfl, by simp, fun o ho => by simp [free] at ho⟩
  | file _ there =>
    obtain rfl := hs
    exact ⟨rfl, by simp, fun o ho => ⟨_, _, Option.some.inj (ho.symm.trans there)⟩⟩
  | link => exact hs.elim
  | follow _ _ _ _ ih =>
    obtain ⟨rest, file⟩ := ih hs
    exact ⟨(Bool.or_eq_false_iff.1 rest).1, file⟩

theorem walk_fileAt {k : Location} (hs : s.fileAt k)
    (h : walk t into links here path must = .ok s) :
    must = false ∧ k ≠ [] ∧ ∀ o, t.get? k = some o → ∃ mode bytes, o = .file mode bytes :=
  (walk_eq_ok.1 h).fileAt hs

/-- **A file put where a way ends is found at its end.** -/
theorem Leads.set_file {k : Location} {mode : Nat} {bytes : ByteArray}
    (h : Leads t into links here path must s) (hs : s.fileAt k) (hk : k ≠ [])
    (free : ∀ o, t.get? k = some o → ∃ mode bytes, o = .file mode bytes) :
    Leads (t.set k (.file mode bytes)) into links here path must
      (.found k (.file mode bytes)) := by
  have other {l : Location} {o : Object} (there : t.get? l = some o)
      (noFile : ∀ mode bytes, o ≠ .file mode bytes) :
      (t.set k (.file mode bytes)).get? l = some o := by
    rw [get?_set_other, there]
    rintro rfl
    obtain ⟨mode, bytes, file⟩ := free _ there
    exact noFile mode bytes file
  induction h with
  | nil => exact hs.elim
  | here _ ih => exact .here (ih hs)
  | up _ ih => exact .up (ih hs)
  | folder step there _ ih => exact .folder step (other there (by simp)) (ih hs)
  | vacant step =>
    obtain rfl := hs
    exact .file step (get?_set_same hk)
  | file step =>
    obtain rfl := hs
    exact .file step (get?_set_same hk)
  | link => exact hs.elim
  | follow step there more _ ih => exact .follow step (other there (by simp)) more (ih hs)

theorem walk_set_file {k : Location} {mode : Nat} {bytes : ByteArray} (hs : s.fileAt k)
    (hk : k ≠ []) (free : ∀ o, t.get? k = some o → ∃ mode bytes, o = .file mode bytes)
    (h : walk t into links here path must = .ok s) :
    walk (t.set k (.file mode bytes)) into links here path must =
      .ok (.found k (.file mode bytes)) :=
  walk_eq_ok.2 ((walk_eq_ok.1 h).set_file hs hk free)

/-! ### Ways in another tree -/

/-- What a way that ends at a spot ends at in another tree. -/
inductive Spot.Reads (t : Tree) : Spot → Spot → Prop
  | found {l : Location} {o : Object} (there : t.get? l = some o) :
    Reads t (.found l o) (.found l o)
  | vacant {l : Location} {name : String} (free : t.get? (l ++ [name]) = none) :
      Reads t (.vacant l name) (.vacant l name)
  | filled {l : Location} {name : String} {o : Object} (there : t.get? (l ++ [name]) = some o)
      (noLink : ∀ target, o ≠ .link target) : Reads t (.vacant l name) (.found (l ++ [name]) o)

/-- **A way ends where it ended, at what is there now**, as long as folders and links
stay. -/
theorem Leads.reads {t' : Tree} {s' : Spot} (h : Leads t into links here path must s)
    (folders : ∀ l, t.get? l = some .folder → t'.get? l = some .folder)
    (same : ∀ l target, t.get? l = some (.link target) → t'.get? l = some (.link target))
    (reads : s.Reads t' s') : Leads t' into links here path must s' := by
  induction h with
  | nil =>
    cases reads
    exact .nil
  | here _ ih => exact .here (ih reads)
  | up _ ih => exact .up (ih reads)
  | folder step there _ ih => exact .folder step (folders _ there) (ih reads)
  | vacant step =>
    cases reads with
    | vacant free => exact .vacant step free
    | @filled _ _ o there noLink =>
      cases o with
      | file mode bytes => exact .file step there
      | folder => exact .folder step there .nil
      | link target => exact absurd rfl (noLink target)
  | file step =>
    cases reads with
    | found there => exact .file step there
  | link step there still =>
    cases reads
    exact .link step (same _ _ there) still
  | follow step there more _ ih => exact .follow step (same _ _ there) more (ih reads)

/-- A way to a file ends at nothing where the file is gone and nothing else on the way. -/
theorem Leads.emptied {t' : Tree} {l : Location} {mode : Nat} {bytes : ByteArray}
    (h : Leads t into links here path must s) (hs : s = .found l (.file mode bytes))
    (folders : ∀ k, t.get? k = some .folder → t'.get? k = some .folder)
    (same : ∀ k target, t.get? k = some (.link target) → t'.get? k = some (.link target))
    (gone : t'.get? l = none) :
    ∃ k name, l = k ++ [name] ∧ Leads t' into links here path must (.vacant k name) := by
  induction h with
  | nil => simp at hs
  | here _ ih =>
    obtain ⟨k, name, place, next⟩ := ih hs
    exact ⟨k, name, place, .here next⟩
  | up _ ih =>
    obtain ⟨k, name, place, next⟩ := ih hs
    exact ⟨k, name, place, .up next⟩
  | folder step there _ ih =>
    obtain ⟨k, name, place, next⟩ := ih hs
    exact ⟨k, name, place, .folder step (folders _ there) next⟩
  | vacant => simp at hs
  | file step =>
    obtain ⟨rfl, -⟩ := Spot.found.inj hs
    exact ⟨_, _, rfl, .vacant step gone⟩
  | link => simp at hs
  | follow step there more _ ih =>
    obtain ⟨k, name, place, next⟩ := ih hs
    exact ⟨k, name, place, .follow step (same _ _ there) more next⟩

theorem walk_reads {t' : Tree} {s' : Spot}
    (folders : ∀ l, t.get? l = some .folder → t'.get? l = some .folder)
    (same : ∀ l target, t.get? l = some (.link target) → t'.get? l = some (.link target))
    (reads : s.Reads t' s') (h : walk t into links here path must = .ok s) :
    walk t' into links here path must = .ok s' :=
  walk_eq_ok.2 ((walk_eq_ok.1 h).reads folders same reads)

end

/-! ### Files by their path -/

variable {t t' : Tree} {p q : Path}

theorem found_eq_ok {s : Except Fault Spot} {o : Object}
    (h : (found s).map Prod.snd = .ok o) : ∃ l, s = .ok (.found l o) := by
  rcases s with f | s
  · simp [found, Except.map] at h
  · cases s with
    | vacant l name => simp [found, Except.map] at h
    | found l o' =>
      simp only [found, Except.map, Except.ok.injEq] at h
      exact ⟨l, by rw [h]⟩

theorem look_eq_ok {o : Object} (h : t.look p = .ok o) :
    ∃ l, t.spot true (endsWithSlash p.text) p = .ok (.found l o) := found_eq_ok h

theorem lookPlain_eq_ok {o : Object} (h : t.lookPlain p = .ok o) :
    ∃ l, t.spot false (endsWithSlash p.text) p = .ok (.found l o) := found_eq_ok h

theorem spot_eq_ok {into must : Bool} {s : Spot} (h : t.spot into must p = .ok s) :
    pathFault? p.text = none ∧ walk t into maxLinks [] (steps p.text) must = .ok s := by
  unfold spot at h
  split at h
  · simp at h
  · next hf => exact ⟨hf, h⟩

theorem spot_of_walk {into must : Bool} {s : Spot} (hf : pathFault? p.text = none)
    (h : walk t into maxLinks [] (steps p.text) must = .ok s) : t.spot into must p = .ok s := by
  rw [spot, hf]
  exact h

theorem readFile_eq_ok {mode : Nat} {bytes : ByteArray} :
    t.readFile p = .ok (mode, bytes) ↔ t.look p = .ok (.file mode bytes) := by
  unfold readFile
  split
  · next m b h => simp [h]
  · next o hn h =>
    simp only [h, reduceCtorEq, Except.ok.injEq, false_iff]
    rintro rfl
    exact hn _ _ rfl
  · next f h => simp [h]

/-- A path without a fault of its own is written. -/
theorem written_of_fault (h : pathFault? p.text = none) : p.isEmpty = false := by
  refine Bool.eq_false_iff.2 fun empty => ?_
  simp only [Path.isEmpty, String.isEmpty_iff] at empty
  simp [empty, pathFault?] at h

/-- A path that leads nowhere as something is missing has no fault of its own. -/
theorem fault_of_missing {into must : Bool} (written : p.isEmpty = false)
    (h : t.spot into must p = .error .notFound) : pathFault? p.text = none := by
  cases fault : pathFault? p.text with
  | none => rfl
  | some f =>
    obtain rfl : f = .notFound := by
      rw [spot, fault] at h
      exact Except.error.inj h
    unfold pathFault? at fault
    split at fault
    · simp at fault
    split at fault
    · next empty => simp [Path.isEmpty, empty] at written
    split at fault <;> simp at fault

theorem isFile_iff : t.isFile p = true ↔ ∃ mode bytes, t.readFile p = .ok (mode, bytes) := by
  simp only [readFile_eq_ok, isFile]
  constructor
  · intro h
    split at h
    · next mode bytes hl => exact ⟨mode, bytes, hl⟩
    · simp at h
  · rintro ⟨mode, bytes, h⟩
    rw [h]

/-- A path to a file names no folder, so that it does not end with a slash. -/
theorem spot_of_readFile {mode : Nat} {bytes : ByteArray}
    (h : t.readFile p = .ok (mode, bytes)) : endsWithSlash p.text = false ∧
      ∃ l, t.spot true false p = .ok (.found l (.file mode bytes)) := by
  obtain ⟨l, hl⟩ := look_eq_ok (readFile_eq_ok.1 h)
  have at' : (Spot.found l (.file mode bytes)).fileAt l := rfl
  have must := (walk_fileAt at' (spot_eq_ok hl).2).1
  rw [must] at hl
  exact ⟨must, l, hl⟩

/-- What a path that leads somewhere lies in is a folder, unless nothing is written
of it. -/
theorem isFolder_of_parent {into must : Bool} {s : Spot} (h : t.spot into must p = .ok s)
    (hq : p.parent? = some q) (hne : q.isEmpty = false) : t.isFolder q = true := by
  obtain ⟨fault, way⟩ := spot_eq_ok h
  obtain ⟨dots, last, dots', steps, -⟩ := Path.steps_parent hq
  rw [steps, List.append_assoc] at way
  have more : dots ++ last :: dots' ≠ [] := by simp
  obtain ⟨k, hk⟩ := walk_front more way (endsWithSlash q.text)
  have spot := spot_of_walk (Path.pathFault?_of_prefix (Path.parent_prefix hq) hne fault) hk
  simp [isFolder, look, spot, found, Except.map]

theorem isFolder_parent {mode : Nat} {bytes : ByteArray} (h : t.readFile p = .ok (mode, bytes))
    (hq : p.parent? = some q) (hne : q.isEmpty = false) : t.isFolder q = true := by
  obtain ⟨-, l, hl⟩ := spot_of_readFile h
  exact isFolder_of_parent hl hq hne

theorem spot_of_isFolder (h : t.isFolder p = true) :
    ∃ l o, t.spot false false p = .ok (.found l o) := by
  unfold isFolder at h
  split at h
  · next there =>
    obtain ⟨l, hl⟩ := look_eq_ok there
    obtain ⟨fault, way⟩ := spot_eq_ok hl
    obtain ⟨k, o, hk⟩ := walk_plain way
    exact ⟨k, o, spot_of_walk fault hk⟩
  · simp at h

theorem makeFolder_of_isFolder (h : t.isFolder p = true) :
    t.makeFolder p = (.error .exists, t) := by
  obtain ⟨l, o, spot⟩ := spot_of_isFolder h
  rw [makeFolder, spot]

/-- A file that is there can be given other bytes. -/
theorem updateFile_of_readFile {mode : Nat} {bytes : ByteArray}
    (h : t.readFile p = .ok (mode, bytes)) (update : ByteArray → ByteArray) :
    ∃ t', t.updateFile p update = (.ok (), t') := by
  obtain ⟨slash, l, hl⟩ := spot_of_readFile h
  refine ⟨t.set l (.file mode (update bytes)), ?_⟩
  rw [updateFile, hl]
  simp [slash]

/-- **A file that was written is read back by its path**: its bytes are made of
those it had, or of none if it was not there. -/
theorem readFile_updateFile {update : ByteArray → ByteArray}
    (h : t.updateFile p update = (.ok (), t')) :
    (∃ mode bytes, t.readFile p = .ok (mode, bytes) ∧
      t'.readFile p = .ok (mode, update bytes)) ∨
    t.has p = false ∧ t'.readFile p = .ok (newMode, update .empty) := by
  unfold updateFile at h
  cases hs : t.spot true false p with
  | error f => simp [hs] at h
  | ok s =>
    simp only [hs] at h
    cases slash : endsWithSlash p.text with
    | true => simp [slash] at h
    | false =>
      obtain ⟨fault, way⟩ := spot_eq_ok hs
      have written {k : Location} {m : Nat} {b : ByteArray} (at' : s.fileAt k) :
          (t.set k (.file m b)).readFile p = .ok (m, b) := by
        obtain ⟨-, hk, free⟩ := walk_fileAt at' way
        have way' : walk (t.set k (.file m b)) true maxLinks [] (steps p.text) false = _ :=
          walk_set_file at' hk free way
        have := spot_of_walk fault way'
        simp [readFile_eq_ok, look, slash, this, found, Except.map]
      simp only [slash, Bool.false_eq_true, if_false] at h
      cases s with
      | vacant l name =>
        simp only [Prod.mk.injEq, true_and] at h
        subst h
        refine .inr ⟨?_, written rfl⟩
        simp [has, look, slash, hs, found, Except.map]
      | found l o =>
        cases o with
        | file mode bytes =>
          simp only [Prod.mk.injEq, true_and] at h
          subst h
          refine .inl ⟨mode, bytes, ?_, written rfl⟩
          simp [readFile_eq_ok, look, slash, hs, found, Except.map]
        | folder => simp at h
        | link target => simp at h

end Tree
end Attic
