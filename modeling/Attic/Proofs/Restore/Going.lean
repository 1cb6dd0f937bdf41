import Attic.Proofs.Ledger.Obliging
import Attic.Proofs.Restore.Endings
import Attic.Proofs.Restore.Planning
import Attic.Proofs.Tree.Places
import Mathlib

/-!
# Items that can be carried out

An item can be carried out if its copy is a file, folders for its script can be
made, and nothing is at its place then. It is restored, and what it does to the
tree is known. Whether it can be carried out after another depends on these two
alone: on their copies, their places, and the folders that they need. Trees may
have links and places any spelling.

Key definitions: `Restore.Item.Goes`, `Restore.Item.ClearOf`.
Key theorems: `Restore.runItem_goes`, `Restore.goes_of_runItem`,
`Restore.Item.Goes.later`, `Restore.Item.Goes.clearOf`.
-/

namespace Attic

namespace Tree

variable {t t' : Tree} {sources : List Location} {p : Path} {l : Location} {mode : Nat}
variable {bytes : ByteArray}

/-- A path to a file leads to it as long as the file stays. -/
theorem Stays.lookPlain (stays : Stays sources [] t t') (h : t.lookPlain p = .ok (.file mode bytes))
    (place : t.placeOf? false p = some l) (same : t'.get? l = some (.file mode bytes)) :
    t'.lookPlain p = .ok (.file mode bytes) ∧ t'.placeOf? false p = some l := by
  obtain ⟨m, spot⟩ := lookPlain_eq_ok h
  have fileAt : (Spot.found m (.file mode bytes)).fileAt m := rfl
  have slash := (walk_fileAt fileAt (spot_eq_ok spot).2).1
  rw [slash] at spot
  obtain rfl : m = l := by
    obtain ⟨s, hs, rfl⟩ := placeOf?_eq_some.1 place
    rw [spot] at hs
    rw [← Except.ok.inj hs]
    rfl
  have spot' := spot_reads stays spot (.found same)
  refine ⟨?_, placeOf?_eq_some.2 ⟨_, spot', rfl⟩⟩
  rw [Tree.lookPlain, slash, spot']
  rfl

/-- A file is removed by its path. -/
theorem removeFile_of_lookPlain (h : t.lookPlain p = .ok (.file mode bytes))
    (place : t.placeOf? false p = some l) : t.removeFile p = (.ok (), t.erase l) := by
  obtain ⟨m, spot⟩ := lookPlain_eq_ok h
  have fileAt : (Spot.found m (.file mode bytes)).fileAt m := rfl
  have slash := (walk_fileAt fileAt (spot_eq_ok spot).2).1
  obtain ⟨s, hs, rfl⟩ := placeOf?_eq_some.1 place
  rw [slash] at spot
  obtain rfl := Except.ok.inj (spot.symm.trans hs)
  rw [removeFile, slash, spot]
  rfl

end Tree

namespace Restore

open Ledger (Entry Obliging)

variable {s : Restorer} {root : Path} {t t' : Tree} {i j : Item} {r : Repository}
variable {es : List Entry} {now : Timestamp} {sources : List Location} {w : Option String}
variable {mode : Nat} {bytes : ByteArray}

/-! ### One item -/

/-- Where the copy of an item is. -/
def Item.source (root : Path) (t : Tree) (i : Item) : Location :=
  (t.placeOf? false (root.join i.entry.archive)).getD []

/-- The tree with the folders for the script of an item. -/
def Item.opened (root : Path) (t : Tree) (i : Item) : Tree :=
  (t.makeParent (root.join i.target)).2

/-- Where the script of an item comes. -/
def Item.place (root : Path) (t : Tree) (i : Item) : Location :=
  ((i.opened root t).placeOf? false (root.join i.target)).getD []

/-- The script that comes there: the copy, with permissions of its own. -/
def Item.script (root : Path) (t : Tree) (i : Item) : Option Object :=
  match t.get? (i.source root t) with
  | some (.file mode bytes) => some (.file (Tree.copyMode i.executable mode) bytes)
  | _ => none

/-- Whether an item can be carried out: its copy is a file, folders for the script
can be made, and then nothing is at its place. -/
structure Item.Goes (root : Path) (t : Tree) (i : Item) : Prop where
  copy : ∃ mode bytes, t.lookPlain (root.join i.entry.archive) = .ok (.file mode bytes)
  opens : t.makeParent (root.join i.target) = (.ok (), i.opened root t)
  vacant : ∃ l name, (i.opened root t).spot false false (root.join i.target) =
    .ok (.vacant l name)
  slash : Tree.endsWithSlash (root.join i.target).text = false

theorem Item.opened_grows (grounded : t.Grounded) (root : Path) (i : Item) :
    (i.opened root t).Grounded ∧ t.Grows (i.opened root t) :=
  grounded.makeParent_grows _

theorem Item.script_eq (i : Item) (copy : t.get? (i.source root t) = some (.file mode bytes)) :
    i.script root t = some (.file (Tree.copyMode i.executable mode) bytes) := by
  unfold Item.script
  rw [copy]

/-- Where the folder is there nothing has to be made for an item. -/
theorem Item.goes_of_vacant {l : Location} {name : String}
    (copy : ∃ mode bytes, t.lookPlain (root.join i.entry.archive) = .ok (.file mode bytes))
    (vacant : t.spot false false (root.join i.target) = .ok (.vacant l name))
    (slash : Tree.endsWithSlash (root.join i.target).text = false) :
    i.Goes root t ∧ i.opened root t = t := by
  have opens := Tree.makeParent_of_spot vacant
  have opened : i.opened root t = t := by rw [Item.opened, opens]
  exact ⟨⟨copy, by rw [opened, opens], ⟨l, name, by rw [opened, vacant]⟩, slash⟩, opened⟩

namespace Item.Goes

variable (goes : i.Goes root t) (grounded : t.Grounded)

include goes grounded

theorem source : t.placeOf? false (root.join i.entry.archive) = some (i.source root t) ∧
    ∃ mode bytes, t.get? (i.source root t) = some (.file mode bytes) ∧
      t.lookPlain (root.join i.entry.archive) = .ok (.file mode bytes) := by
  obtain ⟨mode, bytes, look⟩ := goes.copy
  obtain ⟨-, l, place, there⟩ := Tree.placeOf?_of_lookPlain grounded look
  rw [Item.source, place, Option.getD_some]
  exact ⟨rfl, mode, bytes, there, look⟩

theorem place : ∃ l name, i.place root t = l ++ [name] ∧
    (i.opened root t).spot false false (root.join i.target) = .ok (.vacant l name) ∧
    (i.opened root t).get? l = some .folder ∧ (i.opened root t).get? (i.place root t) = none ∧
    t.get? (i.place root t) = none := by
  obtain ⟨l, name, spot⟩ := goes.vacant
  obtain ⟨grounded', grows⟩ := i.opened_grows grounded root
  obtain ⟨folder, free⟩ := grounded'.spot_holds spot
  have place : i.place root t = l ++ [name] := by
    rw [Item.place, Tree.placeOf?_eq_some.2 ⟨_, spot, rfl⟩]
    rfl
  refine ⟨l, name, place, spot, folder, by rw [place, free], ?_⟩
  by_contra there
  obtain ⟨o, there⟩ := Option.ne_none_iff_exists'.1 there
  have after := (grows _).keeps there
  rw [place, free] at after
  simp at after

theorem script : ∃ mode bytes, i.script root t = some (.file mode bytes) := by
  obtain ⟨-, mode, bytes, copy, -⟩ := goes.source grounded
  exact ⟨Tree.copyMode i.executable mode, bytes, i.script_eq copy⟩

/-- The copy is put in its place. -/
theorem placeCopy : ∃ t',
    t.placeCopy (root.join i.entry.archive) (root.join i.target) i.executable = (.ok (), t') ∧
      t'.Grounded ∧ t.Stays [] [] t' ∧ t'.get? (i.place root t) = i.script root t ∧
      ∀ l, l ≠ i.place root t → t'.get? l = (i.opened root t).get? l := by
  obtain ⟨grounded', grows⟩ := i.opened_grows grounded root
  obtain ⟨source, mode, bytes, copy, look⟩ := goes.source grounded
  obtain ⟨l, name, place, spot, folder, free, -⟩ := goes.place grounded
  have look' := ((Tree.Stays.of_grows grows).lookPlain look source ((grows _).keeps copy)).1
  have read := (Tree.placeOf?_of_lookPlain grounded' look').1
  have written : i.place root t ≠ [] := by simp [place]
  have stays : t.Stays ([] ++ []) ([] ++ []) ((i.opened root t).set (i.place root t)
      (.file (Tree.copyMode i.executable mode) bytes)) :=
    (Tree.Stays.of_grows grows).trans (.set_file written (by simp [free]))
  refine ⟨_, ?_, ?_, stays, ?_, fun l => Tree.get?_set_other⟩
  · rw [Tree.placeCopy, goes.opens]
    simp only [read]
    rw [Tree.createFile, spot, place]
    simp only [goes.slash, Bool.false_eq_true, if_false, Tree.copyMode]
  · refine grounded'.set written ?_ (by simp [free])
    rw [place, List.dropLast_concat, folder]
  · rw [Tree.get?_set_same written, i.script_eq copy]

end Item.Goes

/-- **An item that can be carried out is restored**: its script comes to its place,
its copy goes, and its entry is marked. -/
theorem runItem_goes (k : Obliging s.store) (grounded : r.tree.Grounded) (keeps : k.keeps r es)
    (valid : now.isValid = true) (goes : i.Goes s.root r.tree)
    (away : ¬ k.own (i.source s.root r.tree)) (active : ∃ e ∈ es, e.isActiveOf i.target = true) :
    ∃ r' es', runItem s now false i r = (.restored none, r') ∧
      Ledger.markFirst? i.target now es = some es' ∧ k.keeps r' es' ∧ r'.tree.Grounded ∧
      r.tree.Stays [i.source s.root r.tree] [] r'.tree ∧ ∀ l, ¬ k.own l →
        r'.tree.get? l = if l = i.source s.root r.tree then none
          else if l = i.place s.root r.tree then i.script s.root r.tree
          else (i.opened s.root r.tree).get? l := by
  have grows := (i.opened_grows grounded s.root).2
  obtain ⟨source, mode, bytes, copy, look⟩ := goes.source grounded
  obtain ⟨-, -, -, -, -, -, free⟩ := goes.place grounded
  have differ : i.source s.root r.tree ≠ i.place s.root r.tree := by
    intro same
    rw [same, free] at copy
    simp at copy
  have read := (Tree.placeOf?_of_lookPlain grounded look).1
  -- the copy is put in its place
  obtain ⟨t₂, placed, grounded₂, stays₂, there₂, off₂⟩ := goes.placeCopy grounded
  have own₂ : ∀ l, k.own l → t₂.get? l = r.tree.get? l := by
    intro l own
    obtain ⟨m, b, held⟩ := k.held grounded keeps own
    rw [off₂, (grows l).keeps held, held]
    rintro rfl
    simp [free] at held
  -- the entry is marked
  obtain ⟨es', marked⟩ := Ledger.exists_markFirst? now active
  obtain ⟨r₃, done, keeps₃, grounded₃, stays₃, off₃⟩ :=
    k.mark grounded₂ (k.steady grounded keeps stays₂ own₂) valid marked
  have stays : r.tree.Stays [] [] r₃.tree := stays₂.trans stays₃
  have copy₃ : r₃.tree.get? (i.source s.root r.tree) = some (.file mode bytes) := by
    rw [off₃ _ away, off₂ _ differ, (grows _).keeps copy]
  -- the copy is removed
  obtain ⟨look₃, source₃⟩ := stays.lookPlain look source copy₃
  have removed := Tree.removeFile_of_lookPlain look₃ source₃
  have written : i.source s.root r.tree ≠ [] :=
    Tree.ne_nil_of_get? (t := r.tree) (by simp [copy])
  refine ⟨{ r₃ with tree := r₃.tree.erase (i.source s.root r.tree) }, es', ?_, marked, ?_, ?_, ?_,
    fun l away' => ?_⟩
  · exact runItem_restored (Tree.isFile_iff.2 ⟨mode, bytes, read⟩) placed done removed
  · refine k.steady grounded₃ keeps₃ (.erase copy₃) fun l own => Tree.get?_erase_other ?_
    rintro rfl
    exact away own
  · exact grounded₃.erase (by simp [copy₃])
  · exact stays.trans (.erase copy₃)
  · by_cases hl : l = i.source s.root r.tree
    · rw [if_pos hl, hl]
      exact Tree.get?_erase_same written
    · rw [if_neg hl]
      refine (Tree.get?_erase_other hl).trans ((off₃ l away').trans ?_)
      by_cases hl' : l = i.place s.root r.tree
      · rw [if_pos hl', hl', there₂]
      · rw [if_neg hl', off₂ l hl']

/-- An item that is restored could be carried out, unless its copy is a link. -/
theorem goes_of_runItem (grounded : r.tree.Grounded)
    (noLink : ∀ l, r.tree.placeOf? false (s.root.join i.entry.archive) = some l →
      ∀ target, r.tree.get? l ≠ some (.link target))
    (h : (runItem s now false i r).1 = .restored w) : i.Goes s.root r.tree := by
  have ends := runItem_ends s now false i r
  rw [h] at ends
  generalize (runItem s now false i r).2 = r' at ends
  cases ends with
  | restored file placed =>
    obtain ⟨l, name, -, -, opens, spot, slash, -⟩ := Tree.placeCopy_ok placed
    obtain ⟨mode, bytes, read⟩ := Tree.isFile_iff.1 file
    obtain ⟨m, place, copy⟩ := Tree.placeOf?_of_readFile read
    exact ⟨⟨mode, bytes, (copy grounded (noLink m place)).2⟩, opens, ⟨l, name, spot⟩, slash⟩

/-! ### Items on a later tree -/

section

variable (stays : t.Stays sources [] t') (grounded : t.Grounded) (grounded' : t'.Grounded)
variable (moved : ∀ l ∈ sources, ∀ target, t.get? l ≠ some (.link target))
variable (goes : i.Goes root t)

include stays grounded grounded' goes

/-- An item can be carried out later if its copy is still there, what it needs as
folders is free, and so is its place. -/
theorem Item.Goes.later (free : Tree.Free t (i.opened root t) t')
    (vacant : t'.get? (i.place root t) = none)
    (copy : t'.get? (i.source root t) = t.get? (i.source root t)) : i.Goes root t' := by
  obtain ⟨t₁', opens', joined⟩ :=
    Tree.makeParent_joined stays grounded grounded' goes.opens free
  have opened : i.opened root t' = t₁' := by rw [Item.opened, opens']
  obtain ⟨source, mode, bytes, there, look⟩ := goes.source grounded
  obtain ⟨l, name, place, spot, -, free₁, -⟩ := goes.place grounded
  have later := joined.stays stays (i.opened_grows grounded root).2
  have vacant' : t₁'.get? (l ++ [name]) = none := by
    rw [← place, joined, if_neg (by simp [free₁]), vacant]
  refine ⟨⟨mode, bytes, (stays.lookPlain look source (copy.trans there)).1⟩, by rw [opened, opens'],
    ⟨l, name, ?_⟩, goes.slash⟩
  rw [opened]
  exact Tree.spot_reads later spot (.vacant vacant')

include moved

/-- What an item comes to later it came to before. -/
theorem Item.Goes.same (goes' : i.Goes root t') : i.source root t' = i.source root t ∧
    i.place root t' = i.place root t ∧ Tree.Free t (i.opened root t) t' ∧
    Tree.Joined t (i.opened root t) t' (i.opened root t') := by
  have free := Tree.free_of_makeParent stays grounded grounded' goes.opens goes'.opens
  obtain ⟨t₁', opens', joined⟩ :=
    Tree.makeParent_joined stays grounded grounded' goes.opens free
  obtain rfl : i.opened root t' = t₁' := (Prod.mk.inj (goes'.opens.symm.trans opens')).2
  have grows := (i.opened_grows grounded root).2
  have moved₁ : ∀ l ∈ sources, ∀ target, (i.opened root t).get? l ≠ some (.link target) :=
    fun l hl target link => moved l hl target ((Tree.Stays.of_grows grows).linked link)
  obtain ⟨l, name, place, spot, -⟩ := goes.place grounded
  obtain ⟨l', name', place', spot', -⟩ := goes'.place grounded'
  refine ⟨?_, ?_, free, joined⟩
  · simpa using stays.placeOf? moved (goes.source grounded).1 (goes'.source grounded').1
  · rw [place, place']
    simpa [Tree.Spot.place] using (joined.stays stays grows).placeOf? moved₁
      (Tree.placeOf?_eq_some.2 ⟨_, spot, rfl⟩) (Tree.placeOf?_eq_some.2 ⟨_, spot', rfl⟩)

end

/-- Whether an item has its own place and copy beside another, and needs no folder
where the other puts its script, nor the other where this one does. -/
structure Item.ClearOf (root : Path) (t : Tree) (i j : Item) : Prop where
  source : i.source root t ≠ j.source root t
  place : i.place root t ≠ j.place root t
  opened : (i.opened root t).get? (j.place root t) ≠ some .folder
  opens : (j.opened root t).get? (i.place root t) ≠ some .folder

/-- **An item that can be carried out after another is clear of it.** -/
theorem Item.Goes.clearOf {own : Location → Prop} (stays : t.Stays [j.source root t] [] t')
    (grounded : t.Grounded) (grounded' : t'.Grounded) (first : j.Goes root t)
    (after : ∀ l, ¬ own l → t'.get? l = if l = j.source root t then none
      else if l = j.place root t then j.script root t else (j.opened root t).get? l)
    (owned : ∀ l, own l → t.get? l ≠ none) (away : ¬ own (j.source root t)) (goes : i.Goes root t)
    (goes' : i.Goes root t') : i.ClearOf root t j := by
  obtain ⟨-, m, b, copy, -⟩ := first.source grounded
  have moved : ∀ l ∈ [j.source root t], ∀ target, t.get? l ≠ some (.link target) := by
    simp [copy]
  obtain ⟨source, place, free, -⟩ := goes.same stays grounded grounded' moved goes'
  obtain ⟨mode, bytes, script⟩ := first.script grounded
  obtain ⟨-, -, -, -, -, -, vacantJ⟩ := first.place grounded
  obtain ⟨-, -, -, -, -, -, vacantI⟩ := goes.place grounded
  obtain ⟨-, -, -, -, -, -, vacantI'⟩ := goes'.place grounded'
  obtain ⟨-, m', b', copy', -⟩ := goes'.source grounded'
  rw [place] at vacantI'
  rw [source] at copy'
  -- where nothing was the tree is known
  have new {l : Location} (vacant : t.get? l = none) : t'.get? l =
      if l = j.place root t then some (.file mode bytes) else (j.opened root t).get? l := by
    rw [← script, after l fun own => owned l own vacant, if_neg]
    rintro rfl
    simp [copy] at vacant
  refine ⟨fun same => ?_, fun same => ?_, fun folder => ?_, fun folder => ?_⟩
  · rw [same, after _ away] at copy'
    simp at copy'
  · rw [new vacantI, if_pos same] at vacantI'
    simp at vacantI'
  · have there := free _ vacantJ folder
    rw [new vacantJ, if_pos rfl] at there
    simp at there
  · rw [new vacantI] at vacantI'
    split at vacantI'
    · simp at vacantI'
    · simp [folder] at vacantI'

end Restore
end Attic
