/-!
# File trees

A tree is a finite map from locations to files, folders and links. A location
is the list of names on the way down from the root, which is a folder and has
no entry of its own.

Key definitions: `Location`, `Object`, `Tree`, `Tree.get?`, `Tree.set`,
`Tree.erase`, `Tree.WellFormed`, `Tree.Fault`, `Tree.Fault.message`.
Key theorems: `Tree.get?_set_same`, `Tree.get?_set_other`,
`Tree.get?_erase_same`, `Tree.get?_erase_other`.
-/

namespace Attic

/-- The names on the way down to a place. -/
abbrev Location := List String

/-- Bytes are compared one by one. -/
local instance decidableEqBytes : DecidableEq ByteArray := fun a b =>
  decidable_of_iff (a.data = b.data) ByteArray.ext_iff.symm

/-- What a place can hold. -/
inductive Object where
  /-- A file with its permission bits. -/
  | file (mode : Nat) (bytes : ByteArray)
  | folder
  /-- A link to a path, which need not lead anywhere. -/
  | link (target : String)
  deriving DecidableEq

/-- A file tree. -/
structure Tree where
  objects : List (Location × Object)
  deriving DecidableEq

namespace Tree

/-- Only the root. -/
def empty : Tree := ⟨[]⟩

/-- What a place holds. -/
def get? (t : Tree) (l : Location) : Option Object :=
  if l = [] then some .folder else t.objects.lookup l

/-- The entries with one place set. -/
def setIn (l : Location) (o : Object) : List (Location × Object) → List (Location × Object)
  | [] => [(l, o)]
  | (k, p) :: rest => if k = l then (l, o) :: rest else (k, p) :: setIn l o rest

/-- The tree with one place set. -/
def set (t : Tree) (l : Location) (o : Object) : Tree := ⟨setIn l o t.objects⟩

/-- The tree with one place empty. -/
def erase (t : Tree) (l : Location) : Tree := ⟨t.objects.filter fun e => e.1 ≠ l⟩

/-- The tree with a place and everything below it empty. -/
def eraseBelow (t : Tree) (l : Location) : Tree :=
  ⟨t.objects.filter fun e => !l.isPrefixOf e.1⟩

/-- Whether something lies below a place. -/
def hasBelow (t : Tree) (l : Location) : Bool :=
  t.objects.any fun e => l.isPrefixOf e.1 && e.1 ≠ l

/-- Every place has one entry and lies in a folder. -/
structure WellFormed (t : Tree) : Prop where
  nodup : (t.objects.map Prod.fst).Nodup
  nonempty : ∀ e ∈ t.objects, e.1 ≠ []
  in_folder : ∀ e ∈ t.objects, t.get? e.1.dropLast = some .folder

/-- Why an operation on a tree cannot be carried out. -/
inductive Fault where
  | notFound
  | exists
  | notFolder
  | isFolder
  | invalid
  | nameTooLong
  | notEmpty
  | tooManyLinks
  /-- A path with a NUL character in it. -/
  | nulInPath
  /-- A file that should hold text and does not. -/
  | notText
  deriving DecidableEq

def Fault.message : Fault → String
  | .notFound => "No such file or directory (os error 2)"
  | .exists => "File exists (os error 17)"
  | .notFolder => "Not a directory (os error 20)"
  | .isFolder => "Is a directory (os error 21)"
  | .invalid => "Invalid argument (os error 22)"
  | .nameTooLong => "File name too long (os error 36)"
  | .notEmpty => "Directory not empty (os error 39)"
  | .tooManyLinks => "Too many levels of symbolic links (os error 40)"
  | .nulInPath => "file name contained an unexpected NUL byte"
  | .notText => "stream did not contain valid UTF-8"

theorem lookup_setIn_same (l : Location) (o : Object) :
    ∀ es : List (Location × Object), (setIn l o es).lookup l = some o
  | [] => by simp [setIn]
  | (k, p) :: rest => by
    by_cases h : k = l
    · simp [setIn, h]
    · have : (l == k) = false := by simpa using Ne.symm h
      simp [setIn, h, List.lookup_cons, this, lookup_setIn_same l o rest]

theorem lookup_setIn_other {l m : Location} (o : Object) (h : m ≠ l) :
    ∀ es : List (Location × Object), (setIn l o es).lookup m = es.lookup m
  | [] => by
    have : (m == l) = false := by simpa using h
    simp [setIn, List.lookup_cons, this]
  | (k, p) :: rest => by
    by_cases hk : k = l
    · have : (m == l) = false := by simpa using h
      simp [setIn, hk, List.lookup_cons, this]
    · simp [setIn, hk, List.lookup_cons, lookup_setIn_other o h rest]

/-- The place that is set holds what it is set to. -/
theorem get?_set_same {t : Tree} {l : Location} {o : Object} (h : l ≠ []) :
    (t.set l o).get? l = some o := by
  simp [get?, set, h, lookup_setIn_same]

/-- Every other place holds what it held. -/
theorem get?_set_other {t : Tree} {l m : Location} {o : Object} (h : m ≠ l) :
    (t.set l o).get? m = t.get? m := by
  simp [get?, set, lookup_setIn_other o h]

theorem lookup_filter_same (l : Location) :
    ∀ es : List (Location × Object), (es.filter fun e => e.1 ≠ l).lookup l = none
  | [] => rfl
  | (k, p) :: rest => by
    by_cases h : k = l
    · simpa [List.filter_cons, h] using lookup_filter_same l rest
    · have : (l == k) = false := by simpa using Ne.symm h
      simpa [List.filter_cons, h, List.lookup_cons, this] using lookup_filter_same l rest

theorem lookup_filter_other {l m : Location} (h : m ≠ l) :
    ∀ es : List (Location × Object), (es.filter fun e => e.1 ≠ l).lookup m = es.lookup m
  | [] => rfl
  | (k, p) :: rest => by
    by_cases hk : k = l
    · have : (m == l) = false := by simpa using h
      simpa [List.filter_cons, hk, List.lookup_cons, this] using lookup_filter_other h rest
    · simp only [ne_eq, hk, not_false_eq_true, decide_true, List.filter_cons_of_pos,
        List.lookup_cons]
      rw [lookup_filter_other h rest]

/-- A place that is emptied holds nothing. -/
theorem get?_erase_same {t : Tree} {l : Location} (h : l ≠ []) : (t.erase l).get? l = none := by
  unfold get? erase
  rw [if_neg h]
  exact lookup_filter_same l t.objects

/-- Every other place holds what it held. -/
theorem get?_erase_other {t : Tree} {l m : Location} (h : m ≠ l) :
    (t.erase l).get? m = t.get? m := by
  unfold get? erase
  split
  · rfl
  · exact lookup_filter_other h t.objects

end Tree
end Attic
