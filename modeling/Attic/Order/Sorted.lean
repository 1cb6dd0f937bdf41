/-!
# Sorted lists without repetition

Sets and tables are sorted lists here. `sortDistinct` sorts a list by a
relation and keeps, of elements that neither sort before nor after each other,
the first. `Table` is a list of entries sorted by a text key.

Key definitions: `dropRepeats`, `sortDistinct`, `Table`, `Table.put`,
`Table.get?`, `Table.add`.
-/

namespace Attic
namespace Order

/-- Sorts a list by `before`; elements that sort alike keep their order. -/
def sortBy {α : Type} (before : α → α → Bool) (l : List α) : List α :=
  l.mergeSort fun a b => !before b a

/-- Keeps of neighbours that sort alike the first. -/
def dropRepeats {α : Type} (before : α → α → Bool) : List α → List α
  | [] => []
  | a :: l => a :: (dropRepeats before l).dropWhile fun b => !before a b

/-- The elements in order, of those that sort alike the first only. -/
def sortDistinct {α : Type} (before : α → α → Bool) (l : List α) : List α :=
  dropRepeats before (sortBy before l)

/-- Entries sorted by key, with one entry a key. -/
abbrev Table (α : Type) := List (String × α)

namespace Table

variable {α : Type}

/-- The entry of a key, set or replaced. -/
def put (key : String) (value : α) : Table α → Table α
  | [] => [(key, value)]
  | (k, v) :: t =>
    if key < k then (key, value) :: (k, v) :: t
    else if key = k then (key, value) :: t
    else (k, v) :: put key value t

def get? (key : String) : Table α → Option α
  | [] => none
  | (k, v) :: t => if key = k then some v else get? key t

/-- Adds `n` to the count of a key. -/
def add (key : String) (n : Nat) (t : Table Nat) : Table Nat :=
  t.put key ((t.get? key).getD 0 + n)

end Table
end Order
end Attic
