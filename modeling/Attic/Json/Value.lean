import Attic.Order.Sorted

/-!
# JSON values

A number is a natural number, a negative integer or a double, as its text and
its size say. The members of an object are listed in the order in which they
are written.

Key definitions: `Json.Number`, `Json.Value`, `Json.Value.get?`,
`Json.Value.sorted`.
-/

namespace Attic
namespace Json

inductive Number where
  | nat (n : Nat)
  /-- The integer `-n`. -/
  | neg (n : Nat)
  | float (x : Float)

inductive Value where
  | null
  | bool (b : Bool)
  | number (n : Number)
  | text (s : String)
  | list (items : List Value)
  | object (members : List (String × Value))

instance : Inhabited Value := ⟨.null⟩

namespace Value

/-- The member of a name, if the value is an object that has it. -/
def get? (name : String) : Value → Option Value
  | object members => members.lookup name
  | _ => none

def nat (n : Nat) : Value := .number (.nat n)

mutual

/-- The value with the members of every object in it sorted by name. -/
def sorted : Value → Value
  | .list items => .list (sortedItems items)
  | .object members => .object (sortedMembers members)
  | v => v

def sortedItems : List Value → List Value
  | [] => []
  | v :: vs => v.sorted :: sortedItems vs

def sortedMembers : List (String × Value) → List (String × Value)
  | [] => []
  | (k, v) :: ms => Order.Table.put k v.sorted (sortedMembers ms)

end

end Value
end Json
end Attic
