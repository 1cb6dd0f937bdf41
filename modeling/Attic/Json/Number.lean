import Attic.Json.Value

/-!
# Reading numbers

A number is lexed into its sign, whole digits, fraction digits and exponent.
Whole numbers in the range of 64-bit words stay exact. Any other number is a
double, made from the digits that fit into 64 bits and one power of ten; it
has no value when it is too large for a double.

Key definitions: `Json.Lexeme`, `Json.Lexeme.value?`, `Json.Lexed`,
`Json.lexNumber`.
-/

namespace Attic
namespace Json

/-- A number's parts as they are written. -/
structure Lexeme where
  negative : Bool
  whole : List Char
  fraction : List Char
  /-- Whether a point is written. -/
  pointed : Bool
  /-- The exponent's sign (`true` for a minus) and digits. -/
  exponent : Option (Bool × List Char)

def maxWord : Nat := 18446744073709551615

/-- Takes digits into `n` as long as it stays a 64-bit word; the digits left
over come back. -/
def takeDigits : Nat → List Char → Nat × List Char
  | n, [] => (n, [])
  | n, d :: ds =>
    let m := n * 10 + (d.toNat - 48)
    if maxWord < m then (n, d :: ds) else takeDigits m ds

/-- The double `x · 10^e`, scaled down in steps where one power does not do.
There is none where it leaves the range of doubles. -/
def scale? : Nat → Float → Int → Option Float
  | 0, x, _ => some x
  | fuel + 1, x, e =>
    if e.natAbs ≤ 308 then
      let power := Float.ofScientific 1 false e.natAbs
      if 0 ≤ e then (if (x * power).isInf then none else some (x * power)) else some (x / power)
    else if x == 0 then some x
    else if 0 ≤ e then none
    else scale? fuel (x / Float.ofScientific 1 false 308) (e + 308)

/-- The double of a sign, digits that fit into a word, and a power of ten. -/
def double? (negative : Bool) (digits : Nat) (e : Int) : Option Number :=
  (scale? 4 digits.toUInt64.toFloat e).map fun x => .float (if negative then -x else x)

/-- The value of an exponent, unless it leaves the range of 32-bit integers. -/
def exponentValue? (digits : List Char) : Option Nat :=
  let n := digits.foldl (fun n d => n * 10 + (d.toNat - 48)) 0
  if n ≤ 2147483647 then some n else none

/-- An integer of 32 bits, at the nearer end where it has more. -/
def clampExponent (e : Int) : Int := max (-2147483648) (min 2147483647 e)

/-- The number that a lexeme stands for, unless it is too large. -/
def Lexeme.value? (l : Lexeme) : Option Number :=
  let (whole, restWhole) := takeDigits 0 l.whole
  if restWhole.isEmpty && !l.pointed && l.exponent.isNone then
    if !l.negative then some (.nat whole)
    else if 1 ≤ whole && whole ≤ 9223372036854775808 then some (.neg whole)
    else some (.float (-whole.toUInt64.toFloat))
  else
    let (digits, restFraction) := takeDigits whole l.fraction
    let e : Int := restWhole.length - (l.fraction.length - restFraction.length : Nat)
    match l.exponent with
    | none => double? l.negative digits e
    | some (minus, ds) =>
      match exponentValue? ds with
      | some x => double? l.negative digits (clampExponent (if minus then e - x else e + x))
      | none =>
        if digits != 0 && !minus then none
        else some (.float (if l.negative then -0.0 else 0.0))

/-- What lexing comes to: a lexeme and the rest, or a break, which may be
reported differently to who reads the value and who passes over it. `true`
says that the text only ended too early. -/
inductive Lexed (α : Type) where
  | done (value : α) (rest : List Char)
  | broken (onRead onSkip : Bool)

/-- The digits of an exponent after its sign. -/
def lexExponentDigits (l : Lexeme) (minus : Bool) (cs : List Char) : Lexed Lexeme :=
  match cs.takeWhile Char.isDigit with
  | [] => .broken cs.isEmpty false
  | ds => .done { l with exponent := some (minus, ds) } (cs.dropWhile Char.isDigit)

/-- The exponent after its letter. -/
def lexExponent (l : Lexeme) : List Char → Lexed Lexeme
  | '+' :: cs => lexExponentDigits l false cs
  | '-' :: cs => lexExponentDigits l true cs
  | cs => lexExponentDigits l false cs

/-- What follows the last digit before the exponent. -/
def lexAfterDigits (l : Lexeme) : List Char → Lexed Lexeme
  | 'e' :: cs => lexExponent l cs
  | 'E' :: cs => lexExponent l cs
  | cs => .done l cs

/-- What follows the whole digits. -/
def lexAfterWhole (l : Lexeme) : List Char → Lexed Lexeme
  | '.' :: cs =>
    match cs.takeWhile Char.isDigit with
    | [] => .broken cs.isEmpty false
    | ds => lexAfterDigits { l with fraction := ds, pointed := true } (cs.dropWhile Char.isDigit)
  | cs => lexAfterDigits l cs

/-- A number after its sign. A zero has no digit after it. -/
def lexUnsigned (negative : Bool) (cs : List Char) : Lexed Lexeme :=
  match cs.takeWhile Char.isDigit, cs.dropWhile Char.isDigit with
  | [], _ => .broken cs.isEmpty false
  | ['0'], rest => lexAfterWhole ⟨negative, ['0'], [], false, none⟩ rest
  | '0' :: _ :: _, _ => .broken false false
  | ds, rest => lexAfterWhole ⟨negative, ds, [], false, none⟩ rest

/-- A number from its first character on. -/
def lexNumber : List Char → Lexed Lexeme
  | '-' :: cs => lexUnsigned true cs
  | cs => lexUnsigned false cs

end Json
end Attic
