/-!
# The shortest decimal of a double

A finite double is `m · 2^q`. All reals nearer to it than to its neighbours
read back as it, the ends of that interval too when `m` is even. On the grid of
decimals with a given last place only the two grid points around the value can
lie in the interval nearest to it, so the first grid, from coarse to fine, on
which one of the two does gives the fewest digits.

Everything is exact arithmetic on natural numbers: `Ratio` is a positive
fraction, never reduced.

Key definitions: `Decimal.parts`, `Decimal.Interval`, `Decimal.shortest`,
`Decimal.positional`, `Decimal.scientific`, `Decimal.write`.
-/

namespace Attic
namespace Decimal

/-- A fraction `top / bottom`. -/
structure Ratio where
  top : Nat
  bottom : Nat

/-- The value `n · 2^e`. -/
def Ratio.scaled (n : Nat) (e : Int) : Ratio :=
  if 0 ≤ e then ⟨n * Nat.pow 2 e.toNat, 1⟩ else ⟨n, Nat.pow 2 (-e).toNat⟩

/-- The value `n · 10^e`. -/
def Ratio.decimal (n : Nat) (e : Int) : Ratio :=
  if 0 ≤ e then ⟨n * Nat.pow 10 e.toNat, 1⟩ else ⟨n, Nat.pow 10 (-e).toNat⟩

def Ratio.le (a b : Ratio) : Bool := a.top * b.bottom ≤ b.top * a.bottom

def Ratio.lt (a b : Ratio) : Bool := a.top * b.bottom < b.top * a.bottom

/-- Sign, `m` and `q` of the double with these bits, whose value is `m · 2^q`. -/
def parts (bits : UInt64) : Bool × Nat × Int :=
  let n := bits.toNat
  let exponent : Nat := n / Nat.pow 2 52 % 2048
  let fraction : Nat := n % Nat.pow 2 52
  (n / Nat.pow 2 63 == 1,
    if exponent = 0 then (fraction, -1074) else (fraction + Nat.pow 2 52, (exponent : Int) - 1075))

/-- The reals that read back as `m · 2^q`, in quarters of `2^q`. -/
structure Interval where
  low : Ratio
  high : Ratio
  /-- Whether the ends belong to it. -/
  closed : Bool

def Interval.of (m : Nat) (q : Int) : Interval :=
  let below := if m = Nat.pow 2 52 && q != -1074 then 1 else 2
  ⟨.scaled (4 * m - below) (q - 2), .scaled (4 * m + 2) (q - 2), m % 2 == 0⟩

def Interval.holds (i : Interval) (r : Ratio) : Bool :=
  if i.closed then i.low.le r && r.le i.high else i.low.lt r && r.lt i.high

/-- The grid point at or below the value, as a multiple of `10^e`. -/
def gridFloor (value : Ratio) (e : Int) : Nat :=
  if 0 ≤ e then value.top / (value.bottom * Nat.pow 10 e.toNat)
  else value.top * Nat.pow 10 (-e).toNat / value.bottom

/-- The nearer of two grid points that both read back; the even one of a tie. -/
def nearer (value : Ratio) (e : Int) (n : Nat) : Nat :=
  let twice : Ratio := ⟨2 * value.top, value.bottom⟩
  let middle := Ratio.decimal (2 * n + 1) e
  if twice.lt middle then n
  else if middle.lt twice then n + 1
  else if n % 2 = 0 then n else n + 1

/-- A grid point of last place `10^e` that reads back as the value, if there is
one. -/
def onGrid? (value : Ratio) (i : Interval) (e : Int) : Option Nat :=
  let n := gridFloor value e
  match n != 0 && i.holds (.decimal n e), i.holds (.decimal (n + 1) e) with
  | true, true => some (nearer value e n)
  | true, false => some n
  | false, true => some (n + 1)
  | false, false => none

/-- Tries grids from the last place `10^e` on to finer ones. -/
def search (value : Ratio) (i : Interval) : Nat → Int → Nat × Int
  | 0, e => (gridFloor value e, e)
  | fuel + 1, e =>
    match onGrid? value i e with
    | some n => (n, e)
    | none => search value i fuel (e - 1)

/-- The decimal `n · 10^e` with the fewest digits that reads back as `m · 2^q`. -/
def shortest (m : Nat) (q : Int) : Nat × Int :=
  if m = 0 then (0, 0)
  else search (.scaled m q) (.of m q) 700 309

/-- The digits of `n · 10^e` with a point where it belongs, and at least one
digit on each side of it. -/
def positional (digits : List Char) (e : Int) : List Char :=
  if 0 ≤ e then digits ++ List.replicate e.toNat '0' ++ ['.', '0']
  else
    let places := (-e).toNat
    let padded := List.replicate (places + 1 - digits.length) '0' ++ digits
    padded.take (padded.length - places) ++ '.' :: padded.drop (padded.length - places)

/-- The digits with a point after the first, if there are more, and the power of
ten that they are multiplied by. -/
def scientific (digits : List Char) (power : Int) : List Char :=
  (match digits with
    | d :: d' :: ds => d :: '.' :: d' :: ds
    | ds => ds) ++
    'e' :: (if power < 0 then ['-'] else []) ++ Nat.toDigits 10 power.natAbs

/-- A finite double with the fewest digits that read back. From 10⁻⁵ up to 10¹⁶
it is written in positional notation, with a point in every case. -/
def write (x : Float) : List Char :=
  let (negative, m, q) := parts x.toBits
  let (n, e) := shortest m q
  let digits := Nat.toDigits 10 n
  let size : Int := digits.length + e
  (if negative then ['-'] else []) ++
    if -5 < size && size ≤ 16 then positional digits e else scientific digits (size - 1)

end Decimal
end Attic
