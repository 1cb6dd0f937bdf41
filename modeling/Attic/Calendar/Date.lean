import Attic.Text.Blank

/-!
# Dates

Days of the proleptic Gregorian calendar, from 1 January of the year -262143
to 31 December of the year 262142. A date is written `YYYY-MM-DD`; a year
outside 0..9999 has a sign and at least four digits. Reading allows white
space before each number and an explicit sign of the year, and takes no more
digits of a number than its field holds, except after a sign.

Key definitions: `Date`, `Date.isValid`, `Date.before`, `Date.next`,
`Date.previous`, `Date.write`, `Date.readStart?`, `Date.read?`.
-/

namespace Attic

structure Date where
  year : Int
  month : Nat
  day : Nat
  deriving DecidableEq, Inhabited

namespace Date

def isLeap (year : Int) : Bool := year % 4 == 0 && (year % 100 != 0 || year % 400 == 0)

def daysInMonth (year : Int) (month : Nat) : Nat :=
  match month with
  | 2 => if isLeap year then 29 else 28
  | 4 | 6 | 9 | 11 => 30
  | _ => 31

def firstYear : Int := -262143

def lastYear : Int := 262142

/-- Whether the calendar has this day. -/
def isValid (d : Date) : Bool :=
  firstYear ≤ d.year && d.year ≤ lastYear && 1 ≤ d.month && d.month ≤ 12 && 1 ≤ d.day &&
    d.day ≤ daysInMonth d.year d.month

/-- Whether `d` is an earlier day than `e`. -/
def before (d e : Date) : Bool :=
  d.year < e.year ||
    (d.year == e.year && (d.month < e.month || (d.month == e.month && d.day < e.day)))

/-- The day after. -/
def next (d : Date) : Date :=
  if d.day < daysInMonth d.year d.month then { d with day := d.day + 1 }
  else if d.month < 12 then ⟨d.year, d.month + 1, 1⟩
  else ⟨d.year + 1, 1, 1⟩

/-- The day before. -/
def previous (d : Date) : Date :=
  if 1 < d.day then { d with day := d.day - 1 }
  else if 1 < d.month then ⟨d.year, d.month - 1, daysInMonth d.year (d.month - 1)⟩
  else ⟨d.year - 1, 12, 31⟩

/-! ### Writing -/

/-- The decimal digits of `n`, with zeros in front up to `width` of them. -/
def padded (width n : Nat) : List Char :=
  let digits := Nat.toDigits 10 n
  List.replicate (width - digits.length) '0' ++ digits

/-- The year with four digits, signed where it has no such form. -/
def writeYear (year : Int) : List Char :=
  if 0 ≤ year && year ≤ 9999 then padded 4 year.toNat
  else (if year < 0 then '-' else '+') :: padded 4 year.natAbs

/-- The date as `YYYY-MM-DD`. -/
def write (d : Date) : List Char :=
  writeYear d.year ++ '-' :: padded 2 d.month ++ '-' :: padded 2 d.day

/-! ### Reading -/

/-- The value of decimal digits. -/
def digitsValue (ds : List Char) : Nat :=
  ds.foldl (fun n d => n * 10 + (d.toNat - 48)) 0

/-- At most `width` digits, at least one, and the rest. -/
def readDigits? (width : Nat) (cs : List Char) : Option (Nat × List Char) :=
  match (cs.take width).takeWhile Char.isDigit with
  | [] => none
  | ds => some (digitsValue ds, cs.drop ds.length)

/-- A number after white space. -/
def readNumber? (width : Nat) (cs : List Char) : Option (Nat × List Char) :=
  readDigits? width (Text.trimStart cs)

/-- A year after white space: four digits at most, or any number after a sign. -/
def readYear? (cs : List Char) : Option (Int × List Char) :=
  match Text.trimStart cs with
  | '-' :: r => (readDigits? r.length r).map fun (n, r) => (-(n : Int), r)
  | '+' :: r => (readDigits? r.length r).map fun (n, r) => ((n : Int), r)
  | r => (readDigits? 4 r).map fun (n, r) => ((n : Int), r)

/-- The rest after a given character. -/
def readMark? (mark : Char) : List Char → Option (List Char)
  | [] => none
  | c :: cs => if c = mark then some cs else none

/-- The date a text starts with. `gap` reads what may stand before each dash. -/
def readStart? (gap : List Char → List Char) (cs : List Char) : Option (Date × List Char) := do
  let (year, cs) ← readYear? cs
  let cs ← readMark? '-' (gap cs)
  let (month, cs) ← readNumber? 2 cs
  let cs ← readMark? '-' (gap cs)
  let (day, cs) ← readNumber? 2 cs
  if isValid ⟨year, month, day⟩ then some (⟨year, month, day⟩, cs) else none

/-- The date that the whole text says. -/
def read? (cs : List Char) : Option Date :=
  match readStart? id cs with
  | some (d, []) => some d
  | _ => none

end Date
end Attic
