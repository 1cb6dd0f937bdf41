import Attic.Calendar.Date

/-!
# Timestamps

A moment of universal time, to the nanosecond: a date, a second of that day
and a fraction. A leap second is the second before it with a fraction of one
second or more. A timestamp is written `YYYY-MM-DDTHH:MM:SS` with 0, 3, 6 or 9
digits of the fraction, as few as say all of it, and `Z`.

Reading is generous: white space around the numbers, `T`, `t` or a space
between date and time, any number of fraction digits of which nine count, and
an offset from universal time, which is taken off.

Key definitions: `Timestamp`, `Timestamp.before`, `Timestamp.sinceEpoch`,
`Timestamp.write`, `Timestamp.read?`.
-/

namespace Attic

structure Timestamp where
  date : Date
  /-- Seconds since the day began, below 86400. -/
  second : Nat
  /-- Nanoseconds since the second began; a leap second has 10⁹ or more. -/
  nano : Nat
  deriving DecidableEq, Inhabited

namespace Timestamp

def secondsPerDay : Nat := 86400

def nanosPerSecond : Nat := 1000000000

/-- Whether `a` is an earlier moment than `b`. -/
def before (a b : Timestamp) : Bool :=
  a.date.before b.date ||
    (a.date == b.date && (a.second < b.second || (a.second == b.second && a.nano < b.nano)))

/-- The moment some seconds and nanoseconds after the year 1970 began. -/
def sinceEpoch (seconds nano : Nat) : Timestamp :=
  ⟨(seconds / secondsPerDay).repeat Date.next ⟨1970, 1, 1⟩, seconds % secondsPerDay, nano⟩

/-! ### Writing -/

/-- The second of the minute that a clock shows; a leap second shows 60. -/
def shownSecond (t : Timestamp) : Nat :=
  t.second % 60 + if nanosPerSecond ≤ t.nano then 1 else 0

/-- The nanoseconds after the second that a clock shows. -/
def shownNano (t : Timestamp) : Nat :=
  if nanosPerSecond ≤ t.nano then t.nano - nanosPerSecond else t.nano

/-- The fraction with as few of 0, 3, 6 and 9 digits as say all of it. -/
def writeFraction (nano : Nat) : List Char :=
  if nano = 0 then []
  else if nano % 1000000 = 0 then '.' :: Date.padded 3 (nano / 1000000)
  else if nano % 1000 = 0 then '.' :: Date.padded 6 (nano / 1000)
  else '.' :: Date.padded 9 nano

def write (t : Timestamp) : List Char :=
  t.date.write ++ 'T' :: Date.padded 2 (t.second / 3600) ++
    ':' :: Date.padded 2 (t.second / 60 % 60) ++ ':' :: Date.padded 2 t.shownSecond ++
    writeFraction t.shownNano ++ ['Z']

/-- The moment without separators, `YYYYMMDD-HHMMSS`. -/
def writeCompact (t : Timestamp) : List Char :=
  Date.writeYear t.date.year ++ Date.padded 2 t.date.month ++ Date.padded 2 t.date.day ++
    '-' :: Date.padded 2 (t.second / 3600) ++ Date.padded 2 (t.second / 60 % 60) ++
    Date.padded 2 t.shownSecond

/-! ### Reading -/

/-- A fraction after its point: nine digits count, more are passed over. -/
def readFraction? (cs : List Char) : Option (Nat × List Char) :=
  match (cs.take 9).takeWhile Char.isDigit with
  | [] => none
  | ds =>
    some (Date.digitsValue ds * Nat.pow 10 (9 - ds.length),
      (cs.drop ds.length).dropWhile Char.isDigit)

/-- The time of day a text starts with: second, nanosecond and the rest. -/
def readClock? (cs : List Char) : Option ((Nat × Nat) × List Char) := do
  let (hour, cs) ← Date.readNumber? 2 cs
  let cs ← Date.readMark? ':' (Text.trimStart cs)
  let (minute, cs) ← Date.readNumber? 2 cs
  let cs ← Date.readMark? ':' (Text.trimStart cs)
  let (second, cs) ← Date.readNumber? 2 cs
  let (nano, cs) ← match cs with
    | '.' :: cs => readFraction? cs
    | cs => some (0, cs)
  if hour ≤ 23 && minute ≤ 59 && second ≤ 60 then
    let leap := second = 60
    some ((hour * 3600 + minute * 60 + (if leap then 59 else second),
      nano + if leap then nanosPerSecond else 0), cs)
  else none

/-- Two digits and the rest. -/
def readPair? : List Char → Option (Nat × List Char)
  | a :: b :: cs => if a.isDigit && b.isDigit then some (Date.digitsValue [a, b], cs) else none
  | _ => none

/-- An offset of hours and minutes after its sign, in seconds. -/
def readOffsetSize? (cs : List Char) : Option (Nat × List Char) := do
  let (hours, cs) ← readPair? cs
  let (minutes, cs) ← readPair? (cs.dropWhile fun c => c = ':' || Text.isBlank c)
  if minutes < 60 && hours < 24 then some (hours * 3600 + minutes * 60, cs) else none

/-- An offset said by `Z` or by a sign with hours and minutes. The second part
of the answer says whether it goes east. -/
def readSignedOffset? : List Char → Option ((Nat × Bool) × List Char)
  | 'Z' :: r => some ((0, true), r)
  | 'z' :: r => some ((0, true), r)
  | '+' :: r => (readOffsetSize? r).map fun (n, r) => ((n, true), r)
  | '-' :: r => (readOffsetSize? r).map fun (n, r) => ((n, false), r)
  | '\u2212' :: r => (readOffsetSize? r).map fun (n, r) => ((n, false), r)
  | _ => none

/-- An offset from universal time, also said by `UTC` in any case. -/
def readOffset? (cs : List Char) : Option ((Nat × Bool) × List Char) :=
  match Text.trimStart cs with
  | u :: t :: c :: r =>
    if u.toUpper = 'U' && t.toUpper = 'T' && c.toUpper = 'C' then some ((0, true), r)
    else readSignedOffset? (u :: t :: c :: r)
  | r => readSignedOffset? r

/-- The moment when clocks that are `size` seconds ahead (`east`) or behind show
`t`. -/
def takeOffset (t : Timestamp) (size : Nat) (east : Bool) : Timestamp :=
  if east then
    if size ≤ t.second then { t with second := t.second - size }
    else { t with date := t.date.previous, second := t.second + secondsPerDay - size }
  else if t.second + size < secondsPerDay then { t with second := t.second + size }
  else { t with date := t.date.next, second := t.second + size - secondsPerDay }

/-- The moment that the whole text says. -/
def read? (cs : List Char) : Option Timestamp := do
  let (date, cs) ← Date.readStart? Text.trimStart cs
  let cs ← match cs with
    | [] => none
    | c :: cs => if c = 'T' || c = 't' || c = ' ' then some cs else none
  let ((second, nano), cs) ← readClock? cs
  let ((size, east), cs) ← readOffset? cs
  let t := takeOffset ⟨date, second, nano⟩ size east
  if (Text.trimStart cs).isEmpty && t.date.isValid then some t else none

end Timestamp
end Attic
