/-!
# Reading bytes as text

`decode` reads bytes as UTF-8. Bytes that are UTF-8 give their text; in other
bytes each longest start of a sequence that cannot go on is read as U+FFFD.
`decodeSteps` is the machine for the second case: it holds how many bytes the
sequence begun still needs and which ones may come next.

Key definitions: `Partial`, `decodeStep`, `decodeSteps`, `decode`.
Key theorem: `decode_utf8`.
-/

namespace Attic
namespace Text

/-- A sequence that has begun: the bytes it still needs (none between two
characters), the least and greatest byte that may come next, and the bits
read so far. -/
structure Partial where
  need : Nat
  low : Nat
  high : Nat
  bits : Nat

/-- Nothing begun. -/
def Partial.none : Partial := ⟨0, 0x80, 0xBF, 0⟩

/-- The character that stands for bytes that are no text. -/
def replacement : Char := '\uFFFD'

/-- One byte where a sequence may begin: the sequence it begins, and the
character it already is. -/
def decodeStart (b : Nat) : Partial × Option Char :=
  if b < 0x80 then (.none, some (Char.ofNat b))
  else if 0xC2 ≤ b && b ≤ 0xDF then (⟨1, 0x80, 0xBF, b - 0xC0⟩, none)
  else if b == 0xE0 then (⟨2, 0xA0, 0xBF, 0⟩, none)
  else if b == 0xED then (⟨2, 0x80, 0x9F, 0xD⟩, none)
  else if 0xE1 ≤ b && b ≤ 0xEF then (⟨2, 0x80, 0xBF, b - 0xE0⟩, none)
  else if b == 0xF0 then (⟨3, 0x90, 0xBF, 0⟩, none)
  else if 0xF1 ≤ b && b ≤ 0xF3 then (⟨3, 0x80, 0xBF, b - 0xF0⟩, none)
  else if b == 0xF4 then (⟨3, 0x80, 0x8F, 4⟩, none)
  else (.none, some replacement)

/-- One byte: the state after it and the text so far, last character first. -/
def decodeStep (st : Partial × List Char) (byte : UInt8) : Partial × List Char :=
  let b := byte.toNat
  let (p, out) := st
  let start (out : List Char) : Partial × List Char :=
    let (q, c) := decodeStart b
    (q, c.toList ++ out)
  if p.need = 0 then start out
  else if p.low ≤ b && b ≤ p.high then
    let bits := p.bits * 64 + (b - 0x80)
    if p.need = 1 then (.none, Char.ofNat bits :: out)
    else (⟨p.need - 1, 0x80, 0xBF, bits⟩, out)
  else start (replacement :: out)

/-- The text of any bytes, with U+FFFD for what is not UTF-8. -/
def decodeSteps (bytes : ByteArray) : List Char :=
  let (p, out) := bytes.data.foldl decodeStep (.none, [])
  (if p.need = 0 then out else replacement :: out).reverse

/-- The text of any bytes: their own text if they are UTF-8. -/
def decode (bytes : ByteArray) : List Char :=
  match String.fromUTF8? bytes with
  | some s => s.toList
  | none => decodeSteps bytes

/-- Bytes written from a text are read as that text. -/
theorem fromUTF8?_toByteArray (s : String) : String.fromUTF8? s.toByteArray = some s := by
  unfold String.fromUTF8?
  rw [dif_pos s.isValidUTF8]
  rfl

theorem decode_utf8 (s : String) : decode s.toByteArray = s.toList := by
  rw [decode, fromUTF8?_toByteArray]

end Text
end Attic
