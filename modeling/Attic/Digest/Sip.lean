/-!
# Keyed digests of bytes

The 64-bit digest of the SipHash family with one round a word and three rounds
at the end, and with the key zero. Bytes are taken eight at a time, the least
significant first; the last word holds what is left and the length.

Key definitions: `Digest.State`, `Digest.State.round`, `Digest.sip`,
`Digest.hex`.
-/

namespace Attic
namespace Digest

structure State where
  a : UInt64
  b : UInt64
  c : UInt64
  d : UInt64

def rotate (x : UInt64) (n : UInt64) : UInt64 := (x <<< n) ||| (x >>> (64 - n))

def State.round (s : State) : State :=
  let a := s.a + s.b
  let b := rotate s.b 13 ^^^ a
  let a := rotate a 32
  let c := s.c + s.d
  let d := rotate s.d 16 ^^^ c
  let a := a + d
  let d := rotate d 21 ^^^ a
  let c := c + b
  let b := rotate b 17 ^^^ c
  let c := rotate c 32
  ⟨a, b, c, d⟩

/-- The state before the first word. -/
def State.start : State :=
  ⟨0x736f6d6570736575, 0x646f72616e646f6d, 0x6c7967656e657261, 0x7465646279746573⟩

/-- The state after one more word. -/
def State.absorb (s : State) (word : UInt64) : State :=
  let s := State.round { s with d := s.d ^^^ word }
  { s with a := s.a ^^^ word }

/-- The number whose digits to base 256 are the bytes, least significant first. -/
def wordOf (bytes : List UInt8) : UInt64 :=
  bytes.foldr (fun b w => (w <<< 8) ||| b.toUInt64) 0

/-- Takes the bytes word by word. `length` is their number modulo 256, and the
fuel bounds the number of words. -/
def absorbAll (length : UInt64) : Nat → State → List UInt8 → State
  | 0, s, _ => s
  | fuel + 1, s, bytes =>
    match bytes with
    | b0 :: b1 :: b2 :: b3 :: b4 :: b5 :: b6 :: b7 :: rest =>
      absorbAll length fuel (s.absorb (wordOf [b0, b1, b2, b3, b4, b5, b6, b7])) rest
    | last => s.absorb (wordOf last ||| (length <<< 56))

/-- The digest of some bytes. -/
def sip (bytes : List UInt8) : UInt64 :=
  let s := absorbAll (UInt64.ofNat bytes.length) (bytes.length + 1) .start bytes
  let s := ({ s with c := s.c ^^^ 0xff } : State).round.round.round
  s.a ^^^ s.b ^^^ s.c ^^^ s.d

/-- A digest as sixteen hexadecimal digits. -/
def hex (x : UInt64) : String :=
  let digits := Nat.toDigits 16 x.toNat
  String.ofList (List.replicate (16 - digits.length) '0' ++ digits)

end Digest
end Attic
