import Attic.Decimal.Shortest
import Attic.Json.Value

/-!
# Writing JSON

`compact` writes a value without blanks; `pretty` writes one item or member a
line, two blanks deeper than what holds it, and empty lists and objects on one
line. In texts a quote, a backslash and the control characters are escaped,
those with a letter of their own by it.

Key definitions: `Json.escapeChar`, `Json.writeText`, `Json.Value.compact`,
`Json.Value.pretty`.
Key theorem: `Json.escapeChar_no_line_feed`.
-/

namespace Attic
namespace Json

def hexDigit (n : Nat) : Char :=
  if n < 10 then Char.ofNat (48 + n) else Char.ofNat (87 + n)

/-- One character of a text as it is written. -/
def escapeChar (c : Char) : List Char :=
  match c with
  | '\x22' => ['\\', '\x22']
  | '\\' => ['\\', '\\']
  | '\x08' => ['\\', 'b']
  | '\x0c' => ['\\', 'f']
  | '\n' => ['\\', 'n']
  | '\r' => ['\\', 'r']
  | '\t' => ['\\', 't']
  | c =>
    if c.toNat < 32 then ['\\', 'u', '0', '0', hexDigit (c.toNat / 16), hexDigit (c.toNat % 16)]
    else [c]

/-- A text between quotes. -/
def writeText (s : String) : List Char := '\x22' :: (s.toList.flatMap escapeChar ++ ['\x22'])

def Number.write : Number → List Char
  | .nat n => Nat.toDigits 10 n
  | .neg n => '-' :: Nat.toDigits 10 n
  | .float x => Decimal.write x

namespace Value

mutual

def compact : Value → List Char
  | .null => ['n', 'u', 'l', 'l']
  | .bool true => ['t', 'r', 'u', 'e']
  | .bool false => ['f', 'a', 'l', 's', 'e']
  | .number n => n.write
  | .text s => writeText s
  | .list [] => ['[', ']']
  | .list (v :: vs) => '[' :: (compact v ++ compactItems vs)
  | .object [] => ['\x7b', '\x7d']
  | .object ((k, v) :: ms) => '\x7b' :: (writeText k ++ ':' :: (compact v ++ compactMembers ms))

def compactItems : List Value → List Char
  | [] => [']']
  | v :: vs => ',' :: (compact v ++ compactItems vs)

def compactMembers : List (String × Value) → List Char
  | [] => ['\x7d']
  | (k, v) :: ms => ',' :: (writeText k ++ ':' :: (compact v ++ compactMembers ms))

end

/-- A new line, `depth` levels deep. -/
def newLine (depth : Nat) : List Char := '\n' :: List.replicate (2 * depth) ' '

mutual

/-- The value, where `depth` levels are open. -/
def prettyAt (depth : Nat) : Value → List Char
  | .list [] => ['[', ']']
  | .list (v :: vs) =>
    '[' :: (newLine (depth + 1) ++ prettyAt (depth + 1) v ++ prettyItems (depth + 1) vs ++
      newLine depth ++ [']'])
  | .object [] => ['\x7b', '\x7d']
  | .object ((k, v) :: ms) =>
    '\x7b' :: (newLine (depth + 1) ++ writeText k ++ ':' :: ' ' :: prettyAt (depth + 1) v ++
      prettyMembers (depth + 1) ms ++ newLine depth ++ ['\x7d'])
  | .null => ['n', 'u', 'l', 'l']
  | .bool true => ['t', 'r', 'u', 'e']
  | .bool false => ['f', 'a', 'l', 's', 'e']
  | .number n => n.write
  | .text s => writeText s

def prettyItems (depth : Nat) : List Value → List Char
  | [] => []
  | v :: vs => ',' :: (newLine depth ++ prettyAt depth v ++ prettyItems depth vs)

def prettyMembers (depth : Nat) : List (String × Value) → List Char
  | [] => []
  | (k, v) :: ms =>
    ',' :: (newLine depth ++ writeText k ++ ':' :: ' ' :: prettyAt depth v ++
      prettyMembers depth ms)

end

def pretty (v : Value) : String := String.ofList (prettyAt 0 v)

end Value

/-- What is written of a character never breaks the line. -/
theorem escapeChar_no_line_feed (c : Char) : '\n' ∉ escapeChar c := by
  have digit : ∀ n, hexDigit n ≠ '\n' ∨ 16 ≤ n := by
    intro n
    by_cases h : n < 16
    · left
      have : ∀ k < 16, hexDigit k ≠ '\n' := by decide
      exact this n h
    · right
      omega
  unfold escapeChar
  split <;> try decide
  next hf _ _ =>
    split
    · next lt =>
      have h1 := (digit (c.toNat / 16)).resolve_right (by omega)
      have h2 := (digit (c.toNat % 16)).resolve_right (by omega)
      simp [Ne.symm h1, Ne.symm h2]
    · simp only [List.mem_singleton]
      exact fun e => hf e.symm

end Json
end Attic
