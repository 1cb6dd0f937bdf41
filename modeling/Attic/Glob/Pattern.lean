/-!
# Glob patterns

A pattern is read into tokens: `?` is any character, `*` any run, `**` as a
whole component any run of components, `[…]` and `[!…]` a choice of characters
and ranges, and anything else itself. What cannot be read is a flaw at a
position of the pattern, counted in characters.

Key definitions: `Glob.Token`, `Glob.Flaw`, `Glob.Flaw.message`,
`Glob.Pattern`, `Glob.Pattern.read`, `Glob.escape`.
-/

namespace Attic
namespace Glob

/-- One character or a range of them. -/
inductive Choice where
  | one (c : Char)
  | range (first last : Char)
  deriving DecidableEq

/-- What a part of a pattern stands for. -/
inductive Token where
  | char (c : Char)
  /-- Any one character. -/
  | any
  /-- Any run of characters. -/
  | run
  /-- Any run of whole components. -/
  | deep
  | within (choices : List Choice)
  | except (choices : List Choice)
  deriving DecidableEq

/-- Why a text is no pattern. -/
inductive FlawKind where
  /-- Three stars or more. -/
  | tooManyStars
  /-- Two stars that are not a whole component. -/
  | partialDeep
  /-- A bracket that does not close, or closes too soon. -/
  | openBracket
  deriving DecidableEq

structure Flaw where
  position : Nat
  kind : FlawKind
  deriving DecidableEq

def FlawKind.message : FlawKind → String
  | .tooManyStars => "wildcards are either regular `*` or recursive `**`"
  | .partialDeep => "recursive wildcards must form a single path component"
  | .openBracket => "invalid range pattern"

def Flaw.message (f : Flaw) : String :=
  "Pattern syntax error near position " ++ toString f.position ++ ": " ++ f.kind.message

/-- The choices between brackets: `a-b` is a range, also where `a` or `b` is a
dash or a bracket. -/
def readChoices : List Char → List Choice
  | a :: '-' :: b :: cs => .range a b :: readChoices cs
  | a :: cs => .one a :: readChoices cs
  | [] => []

/-- What stands in brackets after `[`, and the rest after the closing bracket.
The first character is taken as it is, so it may be a bracket. -/
def readBracket? : List Char → Option (List Char × List Char)
  | [] => none
  | c :: cs =>
    match cs.dropWhile (· ≠ ']') with
    | [] => none
    | _ :: rest => some (c :: cs.takeWhile (· ≠ ']'), rest)

/-- Reads a bracket expression, after its `[`. -/
def readClass? (cs : List Char) : Option (Token × List Char) :=
  match cs with
  | '!' :: cs => (readBracket? cs).map fun (inner, rest) => (.except (readChoices inner), rest)
  | cs => (readBracket? cs).map fun (inner, rest) => (.within (readChoices inner), rest)

/-- Adds a token for whole components; right after another one, with more
before that, it says nothing new. -/
def pushDeep (done : List Token) : List Token :=
  match done with
  | .deep :: _ :: _ => done
  | _ => .deep :: done

/-- Reads a pattern from a position on. `last` is the character before it and
`done` holds the tokens so far, last one first. The fuel bounds the number of
tokens. -/
def readFrom : Nat → Nat → Option Char → List Token → List Char → Except Flaw (List Token)
  | 0, _, _, done, _ => .ok done.reverse
  | _ + 1, _, _, done, [] => .ok done.reverse
  | fuel + 1, pos, _, done, '?' :: cs => readFrom fuel (pos + 1) (some '?') (.any :: done) cs
  | fuel + 1, pos, last, done, '*' :: cs =>
    let stars := cs.takeWhile (· = '*')
    let rest := cs.dropWhile (· = '*')
    match stars with
    | [] => readFrom fuel (pos + 1) (some '*') (.run :: done) rest
    | [_] =>
      if pos = 0 || last = some '/' then
        match rest with
        | '/' :: rest => readFrom fuel (pos + 3) (some '/') (pushDeep done) rest
        | [] => .ok (pushDeep done).reverse
        | _ => .error ⟨pos + 2, .partialDeep⟩
      else .error ⟨pos - 1, .partialDeep⟩
    | _ => .error ⟨pos + 2, .tooManyStars⟩
  | fuel + 1, pos, _, done, '[' :: cs =>
    match readClass? cs with
    | none => .error ⟨pos, .openBracket⟩
    | some (token, rest) =>
      readFrom fuel (pos + 1 + (cs.length - rest.length)) (some ']') (token :: done) rest
  | fuel + 1, pos, _, done, c :: cs => readFrom fuel (pos + 1) (some c) (.char c :: done) cs

/-- A pattern: its text and what it stands for. -/
structure Pattern where
  text : String
  tokens : List Token
  deriving DecidableEq

/-- Reads a pattern, or says where it is none. -/
def Pattern.read (text : String) : Except Flaw Pattern :=
  (readFrom (text.toList.length + 1) 0 none [] text.toList).map fun tokens => ⟨text, tokens⟩

/-- The pattern text that stands for one text only. -/
def escape (cs : List Char) : List Char :=
  cs.flatMap fun c =>
    if c = '?' || c = '*' || c = '[' || c = ']' then ['[', c, ']'] else [c]

end Glob
end Attic
