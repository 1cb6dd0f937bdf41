import Attic.Text.Lines

/-!
# Arguments of a command line

An argument is an option or a word. An option has a long name, given after two
dashes, and may have a short one, given after one; short options can share a
dash. The value of an option follows it, as the next argument or in the same
one. An option that has no value or does not collect several is given once.
After two dashes alone every argument is a word.

Key definitions: `Cli.Stop`, `Cli.ValueKind`, `Cli.Choice`, `Cli.Given`,
`Cli.Given.read`.
-/

namespace Attic
namespace Cli

/-- Why arguments make up no command. -/
inductive Stop where
  /-- They are wrong. -/
  | usage
  /-- They ask for help. -/
  | help
  /-- They ask for the version. -/
  | version
  deriving DecidableEq

/-- What an option takes. -/
inductive ValueKind where
  /-- No value. -/
  | flag
  | text
  /-- A text that is not empty. -/
  | path
  /-- A natural number that fits into 64 bits. -/
  | count
  /-- Two texts with `=` between them. -/
  | mapping
  deriving DecidableEq

/-- An option that can be given. -/
structure Choice where
  name : String
  short : Option Char
  kind : ValueKind
  /-- Whether it can be given several times. -/
  collects : Bool

/-- A number, with a plus sign or without. -/
def readCount? (s : String) : Option Nat :=
  let digits := match s.toList with
    | '+' :: ds => ds
    | ds => ds
  if digits.isEmpty || !digits.all Char.isDigit then none
  else
    let n := digits.foldl (fun n d => n * 10 + (d.toNat - 48)) 0
    if n < Nat.pow 2 64 then some n else none

/-- The texts before and after the first `=`. -/
def readMapping? (s : String) : Option (String × String) :=
  (Text.cutFirst? ['='] s.toList).map fun (a, b) => (String.ofList a, String.ofList b)

/-- Whether a kind of option takes a value. -/
def ValueKind.accepts : ValueKind → String → Bool
  | .flag, _ => true
  | .text, _ => true
  | .path, s => !s.isEmpty
  | .count, s => (readCount? s).isSome
  | .mapping, s => (readMapping? s).isSome

/-- What was given: options with their values, and words. -/
structure Given where
  options : List (String × String)
  words : List String

namespace Given

def empty : Given := ⟨[], []⟩

def has (g : Given) (name : String) : Bool := g.options.any fun o => o.1 = name

/-- The values of an option. -/
def values (g : Given) (name : String) : List String :=
  (g.options.filter fun o => o.1 = name).map Prod.snd

/-- The value of an option that is given once. -/
def value? (g : Given) (name : String) : Option String := (g.values name).head?

/-- Adds an option with its value. -/
def add (g : Given) (c : Choice) (value : String) : Except Stop Given :=
  if g.has c.name && !c.collects then .error .usage
  else if c.kind.accepts value then .ok { g with options := g.options ++ [(c.name, value)] }
  else .error .usage

/-- Adds a word that is not empty. -/
def addWord (g : Given) (word : String) : Except Stop Given :=
  if word.isEmpty then .error .usage else .ok { g with words := g.words ++ [word] }

def addWords (g : Given) (words : List String) : Except Stop Given := words.foldlM addWord g

end Given

/-- What one level of a command line accepts. -/
structure Level where
  choices : List Choice
  /-- Whether words belong to this level; if not, a word ends it. -/
  takesWords : Bool
  /-- Whether the version can be asked for. -/
  hasVersion : Bool

def Level.named? (l : Level) (name : String) : Option Choice :=
  l.choices.find? fun c => c.name = name

def Level.short? (l : Level) (c : Char) : Option Choice :=
  l.choices.find? fun x => x.short = some c

/-- Whether an argument is an option: a dash alone is a word. -/
def isOption (a : String) : Bool := a.startsWith "-" && a ≠ "-"

/-- What reading one argument comes to: what is given so far, and an option that
waits for its value. -/
abbrev Step := Except Stop (Given × Option Choice)

/-- Reads a long option, after its dashes. -/
def Level.readLong (l : Level) (g : Given) (body : List Char) : Step :=
  let name := String.ofList (body.takeWhile (· ≠ '='))
  match l.named? name, body.dropWhile (· ≠ '=') with
  | some c, [] =>
    if c.kind = .flag then (g.add c "").map fun g => (g, none) else .ok (g, some c)
  | some c, _ :: value =>
    if c.kind = .flag then .error .usage
    else (g.add c (String.ofList value)).map fun g => (g, none)
  | none, [] =>
    if name = "help" then .error .help
    else if name = "version" && l.hasVersion then .error .version
    else .error .usage
  | none, _ => .error .usage

/-- Reads short options, after their dash. -/
def Level.readShort (l : Level) : Given → List Char → Step
  | g, [] => .ok (g, none)
  | g, c :: cs =>
    match l.short? c with
    | some choice =>
      if choice.kind = .flag then
        match g.add choice "" with
        | .error s => .error s
        | .ok g => l.readShort g cs
      else
        match cs with
        | [] => .ok (g, some choice)
        | '=' :: value => (g.add choice (String.ofList value)).map fun g => (g, none)
        | value => (g.add choice (String.ofList value)).map fun g => (g, none)
    | none =>
      if c = 'h' then .error .help
      else if c = 'V' && l.hasVersion then .error .version
      else .error .usage

/-- Reads one option, without a value that follows it. -/
def Level.readOption (l : Level) (g : Given) (a : String) : Step :=
  if a.startsWith "--" then l.readLong g (a.toList.drop 2) else l.readShort g (a.toList.drop 1)

/-- Reads the arguments of one level, where an option may wait for its value.
What is left starts with the word that ends the level. -/
def Level.readFrom (l : Level) : Given → Option Choice → List String →
    Except Stop (Given × List String)
  | g, none, [] => .ok (g, [])
  | _, some _, [] => .error .usage
  | g, some c, a :: rest =>
    if isOption a then .error .usage
    else
      match g.add c a with
      | .error s => .error s
      | .ok g => l.readFrom g none rest
  | g, none, a :: rest =>
    if a = "--" then
      if l.takesWords then (g.addWords rest).map fun g => (g, [])
      else if rest.isEmpty then .ok (g, [])
      else .error .usage
    else if isOption a then
      match l.readOption g a with
      | .error s => .error s
      | .ok (g, waiting) => l.readFrom g waiting rest
    else if l.takesWords then
      match g.addWord a with
      | .error s => .error s
      | .ok g => l.readFrom g none rest
    else .ok (g, a :: rest)

/-- Reads the arguments of one level. -/
def Level.read (l : Level) (args : List String) : Except Stop (Given × List String) :=
  l.readFrom .empty none args

end Cli
end Attic
