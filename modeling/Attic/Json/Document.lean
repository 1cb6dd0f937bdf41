import Attic.Json.Number
import Attic.Order.Sorted

/-!
# JSON texts up to their first break

A JSON text that is read for a purpose is read from left to right, and the
first thing wrong with it counts: text that is no JSON, text that ends too
early, or JSON of the wrong shape. `Document.read` reads any text as a tree
that goes as far as the text is JSON and is cut where it breaks, so that a
reader who walks the tree in order meets the first flaw first.

Key definitions: `Json.Flaw`, `Json.Node`, `Json.Items`, `Json.Members`,
`Json.Document`, `Json.Document.read`, `Json.Node.value`.
-/

namespace Attic
namespace Json

/-- What can be wrong with a text that should say something in JSON. -/
inductive Flaw where
  /-- It is no JSON. -/
  | malformed
  /-- It ends too early. -/
  | unfinished
  /-- It says something of another shape. -/
  | mismatch
  deriving DecidableEq

def Flaw.message : Flaw → String
  | .malformed => "the text is not valid JSON"
  | .unfinished => "the JSON text ends too early"
  | .mismatch => "the JSON value has another shape"

mutual

/-- A value, as far as its text is JSON. -/
inductive Node where
  | null
  | bool (b : Bool)
  /-- A number, without a value when it is too large. -/
  | number (value : Option Number)
  /-- A text, without a value when an escape in it names no character. -/
  | text (value : Option String)
  | list (items : Items)
  | object (members : Members)
  /-- No value, which is one thing to who reads it and may be another to who
  passes over it. -/
  | broken (onRead onSkip : Flaw)

/-- The items of a list up to its end or the place where it breaks. -/
inductive Items where
  | closed
  | cut (flaw : Flaw)
  | more (item : Node) (rest : Items)

/-- The members of an object up to its end or the place where it breaks. A name
that cannot be read is a flaw of its own. -/
inductive Members where
  | closed
  | cut (flaw : Flaw)
  | more (name : Except Flaw String) (value : Node) (rest : Members)

end

/-- A text: its value, and whether anything but blanks follows it. -/
structure Document where
  root : Node
  trailing : Bool

def isSpace (c : Char) : Bool := c == ' ' || c == '\n' || c == '\t' || c == '\r'

def skipSpace (cs : List Char) : List Char := cs.dropWhile isSpace

/-! ### Texts -/

def hexValue? (c : Char) : Option Nat :=
  if '0' ≤ c && c ≤ '9' then some (c.toNat - 48)
  else if 'a' ≤ c && c ≤ 'f' then some (c.toNat - 87)
  else if 'A' ≤ c && c ≤ 'F' then some (c.toNat - 55)
  else none

/-- The value of four hexadecimal digits. -/
def hexWord? (a b c d : Char) : Option Nat := do
  some ((((← hexValue? a) * 16 + (← hexValue? b)) * 16 + (← hexValue? c)) * 16 + (← hexValue? d))

/-- A text that is being read: its characters so far, last one first, the first
half of a surrogate pair that waits for its second half, and the first escape
that named no character. -/
structure Spelled where
  out : List Char
  half : Option Nat
  flaw : Option Flaw

/-- One character more. A first half without its second is a flaw. -/
def Spelled.push (s : Spelled) (c : Char) : Spelled :=
  match s.half with
  | none => { s with out := c :: s.out }
  | some _ => ⟨s.out, none, some (s.flaw.getD .malformed)⟩

/-- One escaped code unit more. -/
def Spelled.pushUnit (s : Spelled) (n : Nat) : Spelled :=
  let isLow := 0xDC00 ≤ n && n ≤ 0xDFFF
  match s.half with
  | some high =>
    if isLow then
      ⟨Char.ofNat ((high - 0xD800) * 1024 + (n - 0xDC00) + 0x10000) :: s.out, none, s.flaw⟩
    else ⟨s.out, none, some (s.flaw.getD .malformed)⟩
  | none =>
    if isLow then { s with flaw := some (s.flaw.getD .malformed) }
    else if 0xD800 ≤ n && n ≤ 0xDBFF then { s with half := some n }
    else { s with out := Char.ofNat n :: s.out }

/-- Where a text breaks: an escape that named no character counts first for who
reads it. `ended` says that the text is over. -/
def Spelled.break (s : Spelled) (flaw : Flaw) (ended : Bool) : Flaw × Flaw :=
  match s.flaw with
  | some f => (f, flaw)
  | none => if s.half.isSome && !ended then (.malformed, flaw) else (flaw, flaw)

/-- The character that a letter after a backslash stands for. -/
def simpleEscape? : Char → Option Char
  | '\x22' => some '\x22'
  | '\\' => some '\\'
  | '/' => some '/'
  | 'b' => some '\x08'
  | 'f' => some '\x0c'
  | 'n' => some '\n'
  | 'r' => some '\r'
  | 't' => some '\t'
  | _ => none

/-- The length of the text in bytes, counted no further than four. -/
def fewBytes (cs : List Char) : Nat := (cs.take 4).foldl (fun n c => n + c.utf8Size) 0

/-- A text from after its opening quote: its value and the rest, or the flaws on
reading and on passing over it. -/
def readText : Spelled → List Char → Except (Flaw × Flaw) (Option String × List Char)
  | s, [] => .error (s.break .unfinished true)
  | s, '\x22' :: cs =>
    let whole := s.flaw.isNone && s.half.isNone
    .ok (if whole then some (String.ofList s.out.reverse) else none, cs)
  | s, '\\' :: [] => .error (s.break .unfinished true)
  | s, '\\' :: 'u' :: a :: b :: c :: d :: cs =>
    match hexWord? a b c d with
    | some n => readText (s.pushUnit n) cs
    | none => .error (s.break .malformed true)
  | s, '\\' :: 'u' :: cs =>
    .error (s.break (if fewBytes cs < 4 then .unfinished else .malformed) true)
  | s, '\\' :: e :: cs =>
    match simpleEscape? e with
    | some c => readText (s.push c) cs
    | none => .error (s.break .malformed false)
  | s, c :: cs =>
    if c.toNat < 32 then .error (s.break .malformed false) else readText (s.push c) cs

/-! ### Values -/

/-- The rest after a given word, or the flaw of what stands there instead. -/
def readWord : List Char → List Char → Except Flaw (List Char)
  | [], cs => .ok cs
  | _ :: _, [] => .error .unfinished
  | w :: ws, c :: cs => if w = c then readWord ws cs else .error .malformed

def flawOf (ended : Bool) : Flaw := if ended then .unfinished else .malformed

/-- The rest of the text, unless the value has broken it off. -/
abbrev Rest := Option (List Char)

mutual

/-- A value from after the blanks before it, and the rest. The fuel bounds the
steps; two for each character are enough. -/
def readNode : Nat → List Char → Node × Rest
  | 0, _ => (.broken .unfinished .unfinished, none)
  | _ + 1, [] => (.broken .unfinished .unfinished, none)
  | fuel + 1, c :: cs =>
    match c with
    | 'n' =>
      match readWord ['u', 'l', 'l'] cs with
      | .ok rest => (.null, some rest)
      | .error f => (.broken f f, none)
    | 't' =>
      match readWord ['r', 'u', 'e'] cs with
      | .ok rest => (.bool true, some rest)
      | .error f => (.broken f f, none)
    | 'f' =>
      match readWord ['a', 'l', 's', 'e'] cs with
      | .ok rest => (.bool false, some rest)
      | .error f => (.broken f f, none)
    | '\x22' =>
      match readText ⟨[], none, none⟩ cs with
      | .ok (value, rest) => (.text value, some rest)
      | .error (f, g) => (.broken f g, none)
    | '[' =>
      match skipSpace cs with
      | ']' :: rest => (.list .closed, some rest)
      | [] => (.list (.cut .unfinished), none)
      | cs =>
        let (items, rest) := readItems fuel cs
        (.list items, rest)
    | '\x7b' =>
      match skipSpace cs with
      | '\x7d' :: rest => (.object .closed, some rest)
      | [] => (.object (.cut .unfinished), none)
      | cs =>
        let (members, rest) := readMembers fuel cs
        (.object members, rest)
    | _ =>
      if c = '-' || c.isDigit then
        match lexNumber (c :: cs) with
        | .done l rest => (.number l.value?, some rest)
        | .broken r s => (.broken (flawOf r) (flawOf s), none)
      else (.broken .malformed .malformed, none)

/-- Items from the first character of one on. -/
def readItems : Nat → List Char → Items × Rest
  | 0, _ => (.cut .unfinished, none)
  | fuel + 1, cs =>
    match readNode fuel cs with
    | (item, none) => (.more item (.cut .malformed), none)
    | (item, some rest) =>
      match skipSpace rest with
      | [] => (.more item (.cut .unfinished), none)
      | ']' :: rest => (.more item .closed, some rest)
      | ',' :: rest =>
        match skipSpace rest with
        | [] => (.more item (.more (.broken .unfinished .unfinished) (.cut .unfinished)), none)
        | ']' :: _ => (.more item (.cut .malformed), none)
        | rest =>
          let (items, rest) := readItems fuel rest
          (.more item items, rest)
      | _ => (.more item (.cut .malformed), none)

/-- Members from the first character of a name on. -/
def readMembers : Nat → List Char → Members × Rest
  | 0, _ => (.cut .unfinished, none)
  | _ + 1, [] => (.cut .unfinished, none)
  | fuel + 1, c :: cs =>
    if c ≠ '\x22' then (.cut .malformed, none)
    else
      match readText ⟨[], none, none⟩ cs with
      | .error (f, _) => (.more (.error f) .null (.cut f), none)
      | .ok (value, rest) =>
        let name : Except Flaw String := match value with
          | some s => .ok s
          | none => .error .malformed
        match skipSpace rest with
        | [] => (.more name (.broken .unfinished .unfinished) (.cut .unfinished), none)
        | ':' :: rest =>
          match readNode fuel (skipSpace rest) with
          | (node, none) => (.more name node (.cut .malformed), none)
          | (node, some rest) =>
            match skipSpace rest with
            | [] => (.more name node (.cut .unfinished), none)
            | '\x7d' :: rest => (.more name node .closed, some rest)
            | ',' :: rest =>
              match skipSpace rest with
              | [] => (.more name node (.more (.error .unfinished) .null (.cut .unfinished)), none)
              | '\x7d' :: _ => (.more name node (.cut .malformed), none)
              | rest =>
                let (members, rest) := readMembers fuel rest
                (.more name node members, rest)
            | _ => (.more name node (.cut .malformed), none)
        | _ => (.more name (.broken .malformed .malformed) (.cut .malformed), none)

end

/-- Reads a text as far as it is JSON. -/
def Document.read (cs : List Char) : Document :=
  match readNode (2 * cs.length + 2) (skipSpace cs) with
  | (root, some rest) => ⟨root, !(skipSpace rest).isEmpty⟩
  | (root, none) => ⟨root, false⟩

/-! ### Whole values -/

mutual

/-- The value of a node. Lists and objects may stand in each other `depth - 1`
deep. Of members of one name the last counts, and names are sorted. -/
def Node.value : Nat → Node → Except Flaw Value
  | _, .null => .ok .null
  | _, .bool b => .ok (.bool b)
  | _, .number (some n) => .ok (.number n)
  | _, .number none => .error .malformed
  | _, .text (some s) => .ok (.text s)
  | _, .text none => .error .malformed
  | depth, .list items =>
    if depth ≤ 1 then .error .malformed else (items.values (depth - 1)).map .list
  | depth, .object members =>
    if depth ≤ 1 then .error .malformed else (members.values (depth - 1) []).map .object
  | _, .broken f _ => .error f

def Items.values : Nat → Items → Except Flaw (List Value)
  | _, .closed => .ok []
  | _, .cut f => .error f
  | depth, .more item rest =>
    match item.value depth with
    | .error f => .error f
    | .ok v => (rest.values depth).map (v :: ·)

def Members.values : Nat → List (String × Value) → Members → Except Flaw (List (String × Value))
  | _, done, .closed => .ok done
  | _, _, .cut f => .error f
  | depth, done, .more name value rest =>
    match name with
    | .error f => .error f
    | .ok name =>
      match value.value depth with
      | .error f => .error f
      | .ok v => rest.values depth (Order.Table.put name v done)

end

end Json
end Attic
