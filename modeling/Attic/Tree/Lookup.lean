import Attic.Path.Parts
import Attic.Tree.Basic

/-!
# Finding what a path names

A path leads down from the root piece by piece: `.` stays, `..` goes up, a name
goes into the folder of that name, and a link is replaced by the path it holds,
at most forty times on one way. The last piece may name nothing yet; then the
path leads to a vacant place. A path that ends with a slash has to lead to a
folder.

Key definitions: `Tree.Spot`, `Tree.stroll`, `Tree.walk`, `Tree.spot`,
`Tree.look`, `Tree.lookPlain`, `Tree.isFile`, `Tree.isFolder`, `Tree.has`,
`Tree.read`, `Tree.readText`, `Tree.canonical`.
-/

namespace Attic
namespace Tree

/-- Where a path leads. -/
inductive Spot where
  | found (place : Location) (object : Object)
  /-- A place in a folder that holds nothing yet. -/
  | vacant (folder : Location) (name : String)
  deriving DecidableEq

/-- The pieces of a path that are not empty. -/
def steps (path : String) : List String :=
  ((Text.cutEach '/' path.toList).filter (· ≠ [])).map String.ofList

def endsWithSlash (path : String) : Bool := path.toList.getLast? = some '/'

def startsWithSlash (path : String) : Bool := path.toList.head? = some '/'

/-- The longest name a folder can hold, in bytes. -/
def maxName : Nat := 255

/-- The longest path that can be given, in bytes. -/
def maxPath : Nat := 4095

/-- How many links one way may lead through. -/
def maxLinks : Nat := 40

/-- Goes down from `here`. `into` says whether a link at the end is followed,
`must` whether the end has to be a folder, and `onLink` goes on where a link is
followed. -/
def stroll (t : Tree) (into must : Bool)
    (onLink : Location → List String → Bool → Except Fault Spot) :
    Location → List String → Except Fault Spot
  | here, [] => .ok (.found here .folder)
  | here, name :: rest =>
    if name = "." then stroll t into must onLink here rest
    else if name = ".." then stroll t into must onLink here.dropLast rest
    else if maxName < name.utf8ByteSize then .error .nameTooLong
    else
      match t.get? (here ++ [name]) with
      | none => if rest = [] && !must then .ok (.vacant here name) else .error .notFound
      | some .folder => stroll t into must onLink (here ++ [name]) rest
      | some (.file mode bytes) =>
        if rest = [] && !must then .ok (.found (here ++ [name]) (.file mode bytes))
        else .error .notFolder
      | some (.link target) =>
        if rest = [] && !into && !must then .ok (.found (here ++ [name]) (.link target))
        else
          onLink (if startsWithSlash target then [] else here) (steps target ++ rest)
            (must || (rest = [] && endsWithSlash target))

/-- Goes down from a place through at most `links` links. -/
def walk (t : Tree) (into : Bool) : Nat → Location → List String → Bool → Except Fault Spot
  | 0, here, path, must => stroll t into must (fun _ _ _ => .error .tooManyLinks) here path
  | links + 1, here, path, must => stroll t into must (walk t into links) here path

/-- What is wrong with a path itself. -/
def pathFault? (path : String) : Option Fault :=
  if path.toList.contains '\x00' then some .nulInPath
  else if path.isEmpty then some .notFound
  else if maxPath < path.utf8ByteSize then some .nameTooLong
  else none

/-- Where a path leads, through a link at its end when `into` is set. -/
def spot (t : Tree) (into must : Bool) (p : Path) : Except Fault Spot :=
  match pathFault? p.text with
  | some f => .error f
  | none => walk t into maxLinks [] (steps p.text) must

/-- What is found at the end of a path. -/
def found : Except Fault Spot → Except Fault (Location × Object)
  | .error f => .error f
  | .ok (.found l o) => .ok (l, o)
  | .ok (.vacant _ _) => .error .notFound

/-- What a path names, a link at its end followed. -/
def look (t : Tree) (p : Path) : Except Fault Object :=
  (found (t.spot true (endsWithSlash p.text) p)).map Prod.snd

/-- What a path names, a link at its end taken as it is. -/
def lookPlain (t : Tree) (p : Path) : Except Fault Object :=
  (found (t.spot false (endsWithSlash p.text) p)).map Prod.snd

def isFile (t : Tree) (p : Path) : Bool :=
  match t.look p with
  | .ok (.file _ _) => true
  | _ => false

def isFolder (t : Tree) (p : Path) : Bool :=
  match t.look p with
  | .ok .folder => true
  | _ => false

/-- Whether a path names anything. -/
def has (t : Tree) (p : Path) : Bool :=
  match t.look p with
  | .ok _ => true
  | .error _ => false

/-- The permission bits and bytes of a file. -/
def readFile (t : Tree) (p : Path) : Except Fault (Nat × ByteArray) :=
  match t.look p with
  | .ok (.file mode bytes) => .ok (mode, bytes)
  | .ok _ => .error .isFolder
  | .error f => .error f

def read (t : Tree) (p : Path) : Except Fault ByteArray := (t.readFile p).map Prod.snd

/-- The text of a file. -/
def readText (t : Tree) (p : Path) : Except Fault String :=
  match t.read p with
  | .error f => .error f
  | .ok bytes =>
    match String.fromUTF8? bytes with
    | some s => .ok s
    | none => .error .notText

/-- The absolute path of a location. -/
def pathOf (l : Location) : Path := ⟨"/" ++ String.intercalate "/" l⟩

/-- The path without links and dots that names what `p` names. -/
def canonical (t : Tree) (p : Path) : Except Fault Path :=
  (found (t.spot true (endsWithSlash p.text) p)).map fun e => pathOf e.1

end Tree
end Attic
