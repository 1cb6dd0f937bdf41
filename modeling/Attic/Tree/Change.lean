import Attic.Tree.Lookup

/-!
# Changing a tree

Each operation gives the tree after it and says whether it could be carried
out. One that could not leaves the tree as it was, except that making folders
keeps those it made before it failed.

Key definitions: `Tree.Change`, `Tree.makeFolder`, `Tree.makeFolders`,
`Tree.createFile`, `Tree.writeFile`, `Tree.appendFile`, `Tree.removeFile`,
`Tree.rename`, `Tree.moveFile`, `Tree.placeCopy`.
-/

namespace Attic
namespace Tree

/-- A tree after an operation, and whether that was carried out. -/
abbrev Change := Except Fault Unit × Tree

/-- The permission bits of a new file. -/
def newMode : Nat := 0o644

/-- Makes a folder where nothing is. -/
def makeFolder (t : Tree) (p : Path) : Change :=
  match t.spot false false p with
  | .error f => (.error f, t)
  | .ok (.found _ _) => (.error .exists, t)
  | .ok (.vacant l name) => (.ok (), t.set (l ++ [name]) .folder)

/-- A folder at `p`, whose parents are there. -/
def makeLast (t : Tree) (p : Path) : Change :=
  match t.makeFolder p with
  | (.ok (), t) => (.ok (), t)
  | (.error f, t) => if t.isFolder p then (.ok (), t) else (.error f, t)

/-- Makes a folder and those that lead to it, as far as they are missing. The
fuel bounds the depth. -/
def makeFoldersFrom : Nat → Tree → Path → Change
  | 0, t, _ => (.error .notFound, t)
  | fuel + 1, t, p =>
    if p.isEmpty then (.ok (), t)
    else
      match t.makeFolder p with
      | (.ok (), t) => (.ok (), t)
      | (.error .notFound, t) =>
        match p.parent? with
        | none => (.error .notFound, t)
        | some q =>
          match makeFoldersFrom fuel t q with
          | (.error f, t) => (.error f, t)
          | (.ok (), t) => makeLast t p
      | (.error f, t) => if t.isFolder p then (.ok (), t) else (.error f, t)

def makeFolders (t : Tree) (p : Path) : Change :=
  makeFoldersFrom (p.components.length + 1) t p

/-- Makes the folder that a path lies in. -/
def makeParent (t : Tree) (p : Path) : Change :=
  match p.parent? with
  | some q => t.makeFolders q
  | none => (.ok (), t)

/-- Makes a file where nothing is, not even a link. -/
def createFile (t : Tree) (p : Path) (mode : Nat) (bytes : ByteArray) : Change :=
  match t.spot false false p with
  | .error f => (.error f, t)
  | .ok s =>
    if endsWithSlash p.text then (.error .isFolder, t)
    else
      match s with
      | .found _ _ => (.error .exists, t)
      | .vacant l name => (.ok (), t.set (l ++ [name]) (.file mode bytes))

/-- Gives a file new bytes, made from those it has; a file that is not there is
made. -/
def updateFile (t : Tree) (p : Path) (update : ByteArray → ByteArray) : Change :=
  match t.spot true false p with
  | .error f => (.error f, t)
  | .ok s =>
    if endsWithSlash p.text then (.error .isFolder, t)
    else
      match s with
      | .found l (.file mode bytes) => (.ok (), t.set l (.file mode (update bytes)))
      | .found _ _ => (.error .isFolder, t)
      | .vacant l name => (.ok (), t.set (l ++ [name]) (.file newMode (update .empty)))

def writeFile (t : Tree) (p : Path) (bytes : ByteArray) : Change := t.updateFile p fun _ => bytes

def appendFile (t : Tree) (p : Path) (bytes : ByteArray) : Change := t.updateFile p (· ++ bytes)

/-- Removes a file or a link. -/
def removeFile (t : Tree) (p : Path) : Change :=
  match found (t.spot false (endsWithSlash p.text) p) with
  | .error f => (.error f, t)
  | .ok (_, .folder) => (.error .isFolder, t)
  | .ok (l, _) => (.ok (), t.erase l)

/-- The place that a spot stands for and what it holds. -/
def Spot.place : Spot → Location × Option Object
  | .found l o => (l, some o)
  | .vacant l name => (l ++ [name], none)

/-- The tree with everything at and below `l` taken to `m`. -/
def relocate (t : Tree) (l m : Location) : Tree :=
  ⟨(t.erase m).objects.map fun (k, o) =>
    (if l.isPrefixOf k then m ++ k.drop l.length else k, o)⟩

/-- Gives what is at `p` the name `q`. A file may take the place of a file or
link, a folder that of an empty folder. -/
def rename (t : Tree) (p q : Path) : Change :=
  match t.spot false false p, t.spot false false q with
  | .error f, _ => (.error f, t)
  | .ok (.vacant _ _), .error f => (.error f, t)
  | .ok (.vacant _ _), .ok _ => (.error .notFound, t)
  | .ok (.found _ _), .error f => (.error f, t)
  | .ok (.found l o), .ok s =>
    let (m, taken) := s.place
    if l = m then (.ok (), t)
    else if l.isPrefixOf m then (.error (if o = .folder then .invalid else .notFolder), t)
    else if m.isPrefixOf l then (.error .notEmpty, t)
    else
      match o, taken with
      | _, none => (.ok (), t.relocate l m)
      | .folder, some .folder =>
        if t.hasBelow m then (.error .notEmpty, t) else (.ok (), t.relocate l m)
      | .folder, some _ => (.error .notFolder, t)
      | _, some .folder => (.error .isFolder, t)
      | _, some _ => (.ok (), t.relocate l m)

/-- Moves a file, making the folder it goes to. -/
def moveFile (t : Tree) (p q : Path) : Change :=
  match t.makeParent q with
  | (.error f, t) => (.error f, t)
  | (.ok (), t) => t.rename p q

/-- Execute permission wherever read permission is granted. -/
def withExecution (mode : Nat) : Nat := mode ||| ((mode &&& 0o444) >>> 2)

/-- Copies a file to a new place, making the folder it goes to. The copy has the
permissions of the file, with those to execute added if asked. -/
def placeCopy (t : Tree) (p q : Path) (executable : Bool) : Change :=
  match t.makeParent q with
  | (.error f, t) => (.error f, t)
  | (.ok (), t) =>
    match t.readFile p with
    | .error f => (.error f, t)
    | .ok (mode, bytes) =>
      t.createFile q (if executable then withExecution (mode % 0o10000) else mode % 0o10000) bytes

end Tree
end Attic
