import Attic.Cli.Run
import Attic.Shell.Check
import Attic.Tree.Difference
import Std.Time.DateTime.Timestamp

/-!
# The program

Reads the files that a command line is about into a tree, runs the command line
on it, prints what it says, and carries the changes of the tree out on disk.
-/

namespace Attic
namespace Program

def placeOf (path : String) : Location := Tree.steps path

def diskPath (place : Location) : String := (Tree.pathOf place).text

/-- The folders on the way down to a place, the place itself left out. -/
def foldersAbove (place : Location) : List (Location × Object) :=
  (List.range (place.length - 1)).map fun n => (place.take (n + 1), .folder)

/-- The permission bits that a file is taken to have. Moving keeps the real ones. -/
def assumedMode : Nat := Tree.newMode

/-- Reads what is at a place and everything below it. -/
partial def readPlace (place : Location) : IO (List (Location × Object)) := do
  let path ← IO.FS.realPath (diskPath place)
  match (← path.symlinkMetadata).type with
  | .dir =>
    let mut found : List (Location × Object) := [(place, .folder)]
    for entry in ← path.readDir do
      let below := place ++ [entry.fileName]
      if (← entry.path.symlinkMetadata).type == .symlink then
        found := (below, .link (toString (← IO.FS.realPath entry.path))) :: found
      else
        found := (← readPlace below) ++ found
    return found.filter fun e => e.1 ≠ []
  | .file => return [(place, .file assumedMode (← IO.FS.readBinFile path))]
  | _ => return []

/-- The real place of a path, if there is something. -/
def realPlace? (path : String) : IO (Option Location) := do
  try
    return some (placeOf (toString (← IO.FS.realPath path)))
  catch _ => return none

/-- Reads the places of some paths. -/
def readTree (paths : List String) : IO Tree := do
  let mut objects : List (Location × Object) := []
  let mut done : List Location := []
  for path in paths do
    if let some place ← realPlace? path then
      if !done.any fun d => d.isPrefixOf place then
        let above := (foldersAbove place).filter fun e => !objects.any fun o => o.1 = e.1
        let found ← readPlace place
        objects := above ++ found ++
          objects.filter fun o => !found.any fun f => f.1 = o.1
        done := place :: done
  return ⟨objects⟩

/-- The paths that a command line is about, besides the current folder. -/
def pathsOf (args : List String) : List String :=
  match Cli.Invocation.read args with
  | .ok i => i.root.text :: (i.config.map Path.text).toList
  | .error _ => []

def right (bits : Nat) : IO.AccessRight :=
  { read := bits &&& 4 != 0, write := bits &&& 2 != 0, execution := bits &&& 1 != 0 }

def carryOut : Tree.Edit → IO Unit
  | .makeFolder place => IO.FS.createDirAll (diskPath place)
  | .move source place => IO.FS.rename (diskPath source) (diskPath place)
  | .write place bytes => IO.FS.writeBinFile (diskPath place) bytes
  | .permit place mode =>
    IO.setAccessRights (diskPath place)
      { user := right (mode >>> 6), group := right (mode >>> 3), other := right mode }
  | .remove place => IO.FS.removeFile (diskPath place)

def currentTime : IO Timestamp := do
  let n := (← Std.Time.Timestamp.now).toNanosecondsSinceUnixEpoch.val.toNat
  return .sinceEpoch (n / Timestamp.nanosPerSecond) (n % Timestamp.nanosPerSecond)

def run (args : List String) : IO UInt32 := do
  let directory := toString (← IO.currentDir)
  let tree ← readTree (directory :: pathsOf args)
  let (result, changed) := Cli.run ⟨⟨directory⟩, ← currentTime, Shell.check⟩ args tree
  for edit in tree.edits changed do
    carryOut edit
  (← IO.getStdout).putStr result.output
  (← IO.getStderr).putStr result.errors
  return UInt32.ofNat result.code

end Program
end Attic

def main (args : List String) : IO UInt32 := Attic.Program.run args
