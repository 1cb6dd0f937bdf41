import Attic.Tree.Basic

/-!
# From one tree to another

The steps that turn a tree into another one: folders are made, files that went
elsewhere are moved, others are written, permissions are set, and what is left
over is removed.

Key definitions: `Tree.Edit`, `Tree.edits`.
-/

namespace Attic
namespace Tree

inductive Edit where
  | makeFolder (place : Location)
  | move (source place : Location)
  | write (place : Location) (bytes : ByteArray)
  | permit (place : Location) (mode : Nat)
  | remove (place : Location)

/-- Whether two objects are the same but for their permissions. -/
def sameContent : Object → Object → Bool
  | .file _ a, .file _ b => a == b
  | .link a, .link b => a == b
  | .folder, .folder => true
  | _, _ => false

def modeOf : Object → Option Nat
  | .file mode _ => some mode
  | _ => none

/-- The edits that give a place its permissions. -/
def permits (place : Location) (before after : Object) : List Edit :=
  match modeOf after with
  | some mode => if modeOf before = some mode then [] else [.permit place mode]
  | none => []

/-- The edits that put an object where none was. `gone` are the objects that are
somewhere else now or nowhere; what is left of them is given back. -/
def appear (gone : List (Location × Object)) (place : Location) (o : Object) :
    List Edit × List (Location × Object) :=
  match o, gone.find? fun g => sameContent g.2 o with
  | .folder, _ => ([.makeFolder place], gone)
  | o, some g => (.move g.1 place :: permits place g.2 o, gone.filter fun h => h.1 ≠ g.1)
  | .file mode bytes, none => ([.write place bytes, .permit place mode], gone)
  | .link _, none => ([], gone)

/-- The edits for the objects of the new tree, with what is left of the old. -/
def editsFrom (old : Tree) : List (Location × Object) → List (Location × Object) → List Edit
  | gone, [] => gone.map fun g => .remove g.1
  | gone, (place, o) :: rest =>
    match old.get? place with
    | none =>
      let (first, gone) := appear gone place o
      first ++ editsFrom old gone rest
    | some before =>
      let writes := match before, o with
        | .file _ a, .file _ b => if a == b then [] else [.write place b]
        | _, _ => []
      writes ++ permits place before o ++ editsFrom old gone rest

/-- Whether an object is a folder. -/
def isFolderObject : Object → Bool
  | .folder => true
  | _ => false

/-- The edits that turn one tree into another. Folders are never removed. -/
def edits (old new : Tree) : List Edit :=
  let gone := old.objects.filter fun (l, o) => !isFolderObject o && (new.get? l).isNone
  let folders := new.objects.filter fun e => isFolderObject e.2
  let others := new.objects.filter fun e => !isFolderObject e.2
  editsFrom old gone (folders ++ others)

end Tree
end Attic
