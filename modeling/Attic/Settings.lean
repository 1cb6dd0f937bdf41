import Attic.Glob.Pattern
import Attic.Json.Shape
import Attic.Tree.Lookup

/-!
# Settings of a repository

The file `.script-archive.json` at the root of a repository says what is
scanned, what is left out, and where archived scripts, the ledger and the
catalog are. A setting that is left out has its default, and so have all of
them when there is no file. Settings of other names are refused.

Key definitions: `Settings`, `Settings.standard`, `Settings.Fault`,
`Settings.ofNode`, `Settings.read`, `Settings.load`, `Settings.patterns`.
-/

namespace Attic

structure Settings where
  /-- What is walked for references. -/
  searchRoots : List Path
  /-- Folders that are left out: one name anywhere, or one place. -/
  excludeDirs : List Path
  /-- Patterns of what is left out. -/
  excludeGlobs : List String
  /-- The folder, beside a script, that its archived copy goes to. -/
  archiveDir : String
  ledgerPath : Path
  catalogPath : Path
  /-- The category of the paths below a prefix. -/
  categories : Order.Table String
  /-- Larger files are not read. -/
  maxFileBytes : Nat
  /-- How many workers read files. -/
  threads : Option Nat
  deriving DecidableEq

namespace Settings

def fileName : String := ".script-archive.json"

def standardArchiveDir : String := ".archived_scripts"

def standard : Settings where
  searchRoots := [⟨"."⟩]
  excludeDirs :=
    ["node_modules", ".git", "dist", "build", "target", ".next", ".turbo", "coverage",
      "__pycache__", ".venv", standardArchiveDir].map Path.mk
  excludeGlobs := []
  archiveDir := standardArchiveDir
  ledgerPath := ⟨".archived_scripts/ledger.jsonl"⟩
  catalogPath := ⟨"command-catalog.json"⟩
  categories := []
  maxFileBytes := 4 * 1024 * 1024
  threads := none

/-- Why settings cannot be used. -/
inductive Fault where
  | file (path : Path) (fault : Tree.Fault)
  | text (path : Path) (flaw : Json.Flaw)
  | glob (pattern : String) (flaw : Glob.Flaw)
  deriving DecidableEq

/-- The reason below the message of a fault. -/
def Fault.cause : Fault → String
  | .file _ fault => fault.message
  | .text _ flaw => flaw.message
  | .glob _ flaw => flaw.message

def Fault.message : Fault → String
  | .file path fault => "failed to read config " ++ path.text ++ ": " ++ fault.message
  | .text path flaw => "failed to parse config " ++ path.text ++ ": " ++ flaw.message
  | .glob pattern flaw => "invalid exclude glob '" ++ pattern ++ "': " ++ flaw.message

/-! ### Reading -/

def readPath (node : Json.Node) : Except Json.Flaw Path := node.readString.map Path.mk

def readPaths (node : Json.Node) : Except Json.Flaw (List Path) :=
  node.readStrings.map fun l => l.map Path.mk

/-- Settings of which some have been read. -/
structure Given where
  settings : Settings
  names : List String

/-- Reads one setting into its place. -/
def readField (s : Settings) (name : String) (value : Json.Node) : Except Json.Flaw Settings :=
  match name with
  | "search_roots" => (readPaths value).map fun x => { s with searchRoots := x }
  | "exclude_dirs" => (readPaths value).map fun x => { s with excludeDirs := x }
  | "exclude_globs" => value.readStrings.map fun x => { s with excludeGlobs := x }
  | "archive_dir_name" => value.readString.map fun x => { s with archiveDir := x }
  | "ledger_path" => (readPath value).map fun x => { s with ledgerPath := x }
  | "catalog_path" => (readPath value).map fun x => { s with catalogPath := x }
  | "categories" => value.readTable.map fun x => { s with categories := x }
  | "max_file_bytes" => value.readNat.map fun x => { s with maxFileBytes := x }
  | "threads" => value.readNat?.map fun x => { s with threads := x }
  | _ => .error .mismatch

/-- The names of the settings, in the order of their declaration. -/
def fieldNames : List String :=
  ["search_roots", "exclude_dirs", "exclude_globs", "archive_dir_name", "ledger_path",
    "catalog_path", "categories", "max_file_bytes", "threads"]

/-- Reads one member; a setting may be given once. -/
def Given.read (g : Given) (name : String) (value : Json.Node) : Except Json.Flaw Given :=
  if g.names.contains name then .error .mismatch
  else (readField g.settings name value).map fun s => ⟨s, name :: g.names⟩

/-- Reads settings that are listed in the order of their declaration. -/
def readListed : List String → Settings → Json.Items → Except Json.Flaw Settings
  | [], s, items => items.finish.map fun () => s
  | name :: names, s, items =>
    match items.next? with
    | .error f => .error f
    | .ok none => .ok s
    | .ok (some (item, rest)) =>
      match readField s name item with
      | .error f => .error f
      | .ok s => readListed names s rest

def ofNode : Json.Node → Except Json.Flaw Settings
  | .object members => (members.fold Given.read ⟨standard, []⟩).map Given.settings
  | .list items => readListed fieldNames standard items
  | node => .error node.flaw

/-- The patterns of what is left out, or the first text that is no pattern. -/
def patterns (s : Settings) : Except Fault (List Glob.Pattern) :=
  s.excludeGlobs.mapM fun text =>
    match Glob.Pattern.read text with
    | .ok p => .ok p
    | .error flaw => .error (.glob text flaw)

/-- Reads the settings of a text, which stands in the file `path`. -/
def read (path : Path) (text : List Char) : Except Fault Settings :=
  let d := Json.Document.read text
  match d.close (ofNode d.root) with
  | .error flaw => .error (.text path flaw)
  | .ok s => s.patterns.map fun _ => s

/-- Reads the settings of a file, found at the absolute path `place` and called
`path`. -/
def ofFile (t : Tree) (place path : Path) : Except Fault Settings :=
  match t.readText place with
  | .error f => .error (.file path f)
  | .ok text => read path text.toList

/-- The settings of a repository. -/
def load (t : Tree) (root : Path) : Except Fault Settings :=
  let path := root.join ⟨fileName⟩
  if t.has path then ofFile t path path else .ok standard

/-- A path of the settings, seen from the root. -/
def resolve (root path : Path) : Path := if path.isAbsolute then path else root.join path

end Settings
end Attic
