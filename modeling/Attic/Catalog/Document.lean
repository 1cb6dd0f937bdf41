import Attic.Catalog.Command
import Attic.Json.Shape
import Attic.Json.Write
import Attic.Path.Normal
import Attic.Text.Quoted
import Attic.Tree.Lookup

/-!
# Catalog documents

A catalog document is a JSON object: each pipeline is a member with its shell
entry and, if it has any, its commands, which are members with the path of
their implementation or `null`. A pipeline can also be a list of the two.
Flattening gives one command for each declared one, sorted by pipeline and
name. Every path is brought to its normal form and has to lie in the
repository.

Key definitions: `Catalog.ShapeFault`, `Catalog.Fault`, `Catalog.flatten`,
`Catalog.load`.
-/

namespace Attic
namespace Catalog

/-- What a document has where something else belongs. -/
inductive ShapeFault where
  | wrongKind (value : Json.Value) (expected : String)
  | noShell
  | unknownField (name : String)
  | emptyList
  | longList (length : Nat)

/-- A value as messages name it. -/
def describe : Json.Value → String
  | .null => "null"
  | .bool b => "boolean `" ++ (if b then "true" else "false") ++ "`"
  | .number (.float x) => "floating point `" ++ String.ofList (Json.Number.float x).write ++ "`"
  | .number n => "integer `" ++ String.ofList n.write ++ "`"
  | .text s => "string " ++ String.ofList (Text.quoted s.toList)
  | .list _ => "sequence"
  | .object _ => "map"

def ShapeFault.message : ShapeFault → String
  | .wrongKind value expected => "invalid type: " ++ describe value ++ ", expected " ++ expected
  | .noShell => "missing field `shell`"
  | .unknownField name => "unknown field `" ++ name ++ "`, expected `shell` or `commands`"
  | .emptyList => "invalid length 0, expected struct PipelineDecl with 2 elements"
  | .longList n => "invalid length " ++ toString n ++ ", expected fewer elements in array"

/-- Why there is no catalog. -/
inductive Fault where
  | file (path : Path) (fault : Tree.Fault)
  | text (path : Path) (flaw : Json.Flaw)
  | shape (fault : ShapeFault)
  /-- A path of a pipeline or command that does not lie in the repository. -/
  | outside (owner : String) (path : Path)

/-- The reason below the message of a fault, if it has one. -/
def Fault.cause? : Fault → Option String
  | .file _ fault => some fault.message
  | .text _ flaw => some flaw.message
  | _ => none

def Fault.message : Fault → String
  | .file path fault => "failed to read command catalog " ++ path.text ++ ": " ++ fault.message
  | .text path flaw => "failed to parse command catalog " ++ path.text ++ ": " ++ flaw.message
  | .shape fault => "invalid command catalog: " ++ fault.message
  | .outside owner path =>
    "invalid command catalog: " ++ owner ++ ": '" ++ path.text ++
      "' is not a path inside the repository"

/-! ### The shape of a document -/

/-- A pipeline as it is declared. -/
structure Pipeline where
  shell : Path
  commands : Order.Table (Option Path)

def readPath : Json.Value → Except ShapeFault Path
  | .text s => .ok ⟨s⟩
  | v => .error (.wrongKind v "path string")

def readPath? : Json.Value → Except ShapeFault (Option Path)
  | .null => .ok none
  | v => (readPath v).map some

/-- The members of an object, each read, sorted by name. -/
def readMembers {α : Type} (read : Json.Value → Except ShapeFault α) :
    List (String × Json.Value) → Except ShapeFault (Order.Table α)
  | [] => .ok []
  | (name, v) :: ms =>
    match read v with
    | .error f => .error f
    | .ok a => (readMembers read ms).map fun t => (name, a) :: t

def readCommands : Json.Value → Except ShapeFault (Order.Table (Option Path))
  | .object ms => readMembers readPath? ms
  | v => .error (.wrongKind v "a map")

/-- Reads the members of a pipeline one after the other. -/
def readPipelineMembers : Option Path × Order.Table (Option Path) →
    List (String × Json.Value) → Except ShapeFault Pipeline
  | (some shell, commands), [] => .ok ⟨shell, commands⟩
  | (none, _), [] => .error .noShell
  | (shell, commands), (name, v) :: ms =>
    if name = "shell" then
      match readPath v with
      | .error f => .error f
      | .ok p => readPipelineMembers (some p, commands) ms
    else if name = "commands" then
      match readCommands v with
      | .error f => .error f
      | .ok t => readPipelineMembers (shell, t) ms
    else .error (.unknownField name)

def readPipeline : Json.Value → Except ShapeFault Pipeline
  | .object ms => readPipelineMembers (none, []) ms
  | .list [] => .error .emptyList
  | .list [shell] => (readPath shell).map fun p => ⟨p, []⟩
  | .list (shell :: commands :: rest) =>
    match readPath shell, readCommands commands with
    | .error f, _ => .error f
    | .ok _, .error f => .error f
    | .ok p, .ok t => if rest.isEmpty then .ok ⟨p, t⟩ else .error (.longList (rest.length + 2))
  | v => .error (.wrongKind v "struct PipelineDecl")

def readPipelines : Json.Value → Except ShapeFault (Order.Table Pipeline)
  | .object ms => readMembers readPipeline ms
  | v => .error (.wrongKind v "a map")

/-! ### Flattening -/

/-- A path of the repository in its normal form. -/
def repositoryPath (owner : String) (p : Path) : Except Fault Path :=
  match p.normalize? with
  | some q => if q.isEmpty then .error (.outside owner p) else .ok q
  | none => .error (.outside owner p)

/-- One declared command of a pipeline. -/
def flattenCommand (pipeline : String) (shell : Path) (name : String)
    (implementation : Option Path) : Except Fault Command :=
  match implementation with
  | none => .ok ⟨pipeline, name, shell, none, none⟩
  | some p =>
    (repositoryPath (pipeline ++ "." ++ name) p).map fun q => ⟨pipeline, name, shell, some q, none⟩

/-- The commands of one pipeline. -/
def flattenPipeline (pipeline : String) (d : Pipeline) : Except Fault (List Command) :=
  match repositoryPath pipeline d.shell with
  | .error f => .error f
  | .ok shell => d.commands.mapM fun (name, p) => flattenCommand pipeline shell name p

/-- The commands that a document declares, sorted by pipeline and name. -/
def flatten (v : Json.Value) : Except Fault (List Command) :=
  match readPipelines v with
  | .error f => .error (.shape f)
  | .ok pipelines => (pipelines.mapM fun (name, d) => flattenPipeline name d).map List.flatten

/-- The commands of the catalog file at an absolute path. -/
def load (t : Tree) (path : Path) : Except Fault (List Command) :=
  match t.readText path with
  | .error f => .error (.file path f)
  | .ok text =>
    match Json.readValue text.toList with
    | .error flaw => .error (.text path flaw)
    | .ok v => flatten v

end Catalog
end Attic
