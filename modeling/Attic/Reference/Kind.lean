import Attic.Path.Parts

/-!
# Kinds of references

A line of a source file can refer to a script in five ways. What it says of the
script is a specifier, to be resolved from the file: a path, a path with holes
that are filled in at run time, or a dotted module.

Key definitions: `Reference.Kind`, `Reference.Specifier`, `Reference.Flavor`.
-/

namespace Attic
namespace Reference

inductive Kind where
  | staticImport
  | dynamicImport
  | require
  | shellSource
  | shellExec
  deriving DecidableEq

namespace Kind

/-- All kinds, in the order in which they are reported. -/
def all : List Kind := [.staticImport, .dynamicImport, .require, .shellSource, .shellExec]

def rank : Kind → Nat
  | .staticImport => 0
  | .dynamicImport => 1
  | .require => 2
  | .shellSource => 3
  | .shellExec => 4

/-- The name of the kind in reports. -/
def label : Kind → String
  | .staticImport => "static-import"
  | .dynamicImport => "dynamic-import"
  | .require => "require"
  | .shellSource => "shell-source"
  | .shellExec => "shell-exec"

/-- The name of the kind in JSON. -/
def name : Kind → String
  | .staticImport => "StaticImport"
  | .dynamicImport => "DynamicImport"
  | .require => "Require"
  | .shellSource => "ShellSource"
  | .shellExec => "ShellDirectExec"

/-- Whether a shell reads the path, from whatever folder it runs in. -/
def isShell : Kind → Bool
  | .shellSource => true
  | .shellExec => true
  | _ => false

end Kind

/-- What a line says of a script. -/
inductive Specifier where
  /-- A path, absolute, relative, or after a variable or alias. -/
  | path (raw : String)
  /-- A path with holes: `${…}` stands for a text that is not known. -/
  | computed (raw : String)
  /-- A dotted module. The level counts the dots of a relative import. -/
  | module (name : String) (level : Nat)
  deriving DecidableEq

/-- The language family of a file, which decides what imports look like. -/
inductive Flavor where
  | python
  | other
  deriving DecidableEq

def Flavor.of (file : Path) : Flavor :=
  match file.extension? with
  | some "py" => .python
  | some "pyi" => .python
  | _ => .other

end Reference
end Attic
