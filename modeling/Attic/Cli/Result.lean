import Attic.Inspection
import Attic.Request

/-!
# What a command prints

A command comes to an exit code and two texts, its output and what it says on
the side. One that fails says why on the side: the failure, and below it the
failures that caused it.

Key definitions: `Cli.Result`, `Cli.Failure`, `Cli.Failure.text`,
`Cli.Failure.within`.
-/

namespace Attic
namespace Cli

structure Result where
  code : Nat
  output : String
  errors : String
  deriving DecidableEq

/-- Lines as a text. -/
def textOf (lines : List String) : String := String.join (lines.map fun line => line ++ "\n")

/-- The result of a command that ran: the code says whether all is well. -/
def Result.of (isClean : Bool) (output errors : List String) : Result :=
  ⟨if isClean then 0 else 1, textOf output, textOf errors⟩

/-- Why a command failed, and what caused that, the nearest cause first. -/
structure Failure where
  message : String
  causes : List String
  deriving DecidableEq

namespace Failure

/-- The failure as the cause of another. -/
def within (context : String) (f : Failure) : Failure := ⟨context, f.message :: f.causes⟩

def ofSettings (f : Settings.Fault) : Failure := ⟨f.message, [f.cause]⟩

def ofLedger (f : Ledger.Fault) : Failure := ⟨f.message, f.cause?.toList⟩

def ofCatalog (f : Catalog.Fault) : Failure := ⟨f.message, f.cause?.toList⟩

def ofInspection (f : Inspection.Fault) : Failure := ⟨f.message, f.cause?.toList⟩

def ofRequest (f : RequestFault) : Failure := ⟨f.message, f.cause?.toList⟩

def ofTree (f : Tree.Fault) : Failure := ⟨f.message, []⟩

/-- A cause, whose further lines stand as deep as its first. -/
def causeText (label : String) (cause : String) : String :=
  let blank := String.ofList (List.replicate label.length ' ')
  label ++ ("\n" ++ blank).intercalate
    ((Text.cutEach '\n' cause.toList).map String.ofList) ++ "\n"

/-- The number of a cause, where there are several. -/
def causeLabel (n : Nat) : String :=
  let digits := toString n
  String.ofList (List.replicate (5 - digits.length) ' ') ++ digits ++ ": "

def causesText : List String → String
  | [] => ""
  | [cause] => "\nCaused by:\n" ++ causeText "    " cause
  | causes =>
    "\nCaused by:\n" ++
      String.join (causes.zipIdx.map fun (cause, n) => causeText (causeLabel n) cause)

def text (f : Failure) : String := "Error: " ++ f.message ++ "\n" ++ causesText f.causes

/-- The result of a command that failed after it printed something. -/
def result (f : Failure) (output errors : List String) : Result :=
  ⟨1, textOf output, textOf errors ++ f.text⟩

end Failure
end Cli
end Attic
