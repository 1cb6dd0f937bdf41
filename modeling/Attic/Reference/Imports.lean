import Attic.Reference.Kind
import Attic.Reference.Recognize
import Attic.Text.Lines

/-!
# Imports

Lines that name modules: `from`, `import`, `#include` and `@import` before a
quoted path, `import(…)` and `require(…)` calls, and the two import statements
and the loading calls of Python.

Key definitions: `Reference.staticImports`, `Reference.dynamicImports`,
`Reference.requires`, `Reference.fromImport?`, `Reference.importNames?`.
-/

namespace Attic
namespace Reference

/-! ### Quoted paths -/

/-- What may stand before the quoted path of a static import. -/
def importLead? (before cs : List Char) : Option (List Char) :=
  match cs with
  | 'f' :: _ => if startsWord before then (literal? "from" cs).map skipBlanks else none
  | 'i' :: _ => if startsWord before then (literal? "import" cs).bind blanks? else none
  | '#' :: rest => (literal? "include" (skipBlanks rest)).map skipBlanks
  | '@' :: rest =>
    ((literal? "import" rest).bind blanks?).map fun rest => (literal? "url(" rest).getD rest
  | _ => none

/-- A static import of a quoted path. -/
def importForm : Form (List Char) := fun before cs =>
  (importLead? before cs).bind fun rest =>
    between? (fun c => isQuote c || c == '<')
      (fun c => !(isQuote c || c == '<' || c == '>' || c == '\n'))
      (fun c => isQuote c || c == '>') rest

/-- A quoted path as the first argument of a call, after its name. -/
def callArgument? (cs : List Char) : Option (List Char × List Char) :=
  (literal? "(" (skipBlanks cs)).bind fun rest =>
    between? isAnyQuote (fun c => !(isAnyQuote c || c == '\n')) isAnyQuote (skipBlanks rest)

/-- A call of `import` with a quoted path. -/
def dynamicForm : Form (List Char) := fun before cs =>
  if startsWord before then (literal? "import" cs).bind callArgument? else none

/-- A call of `require` or `require.resolve` with a quoted path. -/
def requireForm : Form (List Char) := fun before cs =>
  if startsWord before then
    (literal? "require" cs).bind fun rest => callArgument? ((literal? ".resolve" rest).getD rest)
  else none

/-- A path with `${` in it has holes. -/
def pathOrComputed (raw : List Char) : Specifier :=
  if Text.occursIn ['$', '\x7b'] raw then .computed (String.ofList raw)
  else .path (String.ofList raw)

/-! ### Python -/

/-- A character of a dotted name. -/
def isModuleChar (c : Char) : Bool := Text.isWordChar c || c == '.'

/-- The names that a `from` statement imports, after its `import`. -/
def importedNames (cs : List Char) : List Char :=
  let cs := skipBlanks cs
  let cs := match cs with
    | '(' :: rest => skipBlanks rest
    | cs => cs
  cs.takeWhile fun c => Text.isWordChar c || Text.isBlank c || c == ','

/-- The dots, the module and the names of a `from` statement. Where `import`
takes the place of the module, two blanks before it count as an empty module
between them. -/
def fromImport? (line : List Char) : Option (Nat × List Char × List Char) :=
  (literal? "from" (skipBlanks line)).bind fun rest =>
    (blanks? rest).bind fun cs =>
      let dots := cs.takeWhile (· = '.')
      let afterDots := cs.dropWhile (· = '.')
      let module := afterDots.takeWhile isModuleChar
      match (blanks? (afterDots.dropWhile isModuleChar)).bind (literal? "import") with
      | some names => some (dots.length, module, importedNames names)
      | none =>
        if cs.length + 2 ≤ rest.length then
          (literal? "import" cs).map fun names => (0, [], importedNames names)
        else none

/-- More names after the first of an `import` statement. -/
def moreNames : Nat → List Char → List (List Char)
  | 0, _ => []
  | fuel + 1, cs =>
    match skipBlanks cs with
    | ',' :: rest =>
      match run? isModuleChar (skipBlanks rest) with
      | some (name, rest) => name :: moreNames fuel rest
      | none => []
    | _ => []

/-- The modules of an `import` statement. -/
def importNames? (line : List Char) : Option (List (List Char)) :=
  ((literal? "import" (skipBlanks line)).bind blanks?).bind fun cs =>
    (run? isModuleChar cs).map fun (name, rest) => name :: moreNames rest.length rest

/-- The specifiers of a `from` statement: the module, then each listed name as
one of its modules. -/
def fromSpecifiers (level : Nat) (module names : List Char) : List Specifier :=
  .module (String.ofList module) level ::
    ((Text.cutEach ',' names).filterMap Text.firstWord?).map fun name =>
      .module (String.ofList (if module = [] then name else module ++ '.' :: name)) level

def pythonImports (line : List Char) : List Specifier :=
  match fromImport? line with
  | some (level, module, names) => fromSpecifiers level module names
  | none =>
    match importNames? line with
    | some names => names.map fun name => .module (String.ofList name) 0
    | none => []

/-- The call that loads a module by its name. -/
def pythonLoader? (cs : List Char) : Option (List Char) :=
  firstOf? (fun name => literal? name cs)
    ["importlib.import_module", "import_module", "__import__"]

/-- A loading call with a quoted module. -/
def pythonLoadForm : Form (List Char) := fun before cs =>
  if startsWord before then
    (pythonLoader? cs).bind fun rest =>
      (literal? "(" (skipBlanks rest)).bind fun rest =>
        between? isQuote isModuleChar isQuote (skipBlanks rest)
  else none

/-! ### By kind -/

def staticImports (flavor : Flavor) (line : List Char) : List Specifier :=
  match flavor with
  | .python => pythonImports line
  | .other => (occurrences importForm line).map fun raw => .path (String.ofList raw)

def dynamicImports (flavor : Flavor) (line : List Char) : List Specifier :=
  match flavor with
  | .python => (occurrences pythonLoadForm line).map fun name => .module (String.ofList name) 0
  | .other => (occurrences dynamicForm line).map pathOrComputed

def requires (line : List Char) : List Specifier :=
  (occurrences requireForm line).map pathOrComputed

end Reference
end Attic
