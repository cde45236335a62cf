import StackScript.Lowering.Item

/-!
# Compiling programs

A program is compiled against the table of its declarations. A body for which no code can be
generated becomes a diagnostic, and the others are compiled all the same; a name that is declared
twice, and settings out of range, stop the compilation.

## Main definitions

* `CompilationError`, `Diagnostic`: what goes wrong with a program, and with a body
* `Program`, `Program.compile`: the compiled program
* `Program.body?`, `Program.diagnostic?`: look-up by name
-/

namespace StackScript

/-- How bad a diagnostic is. -/
inductive Severity where
  | error
  | warning
  deriving Repr, DecidableEq

def Severity.word : Severity → String
  | .error => "error"
  | .warning => "warning"

/-- A message about a body. -/
structure Diagnostic where
  severity : Severity
  routine : String
  message : String
  deriving Repr, DecidableEq

namespace Diagnostic

/-- The diagnostic of a body that was not compiled. -/
def ofError (error : CodegenError) : Diagnostic := ⟨.error, error.routine, error.message⟩

def isError (diagnostic : Diagnostic) : Bool := diagnostic.severity == .error

/-- The diagnostic as it is shown. -/
def text (diagnostic : Diagnostic) : String :=
  diagnostic.severity.word ++ ": " ++ diagnostic.message

def outline (diagnostic : Diagnostic) : Outline :=
  .record "Diagnostic" [
    ("severity", .word diagnostic.severity.word),
    ("routine", .text diagnostic.routine),
    ("message", .text diagnostic.message)]

end Diagnostic

/-- Why a program is not compiled. -/
inductive CompilationError where
  | declaration (error : Redeclaration)
  | settings (error : SettingsError)
  /-- A flow graph has an edge to a block that does not exist. -/
  | missingBlock (b : BlockId)

namespace CompilationError

def message : CompilationError → String
  | .declaration error => "declaration error: " ++ error.message
  | .settings error => "configuration error: " ++ error.message
  | .missingBlock b => "no block " ++ showBlock b

end CompilationError

/-- A compiled program: the declarations, the bodies, and the diagnostics of bodies that were not
compiled. -/
structure Program where
  table : Table
  bodies : List Body
  diagnostics : List Diagnostic

/-- What the items of a list are compiled to, the numbers of call sites handed on from one to the
next. -/
def compileItems (table : Table) (settings : Settings) (nextSite : SiteId) :
    List WorkItem → List (Except CodegenError Body)
  | [] => []
  | item :: rest =>
    let (result, nextSite) := item.compile table settings nextSite
    result :: compileItems table settings nextSite rest

/-- The block that a result misses. -/
def missingBlock? : Except CodegenError Body → Option BlockId
  | .error ⟨_, .missingBlock b⟩ => some b
  | _ => none

namespace Program

/-- The program that the results for its items make up. -/
def ofResults (table : Table) (results : List (Except CodegenError Body)) : Program where
  table := table
  bodies := results.filterMap fun
    | .ok body => some body
    | .error _ => none
  diagnostics := results.filterMap fun
    | .ok _ => none
    | .error error => some (.ofError error)

/-- A program, compiled. -/
def compile (settings : Settings) (units : List SourceUnit) : Except CompilationError Program :=
  match settings.validate with
  | .error error => .error (.settings error)
  | .ok settings =>
    match Table.ofUnits settings.baseDirectory units with
    | .error error => .error (.declaration error)
    | .ok table =>
      let results := compileItems table settings 0 (WorkItem.all table)
      match results.findSome? missingBlock? with
      | some b => .error (.missingBlock b)
      | none => .ok (ofResults table results)

/-- The body of a name, in any case of its ASCII letters, leading backslashes read over. -/
def body? (program : Program) (name : String) : Option Body :=
  let key := nameKey name
  program.bodies.find? (·.name.key == key)

/-- Some body was not compiled. -/
def hasErrors (program : Program) : Bool := program.diagnostics.any (·.isError)

/-- The diagnostic of a body that was not compiled, by its name in any case of its letters. -/
def diagnostic? (program : Program) (routine : String) : Option Diagnostic :=
  program.diagnostics.find? fun diagnostic =>
    Text.equalIgnoringCase diagnostic.routine routine

/-- The outline of a program: its bodies and diagnostics. -/
def outline (program : Program) : Outline :=
  .record "Program" [
    ("bodies", .list (program.bodies.map Body.outline)),
    ("diagnostics", .list (program.diagnostics.map Diagnostic.outline))]

/-- The bodies and diagnostics as a JSON document. -/
def document (program : Program) : String := program.outline.toJson.indented

end Program

end StackScript
