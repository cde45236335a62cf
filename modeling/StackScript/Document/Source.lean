import StackScript.Document.GraphStep
import StackScript.Program

/-!
# Reading programs and settings

## Main definitions

* `Routine.ofJson`, `TypeDeclaration.ofJson`, `Item.ofJson`, `SourceUnit.ofJson`: programs
* `Settings.ofJson`: settings that start from a preset
* `Diagnostic.ofJson`: diagnostics
-/

namespace StackScript

/-- A function or a method. Unless the document says otherwise, it is static or not as given. -/
def Routine.ofJson (isStatic : Bool) (json : Json) : Decode Routine := do
  return {
    name := ← json.field "name" Json.text
    params := ← json.defaulted "params" [] (Json.listOf Parameter.ofJson)
    isStatic := ← json.defaulted "static" isStatic Json.flag
    owner := ← json.optional "owner" Json.qualifiedName
    threadsContext := ← json.defaulted "threads_context" false Json.flag
    graph := ← json.defaulted "graph" Graph.new Graph.ofJson }

def Field.ofJson (json : Json) : Decode Field := do
  return {
    name := ← json.field "name" Json.text
    isStatic := ← json.defaulted "static" false Json.flag
    initializer := ← json.optional "init" Expr.ofJson }

def TypeDeclaration.ofJson (json : Json) : Decode TypeDeclaration := do
  return {
    name := ← json.field "name" Json.qualifiedName
    base := ← json.optional "base" Json.qualifiedName
    fields := ← json.defaulted "fields" [] (Json.listOf Field.ofJson)
    methods := ← json.defaulted "methods" [] (Json.listOf (Routine.ofJson false))
    threadsContext := ← json.defaulted "threads_context" false Json.flag
    callable := ← json.defaulted "callable" false Json.flag }

def Item.ofJson (json : Json) : Decode Item := do
  match ← json.alternative with
  | ("function", some part) => return .function (← Routine.ofJson true part)
  | ("type", some part) => return .type (← TypeDeclaration.ofJson part)
  | ("conditional", some part) =>
    return .conditional (← (← part.items).mapM fun item => Item.ofJson item.1)
  | _ => malformed
termination_by sizeOf json
decreasing_by exact Json.Part.smaller _

def SourceUnit.ofJson (json : Json) : Decode SourceUnit := do
  return ⟨← json.field "path" Json.text, ← json.field "items" (Json.listOf Item.ofJson)⟩

def Preset.ofJson : Json → Decode Preset :=
  Json.oneOf ([.debug, .release].map fun preset : Preset => (preset.word, preset))

def Optimization.ofJson : Json → Decode Optimization :=
  Json.oneOf ([.debug, .release].map fun level : Optimization => (level.word, level))

/-- The settings with another value of a field. -/
def Settings.withField (settings : Settings) (name : String) (value : Json) : Decode Settings := do
  match name with
  | "optimization" => return { settings with optimization := ← Optimization.ofJson value }
  | "emit_sequence_points" => return { settings with sequencePoints := ← value.flag }
  | "max_locals" => return { settings with maxLocals := ← value.nat64 }
  | "parallel" => return { settings with parallel := ← value.flag }
  | "base_directory" => return { settings with baseDirectory := some (← value.text) }
  | _ => malformed

/-- Settings: a preset, the debug preset unless another is named, with some fields replaced. -/
def Settings.ofJson (json : Json) : Decode Settings := do
  let preset ← json.defaulted "preset" .debug Preset.ofJson
  ["optimization", "emit_sequence_points", "max_locals", "parallel", "base_directory"].foldlM
    (fun settings name =>
      match json.present? name with
      | some value => settings.withField name value
      | none => .ok settings)
    (Settings.ofPreset preset)

def Severity.ofJson : Json → Decode Severity :=
  Json.oneOf ([.error, .warning].map fun severity : Severity => (severity.word, severity))

def Diagnostic.ofJson (json : Json) : Decode Diagnostic := do
  return {
    severity := ← json.field "severity" Severity.ofJson
    routine := ← json.field "routine" Json.text
    message := ← json.field "message" Json.text }

end StackScript
